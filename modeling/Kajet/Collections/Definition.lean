import Kajet.Collections.Template
import Kajet.Lib.Pattern
import Kajet.Links.Index

/-!
# Collection definitions

* `CollectionDefinition`, `render`   a definition, and the folder and title that it gives a date;
* `matchesNote`, `siblingPattern`    membership, and the entries of one date;
* `parseDefinition`, `Accepted`      what `_parse_definition` accepts;
* `renderSet`                        the sampled renderings.
-/

namespace Kajet.Collections
open Str Links
open Frontmatter (Yaml)

inductive Cardinality where
  | one | many
deriving DecidableEq

structure CollectionDefinition where
  name : Text
  grain : PeriodKind
  cardinality : Cardinality
  folder : Text
  title : Text
  description : Option Text
deriving DecidableEq

/-! ## patterns -/

/-- `\d` for each zero, the other characters as they are. -/
def shape (L : Language) (s : String) : Pattern.Item Char :=
  .fixed (s.toList.map fun c => if c = '0' then L.isDecimal else (· = c))

def exactly (t : Text) : Pattern.Item Char := .fixed (t.map fun c => (· = c))

/-- `_KEY_PATTERNS` -/
def keyPattern (L : Language) : PeriodKind → Pattern.Item Char
  | .day => shape L "0000-00-00"
  | .week => shape L "0000-W00"
  | .month => shape L "0000-00"
  | .year => shape L "0000"

/-- `_FIELD_PATTERNS`, with the pattern of the key -/
def fieldPattern (L : Language) (grain : PeriodKind) (name : Text) : Option (Pattern.Item Char) :=
  if name = "date".toList then some (shape L "0000-00-00")
  else if name = "key".toList then some (keyPattern L grain)
  else if name = "year".toList then some (shape L "0000")
  else if name = "month".toList then some (shape L "00")
  else if name = "ordinal".toList then some .run
  else none

/-- A part of a pattern, with the name of its group. -/
structure Part where
  group : Option Text
  item : Pattern.Item Char

/-- The literal text of a piece, and the group of its placeholder. -/
def pieceParts (group : Text → Option Part) (p : Piece) : Option (List Part) :=
  match p.field with
  | none => some [⟨none, exactly p.literal⟩]
  | some field => (group field.name).map fun part => [⟨none, exactly p.literal⟩, part]

/-- `pattern_for(template)` -/
def templateParts (group : Text → Option Part) (template : Text) : Option (List Part) := do
  let pieces ← parse template
  let parts ← pieces.mapM (pieceParts group)
  some parts.flatten

/-- `$` also matches before a newline at the end. -/
def atEnd (s : Text) : Bool := s = [] ∨ s = ['\n']

/-- `pattern.match(text)`: the texts of the parts -/
def matchParts (L : Language) (parts : List Part) (text : Text) : Option (List Text) :=
  Pattern.split L.isDecimal atEnd (parts.map (·.item)) text

/-- `zip(groups, m.groups())` -/
def groups (parts : List Part) (texts : List Text) : List (Text × Text) :=
  (parts.zip texts).filterMap fun x => x.1.group.map fun name => (name, x.2)

/-- The last text of a name counts. -/
def captured (pairs : List (Text × Text)) (name : String) : Option Text := pairs.reverse.lookup name.toList

/-! ## rendering -/

namespace CollectionDefinition

def path (pair : Text × Text) : Text := pair.1 ++ '/' :: pair.2

variable (L : Language) (D : CollectionDefinition)

/-- `_placeholder_values`, and the ordinal -/
def values (when : Date) (ordinal : ℕ) : Option Values := do
  let period ← Period.containing when D.grain
  let month ← match D.grain with
    | .week => (monthOfWeek period).map fun month => some (month.key.drop 5)
    | .year => some none
    | .day | .month => some (some (pad 2 when.month))
  some ⟨when.isoformat, period.key, period.key.take 4, month, ordinal⟩

def render (when : Date) (ordinal : Option ℕ) : Option (Text × Text) := do
  let values ← D.values when (ordinal.getD 1)
  let folder ← format L values D.folder
  let title ← format L values D.title
  some (folder, title)

/-- The ordinals are groups, the other values of the date are themselves. -/
def siblingPart (values : Values) (name : Text) : Option Part :=
  if name = "ordinal".toList then some ⟨some name, .run⟩
  else (values.get name).map fun value => ⟨none, exactly value⟩

def siblingPattern (when : Date) : Option (List Part) := do
  let values ← D.values when 1
  let folder ← templateParts (siblingPart values) D.folder
  let title ← templateParts (siblingPart values) D.title
  some (folder ++ ⟨none, exactly ['/']⟩ :: title)

def matchPart (name : Text) : Option Part := (fieldPattern L D.grain name).map fun item => ⟨some name, item⟩

/-- `_match_pattern_for` -/
def matchPattern : Option (List Part) := do
  let folder ← templateParts (D.matchPart L) D.folder
  let title ← templateParts (D.matchPart L) D.title
  some (folder ++ ⟨none, exactly ['/']⟩ :: title)

/-- `_recover_when`: `none` is the `ValueError` of what is no date. -/
def recoverWhen (captured : String → Option Text) : Option (Option Date) :=
  match captured "date" with
  | some text => (fromisoformat text).map some
  | none =>
    match captured "key" with
    | some key => (Period.make D.grain key).map fun period => some period.start
    | none =>
      match captured "year" with
      | some year =>
        if D.grain = .week then some none
        else (date (L.int year) (((captured "month").map L.int).getD 1) 1).map some
      | none => some none

/-! ## sampling -/

def sampleHorizonYears : ℕ := 5
def maxOrdinal : ℕ := 20

/-- The ordinals that are sampled. -/
def ordinals : List (Option ℕ) :=
  match D.cardinality with
  | .one => [none]
  | .many => (List.range' 1 maxOrdinal).map some

/-- The periods from one on to `stop`. -/
def visit (stop : Period) : ℕ → Period → Option (List Period)
  | 0, _ => none
  | fuel + 1, period =>
    if period = stop then some [period] else do
      let next ← period.next
      let rest ← visit stop fuel next
      some (period :: rest)

/-- The periods of the window: at most eleven years of days. -/
def window (today : Date) : Option (List Period) := do
  let first ← date (today.year - sampleHorizonYears) 1 1
  let last ← date (today.year + sampleHorizonYears) 12 31
  let start ← Period.containing first D.grain
  let stop ← Period.containing last D.grain
  visit stop 4100 start

def renderSet (today : Date) : Option (List (Text × Text)) := do
  let periods ← D.window today
  let rendered ← periods.mapM fun period => D.ordinals.mapM fun ordinal => D.render L period.start ordinal
  some rendered.flatten

/-! ## membership -/

/-- `none`: it raises. -/
def matchesNote (today : Date) (folder title : Text) : Option Bool := do
  let parts ← D.matchPattern L
  match matchParts L parts (path (folder, title)) with
  | none => some false
  | some texts =>
    let captured := captured (groups parts texts)
    match D.recoverWhen L captured with
    | none => some false
    | some none => do
      let rendered ← D.renderSet L today
      some ((folder, title) ∈ rendered)
    | some (some when) => do
      let rendered ← D.render L when ((captured "ordinal").map L.int)
      some (rendered = (folder, title))

end CollectionDefinition

/-! ## what is accepted -/

inductive DefinitionError where
  | name
  | notMapping (name : Text)
  | fields (missing unknown : List Yaml)
  | grain
  | cardinality
  | notStrings
  | description
  | template
  | unknownPlaceholders (names : List Text)
  /-- `month` is not defined for year grain. -/
  | month
  /-- The ordinal requires cardinality `many`. -/
  | ordinal
  /-- Cardinality `many` requires the ordinal. -/
  | noOrdinal
  | invalidPath
  | illegalPath
  | illegalFilename
  /-- Formatting raises. -/
  | unformatted

def requiredFields : List String := ["grain", "cardinality", "folder", "title"]

def optionalFields : List String := ["description"]

def placeholders : List Text := ["date", "key", "year", "month", "ordinal"].map String.toList

def PeriodKind.parse : Yaml → Option PeriodKind
  | .str t =>
    if t = "day".toList then some .day
    else if t = "week".toList then some .week
    else if t = "month".toList then some .month
    else if t = "year".toList then some .year
    else none
  | _ => none

def Cardinality.parse : Yaml → Option Cardinality
  | .str t => if t = "one".toList then some .one else if t = "many".toList then some .many else none
  | _ => none

def isNamed (name : String) : Yaml × Yaml → Bool
  | (.str t, _) => t = name.toList
  | _ => false

/-- `values[name]` -/
def lookup (entries : List (Yaml × Yaml)) (name : String) : Option Yaml := (entries.find? (isNamed name)).map (·.2)

def check (p : Bool) (e : DefinitionError) : Except DefinitionError Unit := if p then .error e else .ok ()

def orError {α : Type} (e : DefinitionError) : Option α → Except DefinitionError α
  | some a => .ok a
  | none => .error e

/-- `_validate_rendered_path` -/
def validateRenderedPath (L : Language) (D : CollectionDefinition) : Except DefinitionError Unit := do
  let anchor ← orError .unformatted (date 2026 1 1)
  let rendered ← orError .unformatted (D.render L anchor (some 1))
  check (rendered.1 = [] ∨ rendered.1.head? = some '/' ∨ '\\' ∈ rendered.1 ∨
    (split '/' rendered.1).any fun part => part ∈ [[], ['.'], ['.', '.']]) .invalidPath
  check (normalizeFolder rendered.1 ≠ some rendered.1) .illegalPath
  check (rendered.2 = [] ∨ titleToWindowsFilename rendered.2 ≠ rendered.2) .illegalFilename

/-- The checks of a definition whose fields have been read. -/
def CollectionDefinition.validate (L : Language) (D : CollectionDefinition) : Except DefinitionError Unit := do
  let folderFields ← orError .template (templateFields D.folder)
  let titleFields ← orError .template (templateFields D.title)
  let fields := folderFields ++ titleFields
  check (fields.any (· ∉ placeholders)) (.unknownPlaceholders (fields.filter (· ∉ placeholders)))
  check (D.grain = .year ∧ "month".toList ∈ fields) .month
  check (D.cardinality = .one ∧ "ordinal".toList ∈ fields) .ordinal
  check (D.cardinality = .many ∧ "ordinal".toList ∉ fields) .noOrdinal
  validateRenderedPath L D

/-- `_parse_definition` -/
def parseDefinition (L : Language) (name raw : Yaml) : Except DefinitionError CollectionDefinition := do
  let name ← (match name with
    | .str t => if strip t = [] then .error .name else .ok t
    | _ => .error .name : Except DefinitionError Text)
  let entries ← (match raw with
    | .map entries => .ok entries
    | _ => .error (.notMapping name) : Except DefinitionError (List (Yaml × Yaml)))
  let unknown := (entries.filter fun e => (requiredFields ++ optionalFields).all fun f => !isNamed f e).map (·.1)
  let missing := (requiredFields.filter fun f => (lookup entries f).isNone).map fun f => Yaml.str f.toList
  check (!unknown.isEmpty || !missing.isEmpty) (.fields missing unknown)
  let grain ← orError .grain ((lookup entries "grain").bind PeriodKind.parse)
  let cardinality ← orError .cardinality ((lookup entries "cardinality").bind Cardinality.parse)
  let (folder, title) ← (match lookup entries "folder", lookup entries "title" with
    | some (.str folder), some (.str title) => .ok (folder, title)
    | _, _ => .error .notStrings : Except DefinitionError (Text × Text))
  let description ← (match lookup entries "description" with
    | none | some .null => .ok none
    | some (.str t) => if strip t = [] then .error .description else .ok (some t)
    | some _ => .error .description : Except DefinitionError (Option Text))
  let definition : CollectionDefinition := ⟨strip name, grain, cardinality, folder, title, description⟩
  definition.validate L
  .ok definition

/-- A definition that `_parse_definition` returns. -/
def Accepted (L : Language) (D : CollectionDefinition) : Prop := ∃ name raw, parseDefinition L name raw = .ok D

end Kajet.Collections
