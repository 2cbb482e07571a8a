import Kajet.Collections.Period
import Kajet.Lib.Fallible
import Mathlib.Data.List.Forall2

/-!
# Templates

`str.format` and `Formatter().parse` read a template with the same parser.  What one placeholder writes
(its conversion, its format spec with nested placeholders) is a parameter; without conversion and spec it
is the text of the value.

* `Piece`, `parse`      literal text, and the placeholder after it;
* `Values`, `Language`  the values of the placeholders, and what the language does with them;
* `format`              the text that a template writes;
* `format_congr`        which depends on what its placeholders write only.
-/

namespace Kajet.Collections
open Str Fallible

/-! ## the parser -/

structure Field where
  name : Text
  conversion : Option Char
  spec : Text
deriving DecidableEq

structure Piece where
  literal : Text
  field : Option Field
deriving DecidableEq

/-- The name, the character that ends it, and the rest; brackets hide everything up to `]`. -/
def fieldName : Bool → Text → Option (Text × Char × Text)
  | _, [] => none
  | true, c :: s => (fieldName (c ≠ ']') s).map fun r => (c :: r.1, r.2)
  | false, c :: s =>
    if c = '{' then none
    else if c ∈ ['}', ':', '!'] then some ([], c, s)
    else (fieldName (c = '[') s).map fun r => (c :: r.1, r.2)

/-- The format spec, up to the brace that closes `depth` nested ones and the placeholder. -/
def formatSpec : ℕ → Text → Option (Text × Text)
  | _, [] => none
  | 0, '}' :: s => some ([], s)
  | depth + 1, '}' :: s => (formatSpec depth s).map fun r => ('}' :: r.1, r.2)
  | depth, '{' :: s => (formatSpec (depth + 1) s).map fun r => ('{' :: r.1, r.2)
  | depth, c :: s => (formatSpec depth s).map fun r => (c :: r.1, r.2)

def parseField (s : Text) : Option (Field × Text) :=
  match fieldName false s with
  | some (name, '}', rest) => some (⟨name, none, []⟩, rest)
  | some (name, ':', rest) => (formatSpec 0 rest).map fun r => (⟨name, none, r.1⟩, r.2)
  | some (name, '!', conversion :: '}' :: rest) => some (⟨name, some conversion, []⟩, rest)
  | some (name, '!', conversion :: ':' :: rest) => (formatSpec 0 rest).map fun r => (⟨name, some conversion, r.1⟩, r.2)
  | _ => none

def isBrace (c : Char) : Bool := c = '{' ∨ c = '}'

/-- `MarkupIterator_next`: a doubled brace ends the literal text, a single one raises. -/
def nextPiece (s : Text) : Option (Piece × Text) :=
  let literal := s.takeWhile fun c => !isBrace c
  match s.dropWhile fun c => !isBrace c with
  | [] => some (⟨literal, none⟩, [])
  | '{' :: '{' :: rest => some (⟨literal ++ ['{'], none⟩, rest)
  | '}' :: '}' :: rest => some (⟨literal ++ ['}'], none⟩, rest)
  | '{' :: rest => (parseField rest).map fun r => (⟨literal, some r.1⟩, r.2)
  | _ => none

/-- `fuel`: each piece takes a character. -/
def parsePieces : ℕ → Text → Option (List Piece)
  | _, [] => some []
  | 0, _ => none
  | fuel + 1, s => do
    let r ← nextPiece s
    let rest ← parsePieces fuel r.2
    some (r.1 :: rest)

/-- `Formatter().parse(template)` -/
def parse (template : Text) : Option (List Piece) := parsePieces template.length template

example : (parse "a\x7b\x7b{date!r:>{month}}b".toList) =
    some [⟨"a\x7b".toList, none⟩, ⟨[], some ⟨"date".toList, some 'r', ">{month}".toList⟩⟩, ⟨"b".toList, none⟩] := by
  decide +kernel

/-- `_template_fields` -/
def templateFields (template : Text) : Option (List Text) :=
  (parse template).map fun pieces => pieces.filterMap fun p => p.field.map (·.name)

/-! ## values -/

/-- `str(n)` -/
def str (n : ℕ) : Text := Nat.toDigits 10 n

structure Values where
  date : Text
  key : Text
  year : Text
  month : Option Text
  ordinal : ℕ

/-- The text of the value of a name. -/
def Values.get (v : Values) (name : Text) : Option Text :=
  if name = "date".toList then some v.date
  else if name = "key".toList then some v.key
  else if name = "year".toList then some v.year
  else if name = "month".toList then v.month
  else if name = "ordinal".toList then some (str v.ordinal)
  else none

structure Language where
  /-- What a placeholder writes; `none`: it raises. -/
  write : Values → Field → Option Text
  /-- The value of a decimal digit, ASCII or not. -/
  decimal : Char → Option ℕ
  plain : ∀ (v : Values) name value, v.get name = some value → write v ⟨name, none, []⟩ = some value
  ascii : ∀ c : Char, c.toNat < 128 → decimal c = if c.isDigit then some (c.toNat - '0'.toNat) else none

section
variable (L : Language)

def writePiece (v : Values) (p : Piece) : Option Text :=
  match p.field with
  | none => some p.literal
  | some field => (L.write v field).map (p.literal ++ ·)

/-- `template.format(**values)` -/
def format (v : Values) (template : Text) : Option Text := do
  let pieces ← parse template
  let texts ← pieces.mapM (writePiece L v)
  some texts.flatten

/-- `\d` -/
def Language.isDecimal (c : Char) : Bool := (L.decimal c).isSome

/-- `int` of decimal digits -/
def Language.int (t : Text) : ℕ := t.foldl (fun n c => 10 * n + (L.decimal c).getD 0) 0

end

/-! ## the pieces of a template -/

/-- The placeholders of a template. -/
def fieldsOf (pieces : List Piece) : List Field := pieces.filterMap (·.field)

variable {L : Language} {v v' : Values} {template text : Text} {pieces : List Piece}

theorem format_eq_some : format L v template = some text ↔ ∃ pieces texts, parse template = some pieces ∧
    List.Forall₂ (fun p t => writePiece L v p = some t) pieces texts ∧ texts.flatten = text := by
  unfold format
  constructor
  · intro h
    obtain ⟨pieces, hpieces, h⟩ := Option.bind_eq_some_iff.mp h
    obtain ⟨texts, htexts, h⟩ := Option.bind_eq_some_iff.mp h
    exact ⟨pieces, texts, hpieces, mapM_eq_some.mp htexts, Option.some.inj h⟩
  · rintro ⟨pieces, texts, hpieces, htexts, rfl⟩
    rw [hpieces, Option.bind_eq_bind, Option.bind_some, mapM_eq_some.mpr htexts]
    rfl

/-- A template writes the same when its placeholders do. -/
theorem format_congr (hpieces : parse template = some pieces)
    (h : ∀ field ∈ fieldsOf pieces, L.write v' field = L.write v field) : format L v' template = format L v template := by
  have hpiece : ∀ p ∈ pieces, writePiece L v' p = writePiece L v p := by
    intro p hp
    unfold writePiece
    split
    · rfl
    · rename_i field hfield
      rw [h field (List.mem_filterMap.mpr ⟨p, hp, hfield⟩)]
  rw [format, format, hpieces, Option.bind_eq_bind, Option.bind_some, Option.bind_eq_bind, Option.bind_some,
    mapM_congr hpiece]

end Kajet.Collections
