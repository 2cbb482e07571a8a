import Kajet.Lib.Occurrence
import Kajet.Markdown.Sections

/-!
# The sections of a note's body

* `Section`, `parseSections`   one section for each top-level heading, up to the next heading of its level or above;
* `findSectionByHeading`       the section with a heading's text;
* `spliceBlock`                a block between two parts of the body, on lines of its own;
* `appendContent`, `prependContent`, `replaceSection`.
-/

namespace Kajet.Edit
open Str Markdown

inductive EditMode where
  | overwrite | append | prepend | replaceSection | replaceText | insertAfter | deleteText
deriving DecidableEq

inductive Param where
  | content | oldStr | newStr | targetHeading
deriving DecidableEq

inductive EditError where
  | headingNotFound (available : List Text)
  | headingAmbiguous (matched : ℕ)
  | anchorNotFound
  | anchorAmbiguous (message : Text)
  /-- `replace_all` in a mode that has no such thing -/
  | notAll (mode : EditMode)
  | foreign (mode : EditMode) (param : Param)
  | required (mode : EditMode) (param : Param)
  /-- the parser's tokens are not as it makes them -/
  | tokens
deriving DecidableEq

def EditMode.text : EditMode → String
  | .overwrite => "overwrite"
  | .append => "append"
  | .prepend => "prepend"
  | .replaceSection => "replace_section"
  | .replaceText => "replace_text"
  | .insertAfter => "insert_after"
  | .deleteText => "delete_text"

def Param.text : Param → String
  | .content => "content"
  | .oldStr => "old_str"
  | .newStr => "new_str"
  | .targetHeading => "target_heading"

/-- `_ACCEPTS` -/
def EditMode.accepts : EditMode → List Param
  | .overwrite => [.content]
  | .append | .prepend | .replaceSection => [.content, .targetHeading]
  | .replaceText | .insertAfter => [.oldStr, .newStr]
  | .deleteText => [.oldStr]

/-- `str(n)` -/
def decimal (n : ℕ) : Text := Nat.toDigits 10 n

def EditError.message : EditError → Text
  | .headingNotFound available => "Heading not found. Available: ".toList ++ List.intercalate ", ".toList available
  | .headingAmbiguous matched => "Heading is ambiguous: ".toList ++ decimal matched ++ " matches.".toList
  | .anchorNotFound => "old_str not found in the note body.".toList
  | .anchorAmbiguous message => message
  | .notAll mode => "replace_all only applies to 'replace_text' and 'delete_text', not '".toList ++ mode.text.toList ++
      "'.".toList
  | .foreign mode param => "Mode '".toList ++ mode.text.toList ++ "' does not take ".toList ++ param.text.toList ++
      "; it takes ".toList ++ List.intercalate " and ".toList (mode.accepts.map (·.text.toList)) ++ ".".toList
  | .required mode param => "Mode '".toList ++ mode.text.toList ++ "' requires ".toList ++ param.text.toList ++
      ".".toList
  | .tokens => []

/-! ## sections -/

structure Section where
  level : ℕ
  headingText : Text
  headingStart : ℕ
  headingEnd : ℕ
  bodyStart : ℕ
  bodyEnd : ℕ
  headingLine : ℕ
deriving DecidableEq

/-- Where a line begins; a line that the text does not have is at its end. -/
def lineOffset (markdown : Text) (line : ℕ) : ℕ := (lineOffsets markdown)[line]?.getD markdown.length

/-- The end of a section: the next heading of its level or above. -/
def bodyEnd (markdown : Text) (level : ℕ) (following : List Heading) : ℕ :=
  ((following.find? fun h => h.level ≤ level).map fun h => lineOffset markdown h.openLine).getD markdown.length

def sectionOf (markdown : Text) (h : Heading) (following : List Heading) : Section :=
  ⟨h.level, h.text, lineOffset markdown h.openLine, lineOffset markdown h.bodyLine, lineOffset markdown h.bodyLine,
    bodyEnd markdown h.level following, h.openLine⟩

def sectionsOf (markdown : Text) : List Heading → List Section
  | [] => []
  | h :: headings => sectionOf markdown h headings :: sectionsOf markdown headings

def parseSections (parse : Text → List Token) (markdown : Text) : Except EditError (List Section) :=
  match iterHeadings true (parse markdown) with
  | none => .error .tokens
  | some headings => .ok (sectionsOf markdown headings)

/-- A heading without its `#` prefix. -/
def bare (heading : Text) : Text := strip (heading.dropWhile (· = '#'))

def findSectionByHeading (sections : List Section) (heading : Text) : Except EditError Section :=
  match sections.filter fun s => strip s.headingText = bare heading with
  | [] => .error (.headingNotFound (sections.map (·.headingText)))
  | [s] => .ok s
  | matched => .error (.headingAmbiguous matched.length)

/-! ## blocks -/

def endsLine (s : Text) : Bool := s.getLast? = some '\n'

def startsLine (s : Text) : Bool := s.head? = some '\n'

def ensureNl (s : Text) : Text := if endsLine s then s else s ++ ['\n']

def spliceBlock (before inserted remainder : Text) : Text :=
  ensureNl (ensureNl before ++ inserted) ++ (if remainder = [] then [] else ['\n']) ++ remainder

/-- `s[a:b]` -/
def slice (s : Text) (a b : ℕ) : Text := (s.take b).drop a

def appendContent (parse : Text → List Token) (body text : Text) (heading : Option Text) : Except EditError Text :=
  match heading with
  | none => .ok (spliceBlock body text [])
  | some heading => do
    let sections ← parseSections parse body
    let sec ← findSectionByHeading sections heading
    let sectionBody := slice body sec.bodyStart sec.bodyEnd
    let contentEnd := sec.bodyStart + (sectionBody.rdropWhile isSpace).length
    .ok (spliceBlock (body.take contentEnd) text (body.drop sec.bodyEnd))

def prependContent (parse : Text → List Token) (body text : Text) (heading : Option Text) : Except EditError Text :=
  match heading with
  | none =>
    let trimmed := body.dropWhile (· = '\n')
    .ok (if trimmed = [] then ensureNl text else ensureNl (ensureNl text ++ trimmed))
  | some heading => do
    let sections ← parseSections parse body
    let sec ← findSectionByHeading sections heading
    .ok (ensureNl (ensureNl (body.take sec.headingEnd) ++ text) ++ body.drop sec.headingEnd)

/-- A text that opens with the same heading loses it. -/
def bodyOnly (heading text : Text) : Text :=
  if '\n' ∈ text then
    let firstLine := (text.takeWhile (· ≠ '\n')).dropWhile isSpace
    if firstLine.head? = some '#' ∧ bare firstLine = bare heading then (text.dropWhile (· ≠ '\n')).tail else text
  else text

def replaceSection (parse : Text → List Token) (body heading text : Text) : Except EditError Text := do
  let sections ← parseSections parse body
  let sec ← findSectionByHeading sections heading
  .ok (spliceBlock (body.take sec.headingEnd) (bodyOnly heading text) (body.drop sec.bodyEnd))

end Kajet.Edit
