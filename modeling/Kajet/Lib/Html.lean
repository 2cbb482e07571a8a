import Kajet.Lib.Str

/-!
# Markup with escaped values

* `escape`, `unescape`   the five characters that have a meaning in markup, and their references;
* `Token`, `read`        tags with quoted attributes and the text between them, as a parser reads them one character
                         after the other;
* `Token.print`          how they are written; `read_start`, `read_end`, `read_text`: what is written is read back,
                         whatever the values are.
-/

namespace Kajet.Html
open Str

/-! ## references -/

/-- One pass instead of five replacements: only the first of these writes an ampersand, and it comes first. -/
def escapeChar (c : Char) : Text :=
  if c = '&' then "&amp;".toList
  else if c = '<' then "&lt;".toList
  else if c = '>' then "&gt;".toList
  else if c = '"' then "&quot;".toList
  else if c = '\'' then "&#x27;".toList
  else [c]

def escape (s : Text) : Text := s.flatMap escapeChar

def unescape : Text → Text
  | '&' :: 'a' :: 'm' :: 'p' :: ';' :: s => '&' :: unescape s
  | '&' :: 'l' :: 't' :: ';' :: s => '<' :: unescape s
  | '&' :: 'g' :: 't' :: ';' :: s => '>' :: unescape s
  | '&' :: 'q' :: 'u' :: 'o' :: 't' :: ';' :: s => '"' :: unescape s
  | '&' :: '#' :: 'x' :: '2' :: '7' :: ';' :: s => '\'' :: unescape s
  | c :: s => c :: unescape s
  | [] => []

theorem unescape_cons {c : Char} (hc : c ≠ '&') (s : Text) : unescape (c :: s) = c :: unescape s := by
  rw [unescape] <;> (rintro _ rfl; exact absurd rfl hc)

theorem escape_cons (c : Char) (s : Text) : escape (c :: s) = escapeChar c ++ escape s := List.flatMap_cons

theorem unescape_escapeChar (c : Char) (s : Text) : unescape (escapeChar c ++ s) = c :: unescape s := by
  unfold escapeChar
  split_ifs with h₁ h₂ h₃ h₄ h₅
  · rw [h₁]; rfl
  · rw [h₂]; rfl
  · rw [h₃]; rfl
  · rw [h₄]; rfl
  · rw [h₅]; rfl
  · exact unescape_cons h₁ s

theorem unescape_escape (s : Text) : unescape (escape s) = s := by
  induction s with
  | nil => rfl
  | cons c s ih => rw [escape_cons, unescape_escapeChar, ih]

/-- What is escaped neither opens a tag nor closes a value. -/
theorem notMem_escape {x : Char} (hx : x = '<' ∨ x = '>' ∨ x = '"' ∨ x = '\'') (s : Text) : x ∉ escape s := by
  intro hmem
  obtain ⟨c, _, hc⟩ := List.mem_flatMap.mp hmem
  unfold escapeChar at hc
  split_ifs at hc with h₁ h₂ h₃ h₄ h₅
  · revert hc; rcases hx with rfl | rfl | rfl | rfl <;> decide
  · revert hc; rcases hx with rfl | rfl | rfl | rfl <;> decide
  · revert hc; rcases hx with rfl | rfl | rfl | rfl <;> decide
  · revert hc; rcases hx with rfl | rfl | rfl | rfl <;> decide
  · revert hc; rcases hx with rfl | rfl | rfl | rfl <;> decide
  · obtain rfl := List.mem_singleton.mp hc
    rcases hx with h | h | h | h
    · exact h₂ h
    · exact h₃ h
    · exact h₄ h
    · exact h₅ h

theorem escape_eq_nil {s : Text} : escape s = [] ↔ s = [] := by
  constructor
  · intro h
    rw [← unescape_escape s, h]
    rfl
  · rintro rfl
    rfl

/-! ## tags and text -/

inductive Token where
  | start (name : Text) (attributes : List (Text × Text))
  | stop (name : Text)
  | text (s : Text)
deriving DecidableEq

/-- Where a parser stands. -/
inductive Mode where
  | data (seen : Text)
  | opened
  | name (seen : Text)
  | closing (seen : Text)
  | between (name : Text) (attributes : List (Text × Text))
  | key (name : Text) (attributes : List (Text × Text)) (seen : Text)
  | equals (name : Text) (attributes : List (Text × Text)) (key : Text)
  | value (name : Text) (attributes : List (Text × Text)) (key seen : Text)

def textOf (s : Text) : List Token := if s = [] then [] else [.text s]

/-- A text ends within no tag. -/
def read : Mode → Text → Option (List Token)
  | .data seen, [] => some (textOf (unescape seen))
  | _, [] => none
  | .data seen, c :: s =>
    if c = '<' then (read .opened s).map (textOf (unescape seen) ++ ·) else read (.data (seen ++ [c])) s
  | .opened, c :: s => if c = '/' then read (.closing []) s else if c.isAlpha then read (.name [c]) s else none
  | .name seen, c :: s =>
    if c = '>' then (read (.data []) s).map (.start seen [] :: ·)
    else if c = ' ' then read (.between seen []) s
    else read (.name (seen ++ [c])) s
  | .closing seen, c :: s =>
    if c = '>' then (read (.data []) s).map (.stop seen :: ·) else read (.closing (seen ++ [c])) s
  | .between name attributes, c :: s =>
    if c = '>' then (read (.data []) s).map (.start name attributes :: ·)
    else if c = ' ' then read (.between name attributes) s
    else read (.key name attributes [c]) s
  | .key name attributes seen, c :: s =>
    if c = '=' then read (.equals name attributes seen) s else read (.key name attributes (seen ++ [c])) s
  | .equals name attributes key, c :: s =>
    if c = '"' then read (.value name attributes key []) s else none
  | .value name attributes key seen, c :: s =>
    if c = '"' then read (.between name (attributes ++ [(key, unescape seen)])) s
    else read (.value name attributes key (seen ++ [c])) s

section
variable {c : Char} {s name key seen : Text} {attributes : List (Text × Text)}

theorem data_cons : read (.data seen) (c :: s) =
    if c = '<' then (read .opened s).map (textOf (unescape seen) ++ ·) else read (.data (seen ++ [c])) s := rfl

theorem opened_cons : read .opened (c :: s) =
    if c = '/' then read (.closing []) s else if c.isAlpha then read (.name [c]) s else none := rfl

theorem name_cons : read (.name seen) (c :: s) =
    if c = '>' then (read (.data []) s).map (.start seen [] :: ·)
    else if c = ' ' then read (.between seen []) s
    else read (.name (seen ++ [c])) s := rfl

theorem closing_cons : read (.closing seen) (c :: s) =
    if c = '>' then (read (.data []) s).map (.stop seen :: ·) else read (.closing (seen ++ [c])) s := rfl

theorem between_cons : read (.between name attributes) (c :: s) =
    if c = '>' then (read (.data []) s).map (.start name attributes :: ·)
    else if c = ' ' then read (.between name attributes) s
    else read (.key name attributes [c]) s := rfl

theorem key_cons : read (.key name attributes seen) (c :: s) =
    if c = '=' then read (.equals name attributes seen) s else read (.key name attributes (seen ++ [c])) s := rfl

theorem equals_cons : read (.equals name attributes key) (c :: s) =
    if c = '"' then read (.value name attributes key []) s else none := rfl

theorem value_cons : read (.value name attributes key seen) (c :: s) =
    if c = '"' then read (.between name (attributes ++ [(key, unescape seen)])) s
    else read (.value name attributes key (seen ++ [c])) s := rfl

end

def attributeText (a : Text × Text) : Text := ' ' :: a.1 ++ ('=' :: '"' :: escape a.2 ++ ['"'])

def Token.print : Token → Text
  | .start name attributes => '<' :: name ++ (attributes.flatMap attributeText ++ ['>'])
  | .stop name => '<' :: '/' :: name ++ ['>']
  | .text s => escape s

/-- A name of letters. -/
def IsName (name : Text) : Prop := name ≠ [] ∧ ∀ c ∈ name, c.isAlpha = true

instance (name : Text) : Decidable (IsName name) := inferInstanceAs (Decidable (_ ∧ _))

section
variable {name key seen x s : Text} {attributes : List (Text × Text)}

theorem ne_of_isAlpha {c d : Char} (hc : c.isAlpha = true) (hd : d.isAlpha = false) : c ≠ d := by
  rintro rfl
  rw [hc] at hd
  cases hd

theorem read_data (hx : ∀ c ∈ x, c ≠ '<') : read (.data seen) (x ++ s) = read (.data (seen ++ x)) s := by
  induction x generalizing seen with
  | nil => rw [List.nil_append, List.append_nil]
  | cons c x ih =>
    rw [List.cons_append, data_cons, if_neg (hx c List.mem_cons_self), ih fun d hd => hx d (List.mem_cons_of_mem _ hd),
      List.append_assoc, List.singleton_append]

theorem read_name (hx : ∀ c ∈ x, c.isAlpha = true) : read (.name seen) (x ++ s) = read (.name (seen ++ x)) s := by
  induction x generalizing seen with
  | nil => rw [List.nil_append, List.append_nil]
  | cons c x ih =>
    have hc := hx c List.mem_cons_self
    rw [List.cons_append, name_cons, if_neg (ne_of_isAlpha hc rfl), if_neg (ne_of_isAlpha hc rfl),
      ih fun d hd => hx d (List.mem_cons_of_mem _ hd), List.append_assoc, List.singleton_append]

theorem read_closing (hx : ∀ c ∈ x, c.isAlpha = true) :
    read (.closing seen) (x ++ s) = read (.closing (seen ++ x)) s := by
  induction x generalizing seen with
  | nil => rw [List.nil_append, List.append_nil]
  | cons c x ih =>
    rw [List.cons_append, closing_cons, if_neg (ne_of_isAlpha (hx c List.mem_cons_self) rfl),
      ih fun d hd => hx d (List.mem_cons_of_mem _ hd), List.append_assoc, List.singleton_append]

theorem read_key (hx : ∀ c ∈ x, c.isAlpha = true) :
    read (.key name attributes seen) (x ++ s) = read (.key name attributes (seen ++ x)) s := by
  induction x generalizing seen with
  | nil => rw [List.nil_append, List.append_nil]
  | cons c x ih =>
    rw [List.cons_append, key_cons, if_neg (ne_of_isAlpha (hx c List.mem_cons_self) rfl),
      ih fun d hd => hx d (List.mem_cons_of_mem _ hd), List.append_assoc, List.singleton_append]

theorem read_value (hx : ∀ c ∈ x, c ≠ '"') :
    read (.value name attributes key seen) (x ++ s) = read (.value name attributes key (seen ++ x)) s := by
  induction x generalizing seen with
  | nil => rw [List.nil_append, List.append_nil]
  | cons c x ih =>
    rw [List.cons_append, value_cons, if_neg (hx c List.mem_cons_self), ih fun d hd => hx d (List.mem_cons_of_mem _ hd),
      List.append_assoc, List.singleton_append]

theorem print_start_two (name k n key value : Text) : (Token.start name [(k, n), (key, value)]).print =
    ('<' :: name ++ (' ' :: k ++ ('=' :: '"' :: escape n ++ ('"' :: ' ' :: key ++ ['=', '"'])))) ++
      (escape value ++ ['"', '>']) := by
  simp [Token.print, attributeText]

/-! ## what is written is read -/

theorem read_attributeText {a : Text × Text} (ha : IsName a.1) :
    read (.between name attributes) (attributeText a ++ s) = read (.between name (attributes ++ [a])) s := by
  obtain ⟨attr, value⟩ := a
  obtain ⟨hne, halpha⟩ := ha
  obtain ⟨c, rest, rfl⟩ := List.exists_cons_of_ne_nil hne
  have hc : c.isAlpha = true := halpha c List.mem_cons_self
  have hvalue : ∀ d ∈ escape value, d ≠ '"' := fun d hd heq => notMem_escape (.inr (.inr (.inl rfl))) value (heq ▸ hd)
  show read (.between name attributes) (' ' :: c :: (rest ++ ('=' :: '"' :: escape value ++ ['"'])) ++ s) = _
  rw [List.cons_append, List.cons_append, between_cons, if_neg (by decide), if_pos rfl, between_cons,
    if_neg (ne_of_isAlpha hc rfl), if_neg (ne_of_isAlpha hc rfl), List.append_assoc, read_key fun d hd => halpha d (List.mem_cons_of_mem _ hd)]
  show read (.key name attributes (c :: rest)) ('=' :: '"' :: (escape value ++ ['"'] ++ s)) = _
  rw [key_cons, if_pos rfl, equals_cons, if_pos rfl, List.append_assoc, read_value hvalue]
  show read (.value name attributes (c :: rest) (escape value)) ('"' :: s) = _
  rw [value_cons, if_pos rfl, unescape_escape]

theorem read_attributes {more : List (Text × Text)} (hmore : ∀ a ∈ more, IsName a.1) :
    read (.between name attributes) (more.flatMap attributeText ++ s) = read (.between name (attributes ++ more)) s := by
  induction more generalizing attributes with
  | nil => rw [List.flatMap_nil, List.nil_append, List.append_nil]
  | cons a more ih =>
    rw [List.flatMap_cons, List.append_assoc, read_attributeText (hmore a List.mem_cons_self),
      ih fun b hb => hmore b (List.mem_cons_of_mem _ hb), List.append_assoc, List.singleton_append]

theorem read_start (hname : IsName name) (hattributes : ∀ a ∈ attributes, IsName a.1) :
    read (.data seen) ((Token.start name attributes).print ++ s) =
      (read (.data []) s).map fun rest => textOf (unescape seen) ++ .start name attributes :: rest := by
  obtain ⟨hne, halpha⟩ := hname
  obtain ⟨c, rest, rfl⟩ := List.exists_cons_of_ne_nil hne
  have hc : c.isAlpha = true := halpha c List.mem_cons_self
  have hbody : read (.name (c :: rest)) (attributes.flatMap attributeText ++ ('>' :: s)) =
      (read (.data []) s).map (.start (c :: rest) attributes :: ·) := by
    cases attributes with
    | nil =>
      show read (.name (c :: rest)) ('>' :: s) = _
      rw [name_cons, if_pos rfl]
    | cons a more =>
      -- the blank before the first attribute ends the name
      have hblank : read (.name (c :: rest)) ((a :: more).flatMap attributeText ++ ('>' :: s)) =
          read (.between (c :: rest) []) ((a :: more).flatMap attributeText ++ ('>' :: s)) := by
        show read (.name (c :: rest)) (' ' :: _) = read (.between (c :: rest) []) (' ' :: _)
        rw [name_cons, if_neg (by decide), if_pos rfl, between_cons, if_neg (by decide), if_pos rfl]
      rw [hblank, read_attributes hattributes, List.nil_append, between_cons, if_pos rfl]
  show read (.data seen) ('<' :: c :: (rest ++ (attributes.flatMap attributeText ++ ['>'])) ++ s) = _
  rw [List.cons_append, List.cons_append, data_cons, if_pos rfl, opened_cons, if_neg (ne_of_isAlpha hc rfl), if_pos hc,
    List.append_assoc, read_name fun d hd => halpha d (List.mem_cons_of_mem _ hd), List.append_assoc]
  show (read (.name (c :: rest)) (attributes.flatMap attributeText ++ ('>' :: s))).map _ = _
  rw [hbody, Option.map_map]
  rfl

theorem read_stop (hname : IsName name) :
    read (.data seen) ((Token.stop name).print ++ s) =
      (read (.data []) s).map fun rest => textOf (unescape seen) ++ .stop name :: rest := by
  show read (.data seen) ('<' :: '/' :: (name ++ ['>']) ++ s) = _
  rw [List.cons_append, List.cons_append, data_cons, if_pos rfl, opened_cons, if_pos rfl, List.append_assoc,
    read_closing hname.2]
  show (read (.closing name) ('>' :: s)).map _ = _
  rw [closing_cons, if_pos rfl, Option.map_map]
  rfl

theorem read_text : read (.data []) ((Token.text x).print ++ s) = read (.data (escape x)) s := by
  show read (.data []) (escape x ++ s) = _
  rw [read_data fun c hc heq => notMem_escape (.inl rfl) x (heq ▸ hc), List.nil_append]

end
end Kajet.Html
