import Kajet.Lib.Str

/-!
# The lines of a text and its headings

* `Token`, `iterHeadings`   what is read off a parsed token stream;
* `lineOffsets`             where the lines start;
* `lineNumbers`             the line of every character;
* `lineOffsets_le_iff`      the two count the same lines.
-/

namespace Kajet.Markdown
open Str

/-- A token of the parser; only the fields that are read. -/
structure Token where
  type : String
  tag : Text
  level : ℕ
  /-- the first source line, and the line behind the last -/
  map : Option (ℕ × ℕ)
  content : Text
deriving DecidableEq

structure Heading where
  level : ℕ
  text : Text
  openLine : ℕ
  bodyLine : ℕ
deriving DecidableEq

/-- `int` of one digit. -/
def digit (c : Char) : Option ℕ := if c.isDigit then some (c.toNat - '0'.toNat) else none

/-- One heading for each `heading_open` token that has a `map`; `none` when the tokens are not as the
parser makes them. -/
def iterHeadings (topLevelOnly : Bool) : List Token → Option (List Heading)
  | [] => some []
  | tok :: tokens =>
    match tok.map with
    | none => iterHeadings topLevelOnly tokens
    | some (openLine, bodyLine) =>
      if tok.type ≠ "heading_open" ∨ topLevelOnly ∧ tok.level ≠ 0 then iterHeadings topLevelOnly tokens
      else do
        let inline ← tokens.head?
        let c ← tok.tag[1]?
        let level ← digit c
        let headings ← iterHeadings topLevelOnly tokens
        return ⟨level, strip inline.content, openLine, bodyLine⟩ :: headings

/-! ## lines -/

/-- The ends of the matches of `\r\n?|\n`; the text starts at `pos`. -/
def lineEnds : ℕ → Text → List ℕ
  | _, [] => []
  | pos, '\r' :: '\n' :: s => (pos + 2) :: lineEnds (pos + 2) s
  | pos, c :: s => if c = '\r' ∨ c = '\n' then (pos + 1) :: lineEnds (pos + 1) s else lineEnds (pos + 1) s

/-- Where each line begins, and the end of the text. -/
def lineOffsets (text : Text) : List ℕ :=
  let offsets := 0 :: lineEnds 0 text
  if offsets.getLast? ≠ some text.length then offsets ++ [text.length] else offsets

/-- The line of every character, as markdown-it counts: a line goes up to `\n`, `\r\n` or a lone `\r`. -/
def lineNumbers : ℕ → Text → List ℕ
  | _, [] => []
  | line, '\r' :: '\n' :: s => line :: line :: lineNumbers (line + 1) s
  | line, c :: s => line :: lineNumbers (if c = '\r' ∨ c = '\n' then line + 1 else line) s

def lineAt (text : Text) (i : ℕ) : ℕ := (lineNumbers 0 text).getD i 0

example : lineOffsets "a\r\nb\rc\n".toList = [0, 3, 5, 7] ∧
    lineNumbers 0 "a\r\nb\rc\n".toList = [0, 0, 0, 1, 1, 2, 2] := by decide +kernel

section
variable {s text : Text} {pos line i k k' l o o' : ℕ} {c : Char}

theorem lineEnds_crlf : lineEnds pos ('\r' :: '\n' :: s) = (pos + 2) :: lineEnds (pos + 2) s := rfl

theorem lineNumbers_crlf : lineNumbers line ('\r' :: '\n' :: s) = line :: line :: lineNumbers (line + 1) s := rfl

theorem lineEnds_cons (hne : ∀ r, c = '\r' → s = '\n' :: r → False) :
    lineEnds pos (c :: s) =
      if c = '\r' ∨ c = '\n' then (pos + 1) :: lineEnds (pos + 1) s else lineEnds (pos + 1) s :=
  lineEnds.eq_3 pos c s hne

theorem lineNumbers_cons (hne : ∀ r, c = '\r' → s = '\n' :: r → False) :
    lineNumbers line (c :: s) = line :: lineNumbers (if c = '\r' ∨ c = '\n' then line + 1 else line) s :=
  lineNumbers.eq_3 line c s hne

theorem lineEnds_bounds : ∀ o ∈ lineEnds pos s, pos < o ∧ o ≤ pos + s.length := by
  induction pos, s using lineEnds.induct with
  | case1 pos => exact fun o ho => (nomatch ho)
  | case2 pos s ih =>
    intro o ho
    rw [lineEnds_crlf] at ho
    simp only [List.length_cons]
    rcases List.mem_cons.mp ho with rfl | ho
    · omega
    · have h := ih o ho
      omega
  | case3 pos c s hne hbreak ih =>
    intro o ho
    rw [lineEnds_cons hne, if_pos hbreak] at ho
    simp only [List.length_cons]
    rcases List.mem_cons.mp ho with rfl | ho
    · omega
    · have h := ih o ho
      omega
  | case4 pos c s hne hbreak ih =>
    intro o ho
    rw [lineEnds_cons hne, if_neg hbreak] at ho
    have h := ih o ho
    simp only [List.length_cons]
    omega

theorem lineEnds_sorted : (lineEnds pos s).Pairwise (· < ·) := by
  induction pos, s using lineEnds.induct with
  | case1 pos => exact .nil
  | case2 pos s ih =>
    rw [lineEnds_crlf]
    exact List.pairwise_cons.mpr ⟨fun o ho => (lineEnds_bounds o ho).1, ih⟩
  | case3 pos c s hne hbreak ih =>
    rw [lineEnds_cons hne, if_pos hbreak]
    exact List.pairwise_cons.mpr ⟨fun o ho => (lineEnds_bounds o ho).1, ih⟩
  | case4 pos c s hne hbreak ih =>
    rw [lineEnds_cons hne, if_neg hbreak]
    exact ih

theorem length_lineNumbers : (lineNumbers line s).length = s.length := by
  induction line, s using lineNumbers.induct with
  | case1 line => rfl
  | case2 line s ih =>
    rw [lineNumbers_crlf, List.length_cons, List.length_cons, ih, List.length_cons, List.length_cons]
  | case3 line c s hne ih => rw [lineNumbers_cons hne, List.length_cons, ih, List.length_cons]

theorem lineNumbers_bounds (pos : ℕ) :
    ∀ l ∈ lineNumbers line s, line ≤ l ∧ l ≤ line + (lineEnds pos s).length := by
  induction pos, s using lineEnds.induct generalizing line with
  | case1 pos => exact fun l hl => (nomatch hl)
  | case2 pos s ih =>
    intro l hl
    rw [lineNumbers_crlf] at hl
    rw [lineEnds_crlf, List.length_cons]
    rcases List.mem_cons.mp hl with rfl | hl
    · omega
    rcases List.mem_cons.mp hl with rfl | hl
    · omega
    · have h := ih l hl
      omega
  | case3 pos c s hne hbreak ih =>
    intro l hl
    rw [lineNumbers_cons hne, if_pos hbreak] at hl
    rw [lineEnds_cons hne, if_pos hbreak, List.length_cons]
    rcases List.mem_cons.mp hl with rfl | hl
    · omega
    · have h := ih l hl
      omega
  | case4 pos c s hne hbreak ih =>
    intro l hl
    rw [lineNumbers_cons hne, if_neg hbreak] at hl
    rw [lineEnds_cons hne, if_neg hbreak]
    rcases List.mem_cons.mp hl with rfl | hl
    · omega
    · exact ih l hl

theorem le_of_getElem?_lineEnds (ho : (pos :: lineEnds pos s)[k]? = some o) : pos ≤ o := by
  rcases List.mem_cons.mp (List.mem_of_getElem? ho) with rfl | ho
  · exact le_rfl
  · exact (lineEnds_bounds o ho).1.le

/-- A line starts at or before a character exactly when the character is on it or on a later one. -/
theorem lineEnds_le_iff (ho : (pos :: lineEnds pos s)[k]? = some o) (hl : (lineNumbers line s)[i]? = some l) :
    o ≤ pos + i ↔ line + k ≤ l := by
  have hlow := (lineNumbers_bounds pos l (List.mem_of_getElem? hl)).1
  induction pos, s using lineEnds.induct generalizing line i k with
  | case1 pos => cases hl
  | case2 pos s ih =>
    rw [lineEnds_crlf] at ho
    rw [lineNumbers_crlf] at hl
    cases k with
    | zero =>
      cases ho
      omega
    | succ k =>
      rw [List.getElem?_cons_succ] at ho
      have hpos := le_of_getElem?_lineEnds ho
      match i with
      | 0 =>
        cases hl
        omega
      | 1 =>
        cases hl
        omega
      | i + 2 =>
        rw [List.getElem?_cons_succ, List.getElem?_cons_succ] at hl
        have h := ih ho hl (lineNumbers_bounds pos l (List.mem_of_getElem? hl)).1
        omega
  | case3 pos c s hne hbreak ih =>
    rw [lineEnds_cons hne, if_pos hbreak] at ho
    rw [lineNumbers_cons hne, if_pos hbreak] at hl
    cases k with
    | zero =>
      cases ho
      omega
    | succ k =>
      rw [List.getElem?_cons_succ] at ho
      have hpos := le_of_getElem?_lineEnds ho
      cases i with
      | zero =>
        cases hl
        omega
      | succ i =>
        rw [List.getElem?_cons_succ] at hl
        have h := ih ho hl (lineNumbers_bounds pos l (List.mem_of_getElem? hl)).1
        omega
  | case4 pos c s hne hbreak ih =>
    rw [lineEnds_cons hne, if_neg hbreak] at ho
    rw [lineNumbers_cons hne, if_neg hbreak] at hl
    cases k with
    | zero =>
      cases ho
      omega
    | succ k =>
      rw [List.getElem?_cons_succ] at ho
      have hpos := (lineEnds_bounds o (List.mem_of_getElem? ho)).1
      cases i with
      | zero =>
        cases hl
        omega
      | succ i =>
        rw [List.getElem?_cons_succ] at hl
        have h := ih (k := k + 1) ho hl (lineNumbers_bounds pos l (List.mem_of_getElem? hl)).1
        omega

/-! ## the offsets of a text -/

theorem offsets_sorted (text : Text) : (0 :: lineEnds 0 text).Pairwise (· < ·) :=
  List.pairwise_cons.mpr ⟨fun o ho => (lineEnds_bounds o ho).1, lineEnds_sorted⟩

theorem le_length_of_mem (ho : o ∈ 0 :: lineEnds 0 text) : o ≤ text.length := by
  rcases List.mem_cons.mp ho with rfl | ho
  · exact Nat.zero_le _
  · have h := (lineEnds_bounds o ho).2
    omega

/-- The offsets: those of the lines, and the end when the last line has no break. -/
theorem lineOffsets_cases (text : Text) :
    lineOffsets text = 0 :: lineEnds 0 text ∧ (lineOffsets text).getLast? = some text.length ∨
    lineOffsets text = (0 :: lineEnds 0 text) ++ [text.length] ∧ ∀ o ∈ 0 :: lineEnds 0 text, o < text.length := by
  by_cases hlast : (0 :: lineEnds 0 text).getLast? = some text.length
  · have heq : lineOffsets text = 0 :: lineEnds 0 text := if_neg (not_not.mpr hlast)
    exact .inl ⟨heq, by rw [heq, hlast]⟩
  · refine .inr ⟨if_pos hlast, fun o ho => lt_of_le_of_ne (le_length_of_mem ho) ?_⟩
    rintro rfl
    obtain ⟨l₁, l₂, heq⟩ := List.append_of_mem ho
    rw [heq] at hlast
    have hsorted := offsets_sorted text
    rw [heq] at hsorted
    obtain ⟨-, hrest, -⟩ := List.pairwise_append.mp hsorted
    cases l₂ with
    | nil => simp at hlast
    | cons o l₂ =>
      have hlt := (List.pairwise_cons.mp hrest).1 o List.mem_cons_self
      have hle := le_length_of_mem (show o ∈ 0 :: lineEnds 0 text by rw [heq]; simp)
      omega

theorem lineOffsets_zero (text : Text) : (lineOffsets text)[0]? = some 0 := by
  rcases lineOffsets_cases text with ⟨heq, -⟩ | ⟨heq, -⟩
  · rw [heq, List.getElem?_cons_zero]
  · rw [heq, List.cons_append, List.getElem?_cons_zero]

theorem lineOffsets_last : (lineOffsets text)[(lineOffsets text).length - 1]? = some text.length := by
  rw [← List.getLast?_eq_getElem?]
  rcases lineOffsets_cases text with ⟨-, hlast⟩ | ⟨heq, -⟩
  · exact hlast
  · rw [heq, List.getLast?_concat]

theorem lineOffsets_sorted : (lineOffsets text).Pairwise (· < ·) := by
  rcases lineOffsets_cases text with ⟨heq, -⟩ | ⟨heq, hlt⟩
  · rw [heq]
    exact offsets_sorted text
  · rw [heq]
    exact List.pairwise_append.mpr ⟨offsets_sorted text, List.pairwise_singleton _ _, fun o ho x hx =>
      List.mem_singleton.mp hx ▸ hlt o ho⟩

theorem lineOffsets_mono (ho : (lineOffsets text)[k]? = some o) (ho' : (lineOffsets text)[k']? = some o')
    (hk : k ≤ k') : o ≤ o' := by
  obtain ⟨h, rfl⟩ := List.getElem?_eq_some_iff.mp ho
  obtain ⟨h', rfl⟩ := List.getElem?_eq_some_iff.mp ho'
  rcases hk.eq_or_lt with rfl | hlt
  · exact le_rfl
  · exact (List.pairwise_iff_getElem.mp lineOffsets_sorted k k' h h' hlt).le

theorem lineOffsets_le (ho : (lineOffsets text)[k]? = some o) : o ≤ text.length := by
  obtain ⟨h, -⟩ := List.getElem?_eq_some_iff.mp ho
  exact lineOffsets_mono ho lineOffsets_last (by omega)

theorem lineOffsets_le_iff (ho : (lineOffsets text)[k]? = some o) (hi : i < text.length) :
    o ≤ i ↔ k ≤ lineAt text i := by
  have hlen : i < (lineNumbers 0 text).length := by rwa [length_lineNumbers]
  have hl : (lineNumbers 0 text)[i]? = some (lineAt text i) := by
    rw [lineAt, List.getD_eq_getElem?_getD, List.getElem?_eq_getElem hlen]
    rfl
  have hiff : ∀ {k o}, (0 :: lineEnds 0 text)[k]? = some o → (o ≤ i ↔ k ≤ lineAt text i) := by
    intro k o ho
    have h := lineEnds_le_iff ho hl
    omega
  rcases lineOffsets_cases text with ⟨heq, -⟩ | ⟨heq, -⟩
  · exact hiff (heq ▸ ho)
  · rw [heq, List.getElem?_append] at ho
    split at ho
    · exact hiff ho
    · -- the end of the text
      rename_i hk
      obtain rfl : o = text.length := List.mem_singleton.mp (List.mem_of_getElem? ho)
      have hbound := (lineNumbers_bounds 0 _ (List.mem_of_getElem? hl)).2
      rw [List.length_cons] at hk
      omega

end
end Kajet.Markdown
