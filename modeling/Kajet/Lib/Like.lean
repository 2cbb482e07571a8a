import Mathlib.Data.List.Infix
import Mathlib.Tactic.Common

/-!
# The `LIKE` operator

`x LIKE pattern ESCAPE esc`, where letters match up to ASCII case: `%` stands for any text, `_` for one
character, and the character after `esc` for itself.

* `compile`, `like`        the pattern by tokens, and the match;
* `escape`                 a text as a pattern that stands for it;
* `like_startsWith`        the escaped text before a `%` is a test of how the text begins.
-/

namespace Kajet.Like

inductive Token where
  | literal (c : Char)
  | one
  | many
deriving DecidableEq

/-- A pattern that ends in its escape character matches nothing. -/
def compile (esc : Char) : List Char → Option (List Token)
  | [] => some []
  | [c] => if c = esc then none else some [if c = '%' then .many else if c = '_' then .one else .literal c]
  | c :: d :: rest =>
    if c = '%' then (compile esc (d :: rest)).map (.many :: ·)
    else if c = '_' then (compile esc (d :: rest)).map (.one :: ·)
    else if c = esc then (compile esc rest).map (.literal d :: ·)
    else (compile esc (d :: rest)).map (.literal c :: ·)

/-- The text matches, and so does some rest of it when it is preceded by any text. -/
def matchTokens : List Token → List Char → Bool
  | [], t => t.isEmpty
  | .literal _ :: _, [] => false
  | .literal c :: p, d :: t => c.toLower = d.toLower && matchTokens p t
  | .one :: _, [] => false
  | .one :: p, _ :: t => matchTokens p t
  | .many :: p, t => t.tails.any (matchTokens p)

def like (esc : Char) (pattern t : List Char) : Bool := (compile esc pattern).any fun p => matchTokens p t

/-- Every character that means something in a pattern is escaped. -/
def escape (esc : Char) (t : List Char) : List Char :=
  t.flatMap fun c => if c = esc ∨ c = '%' ∨ c = '_' then [esc, c] else [c]

/-- A test of how a text begins. -/
def startsWith (esc : Char) (t : List Char) : List Char := escape esc t ++ ['%']

variable {esc : Char} {t s : List Char}

theorem compile_escape_append (hesc : esc ≠ '%' ∧ esc ≠ '_') (rest : List Char) (hrest : rest ≠ []) :
    compile esc (escape esc t ++ rest) = (compile esc rest).map (t.map .literal ++ ·) := by
  induction t with
  | nil => simp [escape]
  | cons c t ih =>
    have hne : escape esc t ++ rest ≠ [] := by simp [hrest]
    obtain ⟨d, more, hmore⟩ := List.exists_cons_of_ne_nil hne
    by_cases hc : c = esc ∨ c = '%' ∨ c = '_'
    · have hcons : escape esc (c :: t) ++ rest = esc :: c :: (escape esc t ++ rest) := by
        rw [escape, List.flatMap_cons, if_pos hc]
        rfl
      rw [hcons, compile, if_neg hesc.1, if_neg hesc.2, if_pos rfl, ih, Option.map_map]
      rfl
    · have hcons : escape esc (c :: t) ++ rest = c :: (escape esc t ++ rest) := by
        rw [escape, List.flatMap_cons, if_neg hc]
        rfl
      obtain ⟨hcesc, hpercent, hunderscore⟩ := not_or.mp hc |>.imp id not_or.mp
      rw [hcons, hmore, compile, if_neg hpercent, if_neg hunderscore, if_neg hcesc, ← hmore, ih, Option.map_map]
      rfl

theorem matchTokens_many (t : List Char) : matchTokens [.many] t = true := by
  rw [matchTokens, List.any_eq_true]
  exact ⟨[], (List.mem_tails _ _).mpr List.nil_suffix, rfl⟩

theorem matchTokens_literals : matchTokens (t.map .literal ++ [.many]) s = true ↔
    (t.map Char.toLower).isPrefixOf (s.map Char.toLower) = true := by
  induction t generalizing s with
  | nil => simp [matchTokens_many]
  | cons c t ih =>
    cases s with
    | nil => simp [matchTokens]
    | cons d s => simp [matchTokens, ih]

/-- **The escaped text before a `%`.** -/
theorem like_startsWith (hesc : esc ≠ '%' ∧ esc ≠ '_') : like esc (startsWith esc t) s = true ↔
    (t.map Char.toLower).isPrefixOf (s.map Char.toLower) = true := by
  have hlast : compile esc ['%'] = some [.many] := by
    rw [compile, if_neg hesc.1.symm]
    rfl
  rw [like, startsWith, compile_escape_append hesc _ (List.cons_ne_nil _ _), hlast]
  exact matchTokens_literals

end Kajet.Like
