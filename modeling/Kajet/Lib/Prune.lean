import Mathlib.Data.List.Basic
import Mathlib.Logic.Relation
import Mathlib.Tactic.Common

/-!
# Filtering until nothing goes

A pass keeps the elements that a condition on the whole list selects; passes follow one another until
one removes nothing.

* `loop_isSome`         a list of `n` elements needs at most `n + 1` passes;
* `loop_inv`, `loop_keeps`   what every pass preserves holds of the result, which is kept whole;
* `exists_marked`       where each element is marked or has a child, each has a marked descendant.
-/

namespace Kajet.Prune

variable {α : Type*} (keep : List α → α → Bool)

def pass (xs : List α) : List α := xs.filter (keep xs)

/-- At most `fuel` passes; the last one removes nothing. -/
def loop : ℕ → List α → Option (List α)
  | 0, _ => none
  | fuel + 1, xs => if (pass keep xs).length = xs.length then some xs else loop fuel (pass keep xs)

variable {keep} {xs ys : List α} {fuel : ℕ}

theorem loop_isSome (h : xs.length < fuel) : (loop keep fuel xs).isSome = true := by
  induction fuel generalizing xs with
  | zero => omega
  | succ fuel ih =>
    unfold loop
    split
    · rfl
    · rename_i hlen
      have hle : (pass keep xs).length ≤ xs.length := List.length_filter_le _ _
      exact ih (by omega)

theorem loop_inv {P : List α → Prop} (hpass : ∀ xs, P xs → P (pass keep xs)) (h0 : P xs)
    (h : loop keep fuel xs = some ys) : P ys := by
  induction fuel generalizing xs with
  | zero => cases h
  | succ fuel ih =>
    unfold loop at h
    split at h
    · cases h
      exact h0
    · exact ih (hpass xs h0) h

theorem loop_sublist (h : loop keep fuel xs = some ys) : ys.Sublist xs :=
  loop_inv (P := (·.Sublist xs)) (fun _ hzs => List.filter_sublist.trans hzs) (List.Sublist.refl xs) h

theorem loop_keeps (h : loop keep fuel xs = some ys) : ∀ y ∈ ys, keep ys y = true := by
  induction fuel generalizing xs with
  | zero => cases h
  | succ fuel ih =>
    unfold loop at h
    split at h
    · rename_i hlen
      rw [← Option.some.inj h]
      have hself : pass keep xs = xs := List.filter_sublist.eq_of_length hlen
      exact List.filter_eq_self.mp hself
    · exact ih h

theorem exists_top (rank : α → ℕ) (xs : List α) : ∃ top, ∀ y ∈ xs, rank y ≤ top := by
  induction xs with
  | nil => exact ⟨0, fun _ hy => (nomatch hy)⟩
  | cons x xs ih =>
    obtain ⟨top, htop⟩ := ih
    refine ⟨max (rank x) top, fun y hy => ?_⟩
    rcases List.mem_cons.mp hy with rfl | hy
    · exact Nat.le_max_left ..
    · exact Nat.le_trans (htop y hy) (Nat.le_max_right ..)

/-- `rank` grows from a parent to its children, so a chain of children ends, at a marked element. -/
theorem exists_marked (ys : List α) (marked : α → Prop) (child : α → α → Prop) (rank : α → ℕ)
    (hrank : ∀ x ∈ ys, ∀ y ∈ ys, child y x → rank x < rank y)
    (hys : ∀ x ∈ ys, marked x ∨ ∃ y ∈ ys, child y x) {x : α} (hx : x ∈ ys) :
    ∃ y ∈ ys, marked y ∧ Relation.ReflTransGen child y x := by
  obtain ⟨top, htop⟩ := exists_top rank ys
  -- induction on the distance of the rank from the greatest one
  induction hd : top - rank x using Nat.strongRecOn generalizing x with
  | ind d ih =>
    rcases hys x hx with hmark | ⟨y, hy, hchild⟩
    · exact ⟨x, hx, hmark, .refl⟩
    · have hlt := hrank x hx y hy hchild
      have hle := htop y hy
      obtain ⟨z, hz, hmark, hzy⟩ := ih (top - rank y) (by omega) hy rfl
      exact ⟨z, hz, hmark, hzy.tail hchild⟩

end Kajet.Prune
