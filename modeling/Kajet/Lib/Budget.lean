import Mathlib.Algebra.BigOperators.Group.List.Basic
import Mathlib.Algebra.GroupWithZero.Nat
import Mathlib.Tactic.Common

/-!
# Elements from the left, within a budget

* `taken`        the elements up to the first one that does not fit;
* `taken_le`     they are within the budget;
* `length_le_taken`   no longer part from the left is.
-/

namespace Kajet.Budget

variable {α : Type*} (weight : α → ℕ) (budget : ℕ)

def total (l : List α) : ℕ := (l.map weight).sum

/-- `used` is what was spent before. -/
def taken (used : ℕ) : List α → List α
  | [] => []
  | a :: l => if used + weight a ≤ budget then a :: taken (used + weight a) l else []

variable {weight budget} {used : ℕ} {l : List α} {a : α}

@[simp] theorem total_nil : total weight ([] : List α) = 0 := rfl

@[simp] theorem total_cons : total weight (a :: l) = weight a + total weight l := List.sum_cons

theorem taken_prefix : taken weight budget used l <+: l := by
  induction l generalizing used with
  | nil => exact List.prefix_rfl
  | cons a l ih =>
    rw [taken]
    split
    · exact List.cons_prefix_cons.mpr ⟨rfl, ih⟩
    · exact List.nil_prefix

theorem taken_le (h : taken weight budget used l ≠ []) : used + total weight (taken weight budget used l) ≤ budget := by
  induction l generalizing used with
  | nil => exact absurd rfl h
  | cons a l ih =>
    rw [taken] at h ⊢
    split
    · rename_i hfits
      rw [total_cons, ← Nat.add_assoc]
      by_cases hmore : taken weight budget (used + weight a) l = []
      · rw [hmore]
        exact hfits
      · exact ih hmore
    · rename_i hover
      rw [if_neg hover] at h
      exact absurd rfl h

theorem length_le_taken {j : ℕ} (hj : j ≤ l.length) (h : used + total weight (l.take j) ≤ budget) :
    j ≤ (taken weight budget used l).length := by
  induction l generalizing used j with
  | nil => exact hj
  | cons a l ih =>
    cases j with
    | zero => exact Nat.zero_le _
    | succ j =>
      rw [List.take_succ_cons, total_cons, ← Nat.add_assoc] at h
      rw [taken, if_pos (by omega), List.length_cons]
      exact Nat.succ_le_succ (ih (Nat.le_of_succ_le_succ hj) h)

end Kajet.Budget
