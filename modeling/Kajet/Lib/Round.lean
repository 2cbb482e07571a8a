import Mathlib.Algebra.Order.Floor.Ring
import Mathlib.Algebra.Order.Field.Basic
import Mathlib.Data.Rat.Floor
import Mathlib.Tactic.Linarith
import Mathlib.Tactic.NormNum

/-!
# Rounding to the nearest integer, ties to even

* `le_roundHalfEven_add_half`, `roundHalfEven_sub_half_le`   what rounding may move a number by;
* `roundHalfEven_le`, `le_roundHalfEven`   it stays between integer bounds;
* `roundHalfEven_intCast`                  integers stay;
* `roundHalfEven_lt`                       numbers more than one apart keep their order strictly.
-/

namespace Kajet.Round

section
variable {K : Type*} [Field K] [LinearOrder K] [FloorRing K]

/-- Python's `round(x)`. -/
def roundHalfEven (x : K) : ℤ :=
  if Int.fract x < 1 / 2 then ⌊x⌋
  else if 1 / 2 < Int.fract x then ⌊x⌋ + 1
  else if Even ⌊x⌋ then ⌊x⌋ else ⌊x⌋ + 1

/-- It is the floor below or at the half, the ceiling above or at it. -/
theorem roundHalfEven_cases (x : K) :
    (roundHalfEven x = ⌊x⌋ ∧ Int.fract x ≤ 1 / 2) ∨ (roundHalfEven x = ⌊x⌋ + 1 ∧ 1 / 2 ≤ Int.fract x) := by
  unfold roundHalfEven
  split_ifs with hlt hgt heven
  · exact .inl ⟨rfl, hlt.le⟩
  · exact .inr ⟨rfl, hgt.le⟩
  · exact .inl ⟨rfl, not_lt.mp hgt⟩
  · exact .inr ⟨rfl, not_lt.mp hlt⟩

variable [IsStrictOrderedRing K]

theorem le_roundHalfEven_add_half (x : K) : x ≤ roundHalfEven x + 1 / 2 := by
  have hx := Int.floor_add_fract x
  have hfract := Int.fract_lt_one x
  rcases roundHalfEven_cases x with ⟨h, hhalf⟩ | ⟨h, hhalf⟩
  · rw [h]
    linarith
  · rw [h]
    push_cast
    linarith

theorem roundHalfEven_sub_half_le (x : K) : roundHalfEven x - 1 / 2 ≤ x := by
  have hx := Int.floor_add_fract x
  have hfract := Int.fract_nonneg x
  rcases roundHalfEven_cases x with ⟨h, hhalf⟩ | ⟨h, hhalf⟩
  · rw [h]
    linarith
  · rw [h]
    push_cast
    linarith

theorem roundHalfEven_le {x : K} {n : ℤ} (h : x ≤ n) : roundHalfEven x ≤ n := by
  have hlow := roundHalfEven_sub_half_le x
  have hlt : (roundHalfEven x : K) < (n + 1 : ℤ) := by
    push_cast
    linarith
  exact Int.lt_add_one_iff.mp (Int.cast_lt.mp hlt)

theorem le_roundHalfEven {x : K} {n : ℤ} (h : (n : K) ≤ x) : n ≤ roundHalfEven x := by
  have hup := le_roundHalfEven_add_half x
  have hlt : (n : K) < (roundHalfEven x + 1 : ℤ) := by
    push_cast
    linarith
  exact Int.lt_add_one_iff.mp (Int.cast_lt.mp hlt)

@[simp] theorem roundHalfEven_intCast (n : ℤ) : roundHalfEven (n : K) = n :=
  le_antisymm (roundHalfEven_le le_rfl) (le_roundHalfEven le_rfl)

theorem roundHalfEven_lt {x y : K} (h : x + 1 < y) : roundHalfEven x < roundHalfEven y := by
  have hx := roundHalfEven_sub_half_le x
  have hy := le_roundHalfEven_add_half y
  have hlt : (roundHalfEven x : K) < roundHalfEven y := by linarith
  exact Int.cast_lt.mp hlt

end

-- A tie goes to the even neighbour on either side.
example : roundHalfEven (1 / 2 : ℚ) = 0 ∧ roundHalfEven (3 / 2 : ℚ) = 2 ∧ roundHalfEven (5 / 2 : ℚ) = 2 := by
  decide +kernel

end Kajet.Round
