import Kajet.Lib.Fuel
import Mathlib.Data.Finset.Union

/-!
# `WITH RECURSIVE … UNION …`

A recursive table begins with some rows; each of its rows gives further ones, and a row that is there already
is not added.

* `Derived`          the least table: the rows that some chain of steps gives;
* `recursiveUnion`   rounds over the whole table, until one adds nothing;
* `mem_recursiveUnion`   a table that it ends with is the least one;
* `recursiveUnion_settles`   it ends when every row has a level, bounded, and a step goes up one level.
-/

namespace Kajet.Recursive
open Fuel

universe u
variable {ρ : Type u}

inductive Derived (step : ρ → Finset ρ) (base : Finset ρ) : ρ → Prop where
  | base {r : ρ} (h : r ∈ base) : Derived step base r
  | step {r r' : ρ} (h : Derived step base r) (h' : r' ∈ step r) : Derived step base r'

theorem Derived.trans {step : ρ → Finset ρ} {base base' : Finset ρ} {r : ρ} (h : Derived step base' r)
    (hbase : ∀ r ∈ base', Derived step base r) : Derived step base r := by
  induction h with
  | base h => exact hbase _ h
  | step _ h' ih => exact .step ih h'

variable [DecidableEq ρ]

def round (step : ρ → Finset ρ) (rows : Finset ρ) : Finset ρ := rows ∪ rows.biUnion step

def recursiveUnion (step : ρ → Finset ρ) : ℕ → Finset ρ → Option (Finset ρ)
  | 0, _ => none
  | fuel + 1, rows => if round step rows = rows then some rows else recursiveUnion step fuel (round step rows)

variable {step : ρ → Finset ρ} {base rows : Finset ρ} {r r' : ρ} {fuel : ℕ}

theorem mem_round : r ∈ round step rows ↔ r ∈ rows ∨ ∃ r' ∈ rows, r ∈ step r' := by
  rw [round, Finset.mem_union, Finset.mem_biUnion]

theorem subset_round : rows ⊆ round step rows := Finset.subset_union_left

/-- A closed table has every row that its rows derive. -/
theorem mem_of_derived (hbase : base ⊆ rows) (hclosed : round step rows = rows) (h : Derived step base r) :
    r ∈ rows := by
  induction h with
  | base h => exact hbase h
  | step _ h' ih =>
    rw [← hclosed]
    exact mem_round.mpr (.inr ⟨_, ih, h'⟩)

theorem derived_round (h : ∀ r ∈ rows, Derived step base r) : ∀ r ∈ round step rows, Derived step base r := by
  intro r hr
  rcases mem_round.mp hr with hr | ⟨r', hr', hstep⟩
  · exact h r hr
  · exact .step (h r' hr') hstep

/-- The rounds are between the first rows and the derived ones; the last one is closed. -/
theorem recursiveUnion_spec {start : Finset ρ} (hstart : base ⊆ start) (hsound : ∀ r ∈ start, Derived step base r)
    (h : recursiveUnion step fuel start = some rows) :
    base ⊆ rows ∧ (∀ r ∈ rows, Derived step base r) ∧ round step rows = rows := by
  induction fuel generalizing start with
  | zero => cases h
  | succ fuel ih =>
    rw [recursiveUnion] at h
    split at h
    · rename_i hclosed
      cases h
      exact ⟨hstart, hsound, hclosed⟩
    · exact ih (hstart.trans subset_round) (derived_round hsound) h

/-- **The table is the least one.** -/
theorem mem_recursiveUnion (h : recursiveUnion step fuel base = some rows) : r ∈ rows ↔ Derived step base r := by
  obtain ⟨hbase, hsound, hclosed⟩ := recursiveUnion_spec (Finset.Subset.refl base) (fun _ => .base) h
  exact ⟨hsound r, mem_of_derived hbase hclosed⟩

/-! ## the rounds end -/

/-- A row of level `n` is there after `n` rounds. -/
theorem mem_iterate_of_derived (level : ρ → ℕ) (hstep : ∀ r, ∀ r' ∈ step r, level r' = level r + 1)
    (h : Derived step base r) {n : ℕ} (hn : level r ≤ n) : r ∈ (round step)^[n] base := by
  induction h generalizing n with
  | base h =>
    clear hn
    induction n with
    | zero => exact h
    | succ n ih =>
      rw [Function.iterate_succ_apply']
      exact subset_round ih
  | step _ h' ih =>
    rw [hstep _ _ h'] at hn
    obtain ⟨m, rfl⟩ := Nat.exists_eq_add_of_le' (Nat.one_le_of_lt hn)
    rw [Function.iterate_succ_apply']
    exact mem_round.mpr (.inr ⟨_, ih (Nat.le_of_succ_le_succ hn), h'⟩)

theorem derived_iterate (n : ℕ) : ∀ r ∈ (round step)^[n] base, Derived step base r := by
  induction n with
  | zero => exact fun r => .base
  | succ n ih =>
    rw [Function.iterate_succ_apply']
    exact derived_round ih

theorem exists_recursiveUnion {n : ℕ} {start : Finset ρ}
    (hclosed : round step ((round step)^[n] start) = (round step)^[n] start) (hfuel : n < fuel) : ∃ rows, recursiveUnion step fuel start = some rows := by
  induction n generalizing fuel start with
  | zero =>
    obtain ⟨m, rfl⟩ := Nat.exists_eq_add_of_le' hfuel
    exact ⟨start, by rw [recursiveUnion]; exact if_pos hclosed⟩
  | succ n ih =>
    obtain ⟨m, rfl⟩ := Nat.exists_eq_add_of_le' (Nat.one_le_of_lt hfuel)
    rw [recursiveUnion]
    split
    · exact ⟨start, rfl⟩
    · exact ih hclosed (Nat.lt_of_succ_lt_succ hfuel)

theorem recursiveUnion_settles (step : ρ → Finset ρ) (base : Finset ρ) (level : ρ → ℕ) {bound : ℕ}
    (hstep : ∀ r, ∀ r' ∈ step r, level r' = level r + 1) (hlevel : ∀ r, Derived step base r → level r ≤ bound) :
    ∃ rows, Settles (fun fuel => recursiveUnion step fuel base) rows ∧ ∀ r, r ∈ rows ↔ Derived step base r := by
  have hrows : ∀ r, r ∈ (round step)^[bound] base ↔ Derived step base r := fun r =>
    ⟨derived_iterate bound r, fun h => mem_iterate_of_derived level hstep h (hlevel r h)⟩
  have hclosed : round step ((round step)^[bound] base) = (round step)^[bound] base := by
    refine Finset.Subset.antisymm (fun r hr => (hrows r).mpr ?_) subset_round
    exact derived_round (fun r => (hrows r).mp) r hr
  refine ⟨_, ⟨bound + 1, fun fuel hfuel => ?_⟩, hrows⟩
  obtain ⟨rows, h⟩ := exists_recursiveUnion hclosed hfuel
  refine h.trans ?_
  exact congrArg some (Finset.ext fun r => (mem_recursiveUnion h).trans (hrows r).symm)

end Kajet.Recursive
