import Mathlib.Data.List.Basic
import Mathlib.Data.List.Infix
import Mathlib.Tactic.Common

/-!
# Occurrences of a list in a list

* `Occurs`        the needle begins at a position; occurrences may overlap;
* `find`          the first occurrence from a position on;
* `findAll`       a scan that goes on behind each occurrence it finds;
* `findAll_nil`, `findAll_singleton`   when the scan finds none, and when it finds one;
* `Hidden`        there are more occurrences, and the scan steps over all of them.
-/

namespace Kajet.Occurrence

variable {α : Type*}

def Occurs (needle s : List α) (i : ℕ) : Prop := i ≤ s.length ∧ needle <+: s.drop i

/-! ## one occurrence -/

section
variable {needle s : List α} {i : ℕ}

theorem Occurs.split (h : Occurs needle s i) : s = s.take i ++ needle ++ s.drop (i + needle.length) := by
  obtain ⟨t, ht⟩ := h.2
  have hrest : s.drop (i + needle.length) = t := by
    rw [← List.drop_drop, ← ht, List.drop_left]
  rw [hrest, List.append_assoc, ht, List.take_append_drop]

theorem Occurs.le (h : Occurs needle s i) : i + needle.length ≤ s.length := by
  have hlen := h.2.length_le
  rw [List.length_drop] at hlen
  have := h.1
  omega

end

/-! ## the search -/

variable [DecidableEq α]

instance (needle s : List α) (i : ℕ) : Decidable (Occurs needle s i) := inferInstanceAs (Decidable (_ ∧ _))

/-- `s.find(needle, start)` -/
def find (needle s : List α) (start : ℕ) : Option ℕ :=
  (List.range' start (s.length + 1 - start)).find? fun i => needle.isPrefixOf (s.drop i)

/-- The occurrences that a scan finds which goes on behind each of them; `fuel`: each takes a position. -/
def findAll (needle s : List α) : ℕ → ℕ → List ℕ
  | 0, _ => []
  | fuel + 1, start =>
    match find needle s start with
    | none => []
    | some i => i :: findAll needle s fuel (i + max needle.length 1)

variable {needle s : List α} {i j start fuel : ℕ} {rest : List ℕ}

/-! ## the first occurrence -/

theorem find_eq_none : find needle s start = none ↔ ∀ i, start ≤ i → ¬ Occurs needle s i := by
  unfold find
  rw [List.find?_range'_eq_none]
  constructor
  · intro h i hi hocc
    have hle := hocc.1
    have hno := h i hi (by omega)
    rw [List.isPrefixOf_iff_prefix.mpr hocc.2] at hno
    cases hno
  · intro h i hlow hhigh
    rw [Bool.not_eq_true', ← Bool.not_eq_true, List.isPrefixOf_iff_prefix]
    exact fun hpre => h i hlow ⟨by omega, hpre⟩

theorem find_eq_some (h : find needle s start = some i) :
    start ≤ i ∧ Occurs needle s i ∧ ∀ j, start ≤ j → j < i → ¬ Occurs needle s j := by
  unfold find at h
  obtain ⟨hpre, hmem, hno⟩ := List.find?_range'_eq_some.mp h
  obtain ⟨hlow, hhigh⟩ := List.mem_range'_1.mp hmem
  refine ⟨hlow, ⟨by omega, List.isPrefixOf_iff_prefix.mp hpre⟩, fun j hj hlt hocc => ?_⟩
  have hfalse := hno j hj hlt
  rw [List.isPrefixOf_iff_prefix.mpr hocc.2] at hfalse
  cases hfalse

/-! ## the scan -/

/-- A scan with enough fuel finds nothing only where there is nothing. -/
theorem findAll_nil (hfuel : s.length < fuel + start) :
    findAll needle s fuel start = [] ↔ ∀ i, start ≤ i → ¬ Occurs needle s i := by
  cases fuel with
  | zero =>
    refine iff_of_true rfl fun i hi hocc => ?_
    have hle := hocc.1
    omega
  | succ fuel =>
    rw [← find_eq_none]
    unfold findAll
    cases find needle s start with
    | none => exact iff_of_true rfl rfl
    | some i => exact iff_of_false (List.cons_ne_nil _ _) (Option.some_ne_none i)

/-- What it finds first is the first occurrence, and it goes on behind it. -/
theorem findAll_cons (h : findAll needle s fuel start = i :: rest) :
    Occurs needle s i ∧ (∀ j, start ≤ j → j < i → ¬ Occurs needle s j) ∧ start ≤ i ∧
      rest = findAll needle s (fuel - 1) (i + max needle.length 1) := by
  cases fuel with
  | zero => cases h
  | succ fuel =>
    unfold findAll at h
    cases hfind : find needle s start with
    | none =>
      rw [hfind] at h
      cases h
    | some k =>
      rw [hfind] at h
      obtain ⟨rfl, rfl⟩ := List.cons.inj h
      obtain ⟨hlow, hocc, hfirst⟩ := find_eq_some hfind
      exact ⟨hocc, hfirst, hlow, rfl⟩

/-- There are more occurrences than one, and all begin within the first. -/
def Hidden (needle s : List α) : Prop := ∃ i, Occurs needle s i ∧ (∃ j, i < j ∧ Occurs needle s j) ∧
  ∀ j, Occurs needle s j → i ≤ j ∧ j < i + needle.length

/-- A scan of the whole list. -/
abbrev scan (needle s : List α) : List ℕ := findAll needle s (s.length + 1) 0

theorem scan_nil : scan needle s = [] ↔ ∀ i, ¬ Occurs needle s i := by
  rw [scan, findAll_nil (by omega)]
  exact ⟨fun h i => h i (Nat.zero_le i), fun h i _ => h i⟩

theorem scan_singleton (hne : needle ≠ []) (h : scan needle s = i :: rest) : Occurs needle s i ∧
    (∀ j, Occurs needle s j → i ≤ j) ∧ (rest = [] ↔ ∀ j, Occurs needle s j → j < i + needle.length) := by
  obtain ⟨hocc, hfirst, -, rfl⟩ := findAll_cons h
  have hpos := List.length_pos_iff.mpr hne
  refine ⟨hocc, fun j hj => ?_, ?_⟩
  · by_contra hlt
    exact hfirst j (Nat.zero_le j) (by omega) hj
  · rw [findAll_nil (by omega), Nat.max_eq_left hpos]
    constructor
    · intro hno j hj
      by_contra hle
      exact hno j (by omega) hj
    · intro hall j hle hj
      have := hall j hj
      omega

/-- What the scan makes of the number of occurrences. -/
theorem scan_cases (hne : needle ≠ []) :
    (scan needle s = [] ∧ ∀ i, ¬ Occurs needle s i) ∨
    (∃ i, scan needle s = [i] ∧ Occurs needle s i ∧ ∀ j, Occurs needle s j → j = i) ∨
    (∃ i, scan needle s = [i] ∧ Occurs needle s i ∧ Hidden needle s) ∨
    ∃ i j rest, scan needle s = i :: j :: rest ∧ ¬ Hidden needle s ∧
      ∃ i j, i < j ∧ Occurs needle s i ∧ Occurs needle s j := by
  rcases hscan : scan needle s with _ | ⟨i, _ | ⟨j, rest⟩⟩
  · exact .inl ⟨rfl, scan_nil.mp hscan⟩
  · obtain ⟨hocc, hfirst, hrest⟩ := scan_singleton hne hscan
    have hwithin := hrest.mp rfl
    by_cases hmore : ∃ j, i < j ∧ Occurs needle s j
    · exact .inr (.inr (.inl ⟨i, rfl, hocc, i, hocc, hmore, fun j hj => ⟨hfirst j hj, hwithin j hj⟩⟩))
    · refine .inr (.inl ⟨i, rfl, hocc, fun j hj => ?_⟩)
      have hle := hfirst j hj
      by_contra hneq
      exact hmore ⟨j, by omega, hj⟩
  · obtain ⟨hocc, hfirst, hrest⟩ := scan_singleton hne hscan
    have hbehind : ∃ k, Occurs needle s k ∧ i + needle.length ≤ k := by
      by_contra hno
      refine absurd (hrest.mpr fun k hk => ?_) (List.cons_ne_nil j rest)
      by_contra hlt
      exact hno ⟨k, hk, by omega⟩
    obtain ⟨k, hk, hle⟩ := hbehind
    have hpos := List.length_pos_iff.mpr hne
    refine .inr (.inr (.inr ⟨i, j, rest, rfl, ?_, i, k, by omega, hocc, hk⟩))
    rintro ⟨m, hm, -, hall⟩
    have hmi := (hall i hocc).1
    have him := hfirst m hm
    have hmk := (hall k hk).2
    omega

end Kajet.Occurrence
