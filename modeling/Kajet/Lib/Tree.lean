import Mathlib.Data.List.Basic
import Mathlib.Data.List.Pairwise
import Mathlib.Logic.Function.Basic
import Mathlib.Tactic.Common

/-!
# Trees of files, snapshots, renames

A tree gives every path its bytes, or nothing.  A snapshot is a list of paths with what they held.

* `restore`, `restore_apply`     writing back a snapshot of `t₀` makes the listed paths as in `t₀`
                                 and leaves the others alone, in any order;
* `restore_congr`, `restore_filter`   what a path holds afterwards depends on the path only;
* `moveBack`, `moveBacks_of_mem` a rename that happens only if its source is there and its target
                                 is not; a list of such renames over disjoint paths.
-/

namespace Kajet

variable {P B : Type*}

abbrev Tree (P B : Type*) := P → Option B

namespace Tree

/-- The two paths of a pair are in no other pair. -/
def Disjoint (x y : P × P) : Prop := x.1 ≠ y.1 ∧ x.1 ≠ y.2 ∧ x.2 ≠ y.1 ∧ x.2 ≠ y.2

theorem Disjoint.symm {x y : P × P} (h : Disjoint x y) : Disjoint y x :=
  ⟨h.1.symm, h.2.2.1.symm, h.2.1.symm, h.2.2.2.symm⟩

variable [DecidableEq P]

def restore (snaps : List (P × Option B)) (t : Tree P B) : Tree P B :=
  snaps.foldl (fun t x => Function.update t x.1 x.2) t

theorem restore_apply {t₀ : Tree P B} (snaps : List (P × Option B)) (h : ∀ x ∈ snaps, x.2 = t₀ x.1)
    (t : Tree P B) (p : P) :
    restore snaps t p = if p ∈ snaps.map Prod.fst then t₀ p else t p := by
  induction snaps generalizing t with
  | nil => rfl
  | cons x snaps ih =>
    show restore snaps (Function.update t x.1 x.2) p = _
    rw [ih (fun y hy => h y (List.mem_cons_of_mem _ hy)), List.map_cons]
    by_cases hp : p ∈ snaps.map Prod.fst
    · rw [if_pos hp, if_pos (List.mem_cons_of_mem _ hp)]
    · rw [if_neg hp]
      by_cases hx : p = x.1
      · subst hx
        rw [Function.update_self, h x List.mem_cons_self, if_pos List.mem_cons_self]
      · have hno : p ∉ x.1 :: snaps.map Prod.fst := by
          rw [List.mem_cons]
          exact fun e => e.elim hx hp
        rw [Function.update_of_ne hx, if_neg hno]

theorem restore_cons (x : P × Option B) (snaps : List (P × Option B)) (t : Tree P B) :
    restore (x :: snaps) t = restore snaps (Function.update t x.1 x.2) := rfl

theorem restore_concat (snaps : List (P × Option B)) (x : P × Option B) (t : Tree P B) :
    restore (snaps ++ [x]) t = Function.update (restore snaps t) x.1 x.2 := List.foldl_concat ..

theorem restore_congr {snaps : List (P × Option B)} {t t' : Tree P B} {p : P} (h : t p = t' p) :
    restore snaps t p = restore snaps t' p := by
  induction snaps generalizing t t' with
  | nil => exact h
  | cons x snaps ih =>
    rw [restore_cons, restore_cons]
    refine ih ?_
    by_cases hx : p = x.1
    · subst hx
      rw [Function.update_self, Function.update_self]
    · rw [Function.update_of_ne hx, Function.update_of_ne hx, h]

theorem restore_of_notMem {snaps : List (P × Option B)} {t : Tree P B} {p : P} (h : p ∉ snaps.map Prod.fst) :
    restore snaps t p = t p := by
  induction snaps generalizing t with
  | nil => rfl
  | cons x snaps ih =>
    rw [restore_cons, ih fun hp => h (List.mem_cons_of_mem _ hp), Function.update_of_ne]
    rintro rfl
    exact h List.mem_cons_self

/-- The other paths may be left out. -/
theorem restore_filter (keep : P → Bool) {snaps : List (P × Option B)} {t : Tree P B} {p : P} (hp : keep p = true) :
    restore (snaps.filter fun x => keep x.1) t p = restore snaps t p := by
  induction snaps generalizing t with
  | nil => rfl
  | cons x snaps ih =>
    rw [List.filter_cons, restore_cons]
    split
    · rw [restore_cons, ih]
    · rename_i hx
      rw [ih]
      have hne : p ≠ x.1 := by
        rintro rfl
        exact hx hp
      exact restore_congr (Function.update_of_ne hne _ _).symm

/-- `x = (add, remove)`: back from `add` to `remove`, if `add` is there and `remove` is not. -/
def moveBack (t : Tree P B) (x : P × P) : Tree P B :=
  if (t x.1).isSome ∧ (t x.2).isNone then Function.update (Function.update t x.1 none) x.2 (t x.1)
  else t

theorem moveBack_of_ne {t : Tree P B} {x : P × P} {p : P} (h1 : p ≠ x.1) (h2 : p ≠ x.2) :
    moveBack t x p = t p := by
  unfold moveBack
  split
  · rw [Function.update_of_ne h2, Function.update_of_ne h1]
  · rfl

theorem moveBack_moved {t : Tree P B} {x : P × P} (h : (t x.1).isSome ∧ (t x.2).isNone) :
    moveBack t x x.1 = none ∧ moveBack t x x.2 = t x.1 := by
  have hne : x.1 ≠ x.2 := fun e => by
    rw [e, ← Option.not_isNone, h.2] at h
    exact absurd h.1 (by simp)
  rw [moveBack, if_pos h]
  exact ⟨by rw [Function.update_of_ne hne, Function.update_self], Function.update_self ..⟩

theorem moveBack_still {t : Tree P B} {x : P × P} (h : ¬ ((t x.1).isSome ∧ (t x.2).isNone)) :
    moveBack t x = t := if_neg h

def moveBacks (pairs : List (P × P)) (t : Tree P B) : Tree P B := pairs.foldl moveBack t

theorem moveBacks_of_ne (pairs : List (P × P)) (t : Tree P B) {p : P}
    (h : ∀ x ∈ pairs, p ≠ x.1 ∧ p ≠ x.2) : moveBacks pairs t p = t p := by
  induction pairs generalizing t with
  | nil => rfl
  | cons x pairs ih =>
    show moveBacks pairs (moveBack t x) p = t p
    rw [ih (moveBack t x) (fun y hy => h y (List.mem_cons_of_mem _ hy))]
    have hx := h x List.mem_cons_self
    exact moveBack_of_ne hx.1 hx.2

/-- Of disjoint renames each path sees its own only. -/
theorem moveBacks_of_mem (pairs : List (P × P)) (hd : pairs.Pairwise Disjoint) (t : Tree P B)
    {x : P × P} (hx : x ∈ pairs) :
    moveBacks pairs t x.1 = moveBack t x x.1 ∧ moveBacks pairs t x.2 = moveBack t x x.2 := by
  induction pairs generalizing t with
  | nil => cases hx
  | cons y pairs ih =>
    obtain ⟨hy, hd⟩ := List.pairwise_cons.mp hd
    show moveBacks pairs (moveBack t y) x.1 = _ ∧ moveBacks pairs (moveBack t y) x.2 = _
    rcases List.mem_cons.mp hx with rfl | hmem
    · exact ⟨moveBacks_of_ne pairs _ fun z hz => ⟨(hy z hz).1, (hy z hz).2.1⟩,
        moveBacks_of_ne pairs _ fun z hz => ⟨(hy z hz).2.2.1, (hy z hz).2.2.2⟩⟩
    · have hxy := (hy x hmem).symm
      have h1 : moveBack t y x.1 = t x.1 := moveBack_of_ne hxy.1 hxy.2.1
      have h2 : moveBack t y x.2 = t x.2 := moveBack_of_ne hxy.2.2.1 hxy.2.2.2
      have hsame : moveBack (moveBack t y) x x.1 = moveBack t x x.1 ∧
          moveBack (moveBack t y) x x.2 = moveBack t x x.2 := by
        by_cases hmv : (t x.1).isSome ∧ (t x.2).isNone
        · have hmv' : (moveBack t y x.1).isSome ∧ (moveBack t y x.2).isNone := by rwa [h1, h2]
          have hy' := moveBack_moved hmv'
          have ht := moveBack_moved hmv
          exact ⟨hy'.1.trans ht.1.symm, (hy'.2.trans h1).trans ht.2.symm⟩
        · have hmv' : ¬ ((moveBack t y x.1).isSome ∧ (moveBack t y x.2).isNone) := by rwa [h1, h2]
          rw [moveBack_still hmv, moveBack_still hmv']
          exact ⟨h1, h2⟩
      obtain ⟨i1, i2⟩ := ih hd (moveBack t y) hmem
      exact ⟨i1.trans hsame.1, i2.trans hsame.2⟩

end Tree
end Kajet
