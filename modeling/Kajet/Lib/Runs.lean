import Mathlib.Data.List.Chain
import Mathlib.Tactic.Common

/-!
# Lists that differ in some runs

`Varies p R s t`: `t` is `s` with runs of elements of `p` in the place of others, each pair of runs in `R`.

* `Varies.mem`, `Varies.head?`, `Varies.getLast?`   what is not in `p` is where it was;
* `Varies.isChain`        neighbours that must differ still do;
* `Varies.length_le`      lengths compare as those of the runs;
* `Varies.single`         with one element of `p` at most, one element has changed at most.
-/

namespace Kajet.Runs

variable {α : Type*}

/-- One or more elements of `p`. -/
def Run (p : α → Bool) (a : List α) : Prop := a ≠ [] ∧ ∀ x ∈ a, p x = true

inductive Varies (p : α → Bool) (R : List α → List α → Prop) : List α → List α → Prop
  | nil : Varies p R [] []
  | same (x : α) {s t : List α} : Varies p R s t → Varies p R (x :: s) (x :: t)
  | run {a b s t : List α} : Run p a → Run p b → R a b → Varies p R s t → Varies p R (a ++ s) (b ++ t)

variable {p : α → Bool} {R S : List α → List α → Prop} {s t s' t' a b : List α} {x : α}

namespace Varies

theorem refl (s : List α) : Varies p R s s := by
  induction s with
  | nil => exact .nil
  | cons x s ih => exact .same x ih

theorem append (h : Varies p R s t) (h' : Varies p R s' t') : Varies p R (s ++ s') (t ++ t') := by
  induction h with
  | nil => exact h'
  | same x _ ih => exact .same x ih
  | run ha hb hab _ ih =>
    rw [List.append_assoc, List.append_assoc]
    exact .run ha hb hab ih

theorem of_run (ha : Run p a) (hb : Run p b) (h : R a b) : Varies p R a b := by
  have hrun := Varies.run ha hb h .nil
  rwa [List.append_nil, List.append_nil] at hrun

theorem imp (hRS : ∀ a b, Run p a → Run p b → R a b → S a b) (h : Varies p R s t) : Varies p S s t := by
  induction h with
  | nil => exact .nil
  | same x _ ih => exact .same x ih
  | run ha hb hab _ ih => exact .run ha hb (hRS _ _ ha hb hab) ih

theorem eq_nil (h : Varies p R s t) : s = [] ↔ t = [] := by
  cases h with
  | nil => exact Iff.rfl
  | same x _ => exact iff_of_false (List.cons_ne_nil _ _) (List.cons_ne_nil _ _)
  | run ha hb _ _ =>
    exact iff_of_false (List.append_ne_nil_of_left_ne_nil ha.1 _) (List.append_ne_nil_of_left_ne_nil hb.1 _)

/-! ## what is not in `p` -/

theorem mem (h : Varies p R s t) (hx : x ∈ t) (hp : p x = false) : x ∈ s := by
  induction h with
  | nil => exact hx
  | same y _ ih =>
    rcases List.mem_cons.mp hx with rfl | hx
    · exact List.mem_cons_self
    · exact List.mem_cons_of_mem y (ih hx)
  | run _ hb _ _ ih =>
    rcases List.mem_append.mp hx with hx | hx
    · rw [hb.2 x hx] at hp
      cases hp
    · exact List.mem_append_right _ (ih hx)

theorem head? (h : Varies p R s t) (hx : t.head? = some x) (hp : p x = false) : s.head? = some x := by
  cases h with
  | nil => exact hx
  | same y _ => exact hx
  | run _ hb _ _ =>
    rw [List.head?_append_of_ne_nil _ hb.1] at hx
    rw [hb.2 x (List.mem_of_head? hx)] at hp
    cases hp

theorem getLast? (h : Varies p R s t) (hx : t.getLast? = some x) (hp : p x = false) : s.getLast? = some x := by
  induction h with
  | nil => exact hx
  | @same y s t h ih =>
    by_cases hnil : t = []
    · obtain rfl : s = [] := h.eq_nil.mpr hnil
      rwa [hnil] at hx
    · rw [List.getLast?_cons_of_ne_nil hnil] at hx
      rw [List.getLast?_cons_of_ne_nil (mt h.eq_nil.mp hnil)]
      exact ih hx
  | @run a b s t _ hb _ h ih =>
    by_cases hnil : t = []
    · rw [hnil, List.append_nil] at hx
      rw [hb.2 x (List.mem_of_getLast? hx)] at hp
      cases hp
    · rw [List.getLast?_append_of_ne_nil _ hnil] at hx
      rw [List.getLast?_append_of_ne_nil _ (mt h.eq_nil.mp hnil)]
      exact ih hx

/-- Neighbours may be anything where one of them is in `p`. -/
theorem isChain {N : α → α → Prop} (hN : ∀ x y, p x = true ∨ p y = true → N x y) (h : Varies p R s t)
    (hs : s.IsChain N) : t.IsChain N := by
  have hrun : ∀ b : List α, (∀ x ∈ b, p x = true) → ∀ t, t.IsChain N → (b ++ t).IsChain N := by
    intro b hb t ht
    induction b with
    | nil => exact ht
    | cons x b ih =>
      exact List.isChain_cons.mpr ⟨fun y _ => hN x y (.inl (hb x List.mem_cons_self)),
        ih fun y hy => hb y (List.mem_cons_of_mem x hy)⟩
  induction h with
  | nil => exact hs
  | @same x s t h ih =>
    obtain ⟨hhead, hs⟩ := List.isChain_cons.mp hs
    refine List.isChain_cons.mpr ⟨fun y hy => ?_, ih hs⟩
    cases hp : p y with
    | true => exact hN x y (.inr hp)
    | false => exact hhead y (h.head? hy hp)
  | run _ hb _ _ ih => exact hrun _ hb.2 _ (ih hs.right_of_append)

/-! ## lengths -/

theorem length_le (hR : ∀ a b, R a b → a.length ≤ b.length) (h : Varies p R s t) : s.length ≤ t.length := by
  induction h with
  | nil => exact Nat.le_refl _
  | same x _ ih => exact Nat.succ_le_succ ih
  | run _ _ hab _ ih =>
    rw [List.length_append, List.length_append]
    exact Nat.add_le_add (hR _ _ hab) ih

/-- A run of one element stands for a run of one element. -/
theorem single (hR : ∀ a b, R a b → a.length ≤ b.length) (h : Varies p R s t) (hone : t.countP p ≤ 1) :
    s = t ∨ ∃ before x y after, s = before ++ x :: after ∧ t = before ++ y :: after ∧
      p x = true ∧ p y = true ∧ R [x] [y] := by
  induction h with
  | nil => exact .inl rfl
  | @same z s t _ ih =>
    rw [List.countP_cons] at hone
    rcases ih (by omega) with rfl | ⟨before, x, y, after, rfl, rfl, hspec⟩
    · exact .inl rfl
    · exact .inr ⟨z :: before, x, y, after, rfl, rfl, hspec⟩
  | @run a b s t ha hb hab _ ih =>
    have hcount : b.countP p = b.length := List.countP_eq_length.mpr hb.2
    have hpos := List.length_pos_iff.mpr ha.1
    have hle := hR a b hab
    rw [List.countP_append, hcount] at hone
    obtain ⟨x, rfl⟩ := List.length_eq_one_iff.mp (show a.length = 1 by omega)
    obtain ⟨y, rfl⟩ := List.length_eq_one_iff.mp (show b.length = 1 by omega)
    rw [List.length_singleton] at hone
    rcases ih (by omega) with rfl | ⟨before, x', y', after, -, rfl, -, hy', -⟩
    · exact .inr ⟨[], x, y, s, rfl, rfl, ha.2 x List.mem_cons_self, hb.2 y List.mem_cons_self, hab⟩
    · rw [List.countP_append, List.countP_cons, if_pos hy'] at hone
      omega

end Varies

end Kajet.Runs
