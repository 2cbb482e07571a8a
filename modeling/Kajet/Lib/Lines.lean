import Mathlib.Data.List.Basic
import Mathlib.Tactic.Common

/-!
# The lines of a text

A line ends at any of the separators; behind the last separator there may be one more line, if it is not empty.

* `lines`        the lines;
* `At`           a line with its number (from zero) and the text before and after it;
* `At.unique`    the number says which part of the text it is;
* `at_of_getElem?`, `length_lines`   the lines are such parts, and how many there are.
-/

namespace Kajet.Lines

variable {α : Type*} (p : α → Bool)

/-- The element joins the first part. -/
def consFirst (a : α) : List (List α) → List (List α)
  | [] => [[a]]
  | l :: ls => (a :: l) :: ls

def lines : List α → List (List α)
  | [] => []
  | a :: s => if p a then [] :: lines s else consFirst a (lines s)

structure At (s : List α) (k : ℕ) (before line after : List α) : Prop where
  split : s = before ++ (line ++ after)
  count : before.countP p = k
  left : ∀ a, before.getLast? = some a → p a = true
  inner : ∀ a ∈ line, p a = false
  right : ∀ a, after.head? = some a → p a = true

variable {p} {s before before' line line' after after' x : List α} {k : ℕ} {a : α}

theorem eq_nil_of_countP (hcount : x.countP p = 0) (hleft : ∀ a, x.getLast? = some a → p a = true) : x = [] := by
  cases hx : x.getLast? with
  | none => exact List.getLast?_eq_none_iff.mp hx
  | some a => exact absurd (hleft a hx) (List.countP_eq_zero.mp hcount a (List.mem_of_getLast? hx))

theorem eq_nil_of_append (hcount : (before ++ x).countP p = before.countP p)
    (hleft : ∀ a, (before ++ x).getLast? = some a → p a = true) : x = [] := by
  rw [List.countP_append] at hcount
  refine eq_nil_of_countP (by omega) fun a ha => hleft a ?_
  rw [List.getLast?_append, ha]
  rfl

theorem eq_nil_of_head (hinner : ∀ a ∈ x, p a = false) (hright : ∀ a, (x ++ after).head? = some a → p a = true) :
    x = [] := by
  cases x with
  | nil => rfl
  | cons a x =>
    have hp := hright a rfl
    rw [hinner a List.mem_cons_self] at hp
    cases hp

theorem At.unique (h : At p s k before line after) (h' : At p s k before' line' after') :
    before = before' ∧ line = line' ∧ after = after' := by
  have hbefore : before = before' ∧ line ++ after = line' ++ after' := by
    rcases List.append_eq_append_iff.mp (h.split.symm.trans h'.split) with ⟨x, hx, hrest⟩ | ⟨x, hx, hrest⟩
    · obtain rfl := eq_nil_of_append (hx ▸ h'.count.trans h.count.symm) (hx ▸ h'.left)
      exact ⟨by rw [hx, List.append_nil], hrest⟩
    · obtain rfl := eq_nil_of_append (hx ▸ h.count.trans h'.count.symm) (hx ▸ h.left)
      exact ⟨by rw [hx, List.append_nil], hrest.symm⟩
  refine ⟨hbefore.1, ?_⟩
  rcases List.append_eq_append_iff.mp hbefore.2 with ⟨x, hx, hrest⟩ | ⟨x, hx, hrest⟩
  · obtain rfl := eq_nil_of_head (fun a ha => h'.inner a (hx ▸ List.mem_append_right _ ha)) (hrest ▸ h.right)
    exact ⟨by rw [hx, List.append_nil], hrest⟩
  · obtain rfl := eq_nil_of_head (fun a ha => h.inner a (hx ▸ List.mem_append_right _ ha)) (hrest ▸ h'.right)
    exact ⟨by rw [hx, List.append_nil], hrest.symm⟩

/-! ## the text around a line -/

theorem At.getElem?_line (h : At p s k before line after) {i : ℕ} (hi : i < line.length) :
    s[before.length + i]? = (line)[i]? := by
  rw [h.split, List.getElem?_append_right (Nat.le_add_right _ _), Nat.add_sub_cancel_left, List.getElem?_append_left hi]

theorem At.head?_after (h : At p s k before line after) : after.head? = s[before.length + line.length]? := by
  rw [h.split, List.getElem?_append_right (Nat.le_add_right _ _), Nat.add_sub_cancel_left,
    List.getElem?_append_right (Nat.le_refl _), Nat.sub_self, List.head?_eq_getElem?]

theorem At.getLast?_before (h : At p s k before line after) (hne : 0 < before.length) :
    before.getLast? = s[before.length - 1]? := by
  rw [h.split, List.getElem?_append_left (by omega), List.getLast?_eq_getElem?]

/-! ## the lines are such parts -/

theorem getLast?_cons_left (hp : p a = true ∨ before ≠ []) (h : ∀ b, before.getLast? = some b → p b = true) :
    ∀ b, (a :: before).getLast? = some b → p b = true := by
  intro b hb
  cases before with
  | nil =>
    cases hb
    exact hp.resolve_right fun hne => hne rfl
  | cons c before => exact h b (by rwa [List.getLast?_cons_cons] at hb)

theorem lines_eq_nil : lines p s = [] ↔ s = [] := by
  cases s with
  | nil => exact iff_of_true rfl rfl
  | cons a s =>
    refine iff_of_false ?_ (List.cons_ne_nil a s)
    rw [lines]
    split
    · exact List.cons_ne_nil _ _
    · cases lines p s <;> exact List.cons_ne_nil _ _

theorem at_of_getElem? (h : (lines p s)[k]? = some line) : ∃ before after, At p s k before line after := by
  induction s generalizing k line with
  | nil => cases h
  | cons a s ih =>
    rw [lines] at h
    cases hp : p a with
    | true =>
      rw [if_pos hp] at h
      cases k with
      | zero =>
        cases h
        refine ⟨[], a :: s, rfl, rfl, fun _ h => (nomatch h), fun _ h => (nomatch h), fun b hb => ?_⟩
        cases hb
        exact hp
      | succ k =>
        obtain ⟨before, after, h⟩ := ih h
        refine ⟨a :: before, after, by rw [h.split]; rfl, ?_, getLast?_cons_left (.inl hp) h.left, h.inner, h.right⟩
        rw [List.countP_cons_of_pos hp, h.count]
    | false =>
      rw [if_neg (by rw [hp]; exact Bool.false_ne_true)] at h
      cases hlines : lines p s with
      | nil =>
        obtain rfl := lines_eq_nil.mp hlines
        cases k with
        | zero =>
          cases h
          refine ⟨[], [], rfl, rfl, fun _ h => (nomatch h), fun b hb => ?_, fun _ h => (nomatch h)⟩
          rw [List.mem_singleton.mp hb]
          exact hp
        | succ k => cases h
      | cons l ls =>
        rw [hlines] at h
        cases k with
        | zero =>
          cases h
          obtain ⟨before, after, h⟩ := ih (hlines ▸ rfl : (lines p s)[0]? = some l)
          obtain rfl := eq_nil_of_countP h.count h.left
          refine ⟨[], after, by rw [h.split]; rfl, rfl, h.left, fun b hb => ?_, h.right⟩
          rcases List.mem_cons.mp hb with rfl | hb
          · exact hp
          · exact h.inner b hb
        | succ k =>
          obtain ⟨before, after, h⟩ := ih (k := k + 1) (hlines ▸ h : (lines p s)[k + 1]? = some line)
          have hne : before ≠ [] := by
            rintro rfl
            exact absurd h.count (Nat.succ_ne_zero k).symm
          refine ⟨a :: before, after, by rw [h.split]; rfl, ?_, getLast?_cons_left (.inr hne) h.left, h.inner, h.right⟩
          rw [List.countP_cons_of_neg (by rw [hp]; exact Bool.false_ne_true), h.count]

theorem length_lines : (lines p s).length = s.countP p + if s.getLast?.all p then 0 else 1 := by
  induction s with
  | nil => rfl
  | cons a s ih =>
    rw [lines]
    cases hp : p a with
    | true =>
      rw [if_pos rfl, List.length_cons, ih, List.countP_cons_of_pos hp]
      cases s with
      | nil => simp [hp]
      | cons b s => rw [List.getLast?_cons_cons, Nat.add_right_comm]
    | false =>
      rw [if_neg Bool.false_ne_true, List.countP_cons_of_neg (by rw [hp]; exact Bool.false_ne_true)]
      cases hlines : lines p s with
      | nil =>
        obtain rfl := lines_eq_nil.mp hlines
        simp [consFirst, hp]
      | cons l ls =>
        rw [hlines] at ih
        cases s with
        | nil => cases hlines
        | cons b s => rw [List.getLast?_cons_cons, ← ih, consFirst, List.length_cons, List.length_cons]

end Kajet.Lines
