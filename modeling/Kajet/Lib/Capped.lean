import Mathlib.Data.List.Basic
import Mathlib.Data.List.Count
import Mathlib.Logic.Function.Basic
import Mathlib.Tactic.Common

/-!
# The best elements of a ranked list, not too many of one key

* `capped`          a ranked list without the elements whose key has no room left;
* `count_capped`    how many of a key remain;
* `omitted`         what is left out comes after `cap` elements of its key;
* `cut_omitted`     the first `limit` of these: an element that is left out comes after all of them, or
                    after `cap` of its key;
* `cut_insert`      one that comes late does not change them.
-/

namespace Kajet.Capped

variable {α ν : Type*} [DecidableEq ν] (key : α → ν) (cap : ℕ)

/-- `used` counts the elements of each key that were taken before. -/
def capped (used : ν → ℕ) : List α → List α
  | [] => []
  | x :: l => if cap ≤ used (key x) then capped used l
    else x :: capped (Function.update used (key x) (used (key x) + 1)) l

/-- The first `limit` ones. -/
def cut (limit : ℕ) (l : List α) : List α := (capped key cap (fun _ => 0) l).take limit

variable {key cap} {used : ν → ℕ} {l : List α} {x : α} {k : ν} {R : α → α → Prop} {limit limit' : ℕ}

theorem capped_sublist : (capped key cap used l).Sublist l := by
  induction l generalizing used with
  | nil => exact List.Sublist.slnil
  | cons x l ih =>
    unfold capped
    split
    · exact ih.cons x
    · exact ih.cons_cons x

/-- A key keeps as many elements as it has room for. -/
theorem count_capped : (capped key cap used l).countP (fun y => key y = k) =
    min (cap - used k) (l.countP fun y => key y = k) := by
  induction l generalizing used with
  | nil => simp [capped]
  | cons x l ih =>
    unfold capped
    by_cases hk : key x = k
    · subst hk
      split
      · rw [ih, List.countP_cons_of_pos (by simp)]
        omega
      · rw [List.countP_cons_of_pos (by simp), List.countP_cons_of_pos (by simp), ih, Function.update_self]
        omega
    · split
      · rw [ih, List.countP_cons_of_neg (by simpa using hk)]
      · rw [List.countP_cons_of_neg (by simpa using hk), List.countP_cons_of_neg (by simpa using hk), ih,
          Function.update_of_ne (Ne.symm hk)]

/-- **What is left out** comes after the elements of its key that were taken, and they fill the room of the key. -/
theorem omitted (hl : l.Pairwise R) (hx : x ∈ l) (hnot : x ∉ capped key cap used l) :
    (capped key cap used l).countP (fun y => key y = key x) = cap - used (key x) ∧
      ∀ y ∈ capped key cap used l, key y = key x → R y x := by
  induction l generalizing used with
  | nil => cases hx
  | cons z l ih =>
    obtain ⟨hz, hl⟩ := List.pairwise_cons.mp hl
    unfold capped at hnot ⊢
    split
    · rename_i hfull
      rw [if_pos hfull] at hnot
      rcases List.mem_cons.mp hx with rfl | hx
      · -- no room is left for the key
        have hcount : (capped key cap used l).countP (fun y => key y = key x) = 0 := by
          rw [count_capped, Nat.sub_eq_zero_of_le hfull, Nat.zero_min]
        refine ⟨hcount.trans (Nat.sub_eq_zero_of_le hfull).symm, fun y hy hkey => ?_⟩
        exact absurd (decide_eq_true hkey) (List.countP_eq_zero.mp hcount y hy)
      · exact ih hl hx hnot
    · rename_i hroom
      rw [if_neg hroom] at hnot
      obtain ⟨hne, hrest⟩ := not_or.mp fun h => hnot (List.mem_cons.mpr h)
      obtain ⟨hcount, hbefore⟩ := ih hl ((List.mem_cons.mp hx).resolve_left hne) hrest
      refine ⟨?_, fun y hy hkey => ?_⟩
      · by_cases hk : key z = key x
        · rw [List.countP_cons_of_pos (by simpa using hk), hcount, hk, Function.update_self]
          rw [hk] at hroom
          omega
        · rw [List.countP_cons_of_neg (by simpa using hk), hcount, Function.update_of_ne (Ne.symm hk)]
      · rcases List.mem_cons.mp hy with rfl | hy
        · exact hz x ((List.mem_cons.mp hx).resolve_left hne)
        · exact hbefore y hy hkey

theorem capped_append (xs ys : List α) :
    ∃ used', capped key cap used (xs ++ ys) = capped key cap used xs ++ capped key cap used' ys := by
  induction xs generalizing used with
  | nil => exact ⟨used, rfl⟩
  | cons x xs ih =>
    by_cases hfull : cap ≤ used (key x)
    · obtain ⟨used', h⟩ := @ih used
      exact ⟨used', by rw [List.cons_append, capped, if_pos hfull, capped, if_pos hfull, h]⟩
    · obtain ⟨used', h⟩ := @ih (Function.update used (key x) (used (key x) + 1))
      exact ⟨used', by rw [List.cons_append, capped, if_neg hfull, capped, if_neg hfull, h, List.cons_append]⟩

/-- Every key of the list keeps an element. -/
theorem le_length_capped {ks : List ν} (hcap : 1 ≤ cap) (hks : ks.Nodup) (h : ∀ k ∈ ks, ∃ x ∈ l, key x = k) :
    ks.length ≤ (capped key cap (fun _ => 0) l).length := by
  have hsub : ks ⊆ (capped key cap (fun _ => 0) l).map key := fun k hk => by
    obtain ⟨x, hx, hkey⟩ := h k hk
    have hpos : 0 < l.countP fun y => key y = k := List.countP_pos_iff.mpr ⟨x, hx, decide_eq_true hkey⟩
    have hcount : (capped key cap (fun _ => 0) l).countP (fun y => key y = k) =
        min (cap - 0) (l.countP fun y => key y = k) := count_capped
    obtain ⟨y, hy, hyk⟩ := List.countP_pos_iff.mp (show 0 < _ by rw [hcount]; omega)
    exact List.mem_map.mpr ⟨y, hy, of_decide_eq_true hyk⟩
  have hlen := (List.subperm_of_subset hks hsub).length_le
  rwa [List.length_map] at hlen

/-! ## the first ones -/

theorem cut_sublist : (cut key cap limit l).Sublist l := (List.take_sublist _ _).trans capped_sublist

theorem length_cut_le : (cut key cap limit l).length ≤ limit := List.length_take_le _ _

theorem count_cut_le : (cut key cap limit l).countP (fun y => key y = k) ≤ cap := by
  have htake : (cut key cap limit l).countP (fun y => key y = k) ≤
      (capped key cap (fun _ => 0) l).countP fun y => key y = k := (List.take_sublist _ _).countP_le
  rw [count_capped] at htake
  exact Nat.le_trans htake (Nat.min_le_left _ _)

theorem le_length_cut {ks : List ν} (hcap : 1 ≤ cap) (hks : ks.Nodup) (h : ∀ k ∈ ks, ∃ x ∈ l, key x = k) :
    min limit ks.length ≤ (cut key cap limit l).length := by
  rw [cut, List.length_take]
  exact Nat.le_min.mpr ⟨Nat.min_le_left _ _, Nat.le_trans (Nat.min_le_right _ _) (le_length_capped hcap hks h)⟩

theorem take_cut (h : limit ≤ limit') : (cut key cap limit' l).take limit = cut key cap limit l := by
  rw [cut, cut, List.take_take, Nat.min_eq_left h]

/-- An element that comes after enough of them does not change the first ones. -/
theorem cut_insert {us vs : List α} (h : limit ≤ (capped key cap (fun _ => 0) us).length) :
    cut key cap limit (us ++ x :: vs) = cut key cap limit (us ++ vs) := by
  obtain ⟨used, hwith⟩ : ∃ used, capped key cap (fun _ => 0) (us ++ x :: vs) =
    capped key cap (fun _ => 0) us ++ capped key cap used (x :: vs) := capped_append us _
  obtain ⟨used', hwithout⟩ : ∃ used, capped key cap (fun _ => 0) (us ++ vs) =
    capped key cap (fun _ => 0) us ++ capped key cap used vs := capped_append us _
  rw [cut, cut, hwith, hwithout, List.take_append_of_le_length h, List.take_append_of_le_length h]

/-- **An element that is left out** comes after `cap` elements of its key, or after as many as the limit allows. -/
theorem cut_omitted (htrans : ∀ a b c, R a b → R b c → R a c) (hl : l.Pairwise R) (hx : x ∈ l)
    (hnot : x ∉ cut key cap limit l) :
    ((cut key cap limit l).countP (fun y => key y = key x) = cap ∧ ∀ y ∈ cut key cap limit l, key y = key x → R y x) ∨
      (cut key cap limit l).length = limit ∧ ∀ y ∈ cut key cap limit l, R y x := by
  unfold cut at hnot ⊢
  generalize hkept : capped key cap (fun _ => 0) l = kept at hnot ⊢
  have hsorted : kept.Pairwise R := hkept ▸ hl.sublist capped_sublist
  rw [← List.take_append_drop limit kept, List.pairwise_append] at hsorted
  -- the list is full when something is dropped
  have hfull : ∀ y ∈ kept.drop limit, (kept.take limit).length = limit := fun y hy => by
    rw [List.length_take, Nat.min_eq_left]
    by_contra hlt
    rw [List.drop_of_length_le (Nat.le_of_lt (Nat.not_le.mp hlt))] at hy
    cases hy
  by_cases hmem : x ∈ kept
  · rw [← List.take_append_drop limit kept] at hmem
    have hdrop := (List.mem_append.mp hmem).resolve_left hnot
    exact .inr ⟨hfull x hdrop, fun y hy => hsorted.2.2 y hy x hdrop⟩
  · obtain ⟨hcount, hbefore⟩ := omitted hl hx (hkept ▸ hmem)
    rw [hkept, Nat.sub_zero] at hcount
    rw [hkept] at hbefore
    by_cases hdropped : ∃ y ∈ kept.drop limit, key y = key x
    · obtain ⟨y, hy, hkey⟩ := hdropped
      have hyx := hbefore y (List.mem_of_mem_drop hy) hkey
      exact .inr ⟨hfull y hy, fun z hz => htrans z y x (hsorted.2.2 z hz y hy) hyx⟩
    · refine .inl ⟨?_, fun y hy hkey => hbefore y (List.mem_of_mem_take hy) hkey⟩
      rw [← List.take_append_drop limit kept, List.countP_append] at hcount
      have hzero : (kept.drop limit).countP (fun y => key y = key x) = 0 :=
        List.countP_eq_zero.mpr fun y hy h => hdropped ⟨y, hy, of_decide_eq_true h⟩
      omega

end Kajet.Capped
