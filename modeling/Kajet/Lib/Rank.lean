import Mathlib.Data.List.Dedup
import Mathlib.Data.List.Sort
import Mathlib.Tactic.Common

/-!
# The first candidate of a stable sort

`ranked rank l` is Python's `sorted(l, key=rank)`.

* `ranked_remove`, `take_ranked_flatten`   what its first elements depend on;
* `head?_ranked`   its head is the element of least rank that comes first in `l`;
* `grouped`        the values of a dictionary of lists, one list a key, in insertion order;
                   `mem_grouped` and `filter_grouped` say what it keeps of `l`;
* `best`           the first of the greatest elements, found by one pass; `best_eq_best`;
* `sortM`          a stable sort whose comparisons may fail; `sortM_eq` when none does.
-/

namespace Kajet.Rank

section
variable {α κ : Type*} [LinearOrder κ]

def ranked (rank : α → κ) (l : List α) : List α := l.insertionSort fun a b => rank a ≤ rank b

@[simp] theorem mem_ranked {rank : α → κ} {l : List α} {a : α} : a ∈ ranked rank l ↔ a ∈ l :=
  List.mem_insertionSort _

theorem ranked_perm (rank : α → κ) (l : List α) : (ranked rank l).Perm l := List.perm_insertionSort _ l

theorem ranked_pairwise (rank : α → κ) (l : List α) : (ranked rank l).Pairwise fun a b => rank a ≤ rank b :=
  List.pairwise_insertionSort _ l

/-- A list of different ranks is the sort of its permutations. -/
theorem ranked_eq_of_perm {rank : α → κ} {l sorted : List α} (h : l.Perm sorted)
    (hsorted : sorted.Pairwise fun a b => rank a < rank b) : ranked rank l = sorted := by
  have hinj : ∀ a ∈ sorted, ∀ b ∈ sorted, rank a = rank b → a = b := fun a ha b hb heq =>
    List.inj_on_of_nodup_map ((List.pairwise_map.mpr hsorted).imp ne_of_lt) ha hb heq
  refine ((ranked_perm rank l).trans h).eq_of_pairwise (fun a b ha hb hab hba => ?_) (ranked_pairwise rank l)
    (hsorted.imp le_of_lt)
  exact hinj a (((ranked_perm rank l).trans h).mem_iff.mp ha) b hb (le_antisymm hab hba)

/-- The order of elements of different ranks does not matter. -/
theorem ranked_eq_ranked {rank : α → κ} {l l' : List α} (h : l.Perm l')
    (hinj : ∀ a ∈ l, ∀ b ∈ l, rank a = rank b → a = b) : ranked rank l = ranked rank l' := by
  refine ((ranked_perm rank l).trans (h.trans (ranked_perm rank l').symm)).eq_of_pairwise
    (fun a b ha hb hab hba => ?_) (ranked_pairwise rank l) (ranked_pairwise rank l')
  exact hinj a (mem_ranked.mp ha) b (h.mem_iff.mpr (mem_ranked.mp hb)) (le_antisymm hab hba)

theorem ranked_eq_nil {rank : α → κ} {l : List α} : ranked rank l = [] ↔ l = [] := by
  rw [← List.length_eq_zero_iff, ranked, List.length_insertionSort, List.length_eq_zero_iff]

/-- Inserting puts the new element in front of the elements of its own rank. -/
theorem head?_orderedInsert (rank : α → κ) (a : α) (l : List α) :
    (l.orderedInsert (fun a b => rank a ≤ rank b) a).head? =
      some (l.head?.elim a fun b => if rank a ≤ rank b then a else b) := by
  cases l with
  | nil => rfl
  | cons b l =>
    rw [List.orderedInsert_cons]
    by_cases h : rank a ≤ rank b <;> simp [h]

theorem mem_of_head?_filter {p : α → Bool} {l : List α} {w : α} (h : (l.filter p).head? = some w) :
    w ∈ l ∧ p w = true := List.mem_filter.mp (List.mem_of_mem_head? h)

/-- The chosen element has the least rank, and is the first one that has it. -/
theorem head?_ranked (rank : α → κ) (l : List α) (w : α) : (ranked rank l).head? = some w ↔
    (∀ c ∈ l, rank w ≤ rank c) ∧ (l.filter fun c => rank c = rank w).head? = some w := by
  induction l generalizing w with
  | nil => simp [ranked]
  | cons a l ih =>
    have hhead : (ranked rank (a :: l)).head? =
        some ((ranked rank l).head?.elim a fun b => if rank a ≤ rank b then a else b) :=
      head?_orderedInsert rank a (ranked rank l)
    rw [hhead, Option.some.injEq]
    cases hl : (ranked rank l).head? with
    | none =>
      obtain rfl : l = [] := ranked_eq_nil.mp (List.head?_eq_none_iff.mp hl)
      show a = w ↔ _
      constructor
      · rintro rfl
        simp
      · rintro ⟨_, hfirst⟩
        exact (List.mem_singleton.mp (mem_of_head?_filter hfirst).1).symm
    | some b =>
      obtain ⟨hmin, hfirst⟩ := (ih b).mp hl
      have hb : b ∈ l := (mem_of_head?_filter hfirst).1
      show (if rank a ≤ rank b then a else b) = w ↔ _
      by_cases hab : rank a ≤ rank b
      · rw [if_pos hab]
        constructor
        · rintro rfl
          refine ⟨fun c hc => ?_, by simp⟩
          rcases List.mem_cons.mp hc with rfl | hc
          · exact le_rfl
          · exact hab.trans (hmin c hc)
        · rintro ⟨hw, hwfirst⟩
          by_cases haw : rank a = rank w
          · simpa [haw] using hwfirst
          · rw [List.filter_cons_of_neg (by simpa using haw)] at hwfirst
            have hwl : w ∈ l := (mem_of_head?_filter hwfirst).1
            exact absurd (le_antisymm (hab.trans (hmin w hwl)) (hw a List.mem_cons_self)) haw
      · rw [if_neg hab]
        have hba : rank b < rank a := not_le.mp hab
        constructor
        · rintro rfl
          refine ⟨fun c hc => ?_, ?_⟩
          · rcases List.mem_cons.mp hc with rfl | hc
            · exact hba.le
            · exact hmin c hc
          · rwa [List.filter_cons_of_neg (by simpa using hba.ne')]
        · rintro ⟨hw, hwfirst⟩
          have haw : rank a ≠ rank w := fun e =>
            hab (e.trans_le (hw b (List.mem_cons_of_mem a hb)))
          rw [List.filter_cons_of_neg (by simpa using haw)] at hwfirst
          have hwl := (ih w).mpr ⟨fun c hc => hw c (List.mem_cons_of_mem a hc), hwfirst⟩
          exact Option.some.inj (hl.symm.trans hwl)

/-! ## the first ones of a stable sort -/

variable {rank : α → κ} {a x : α} {xs ys zs ds : List α} {n p : ℕ}

theorem orderedInsert_append (h : ∀ b ∈ ys.head?, rank a ≤ rank b) :
    (xs ++ ys).orderedInsert (fun a b => rank a ≤ rank b) a = xs.orderedInsert (fun a b => rank a ≤ rank b) a ++ ys := by
  induction xs with
  | nil =>
    cases ys with
    | nil => rfl
    | cons y ys =>
      rw [List.nil_append, List.orderedInsert_cons, if_pos (h y rfl)]
      rfl
  | cons b xs ih =>
    rw [List.cons_append, List.orderedInsert_cons, List.orderedInsert_cons, ih]
    split <;> rfl

theorem orderedInsert_append_of_lt (h : ∀ b ∈ xs, rank b < rank a) :
    (xs ++ ys).orderedInsert (fun a b => rank a ≤ rank b) a = xs ++ ys.orderedInsert (fun a b => rank a ≤ rank b) a := by
  induction xs with
  | nil => rfl
  | cons b xs ih =>
    obtain ⟨hb, hxs⟩ := List.forall_mem_cons.mp h
    rw [List.cons_append, List.orderedInsert_cons, if_neg (not_le.mpr hb), ih hxs, List.cons_append]

/-- **Taking an element out** of a list takes it out of the sort. The elements in front of it stay in front of it, but
for those of a higher rank. -/
theorem ranked_remove (rank : α → κ) (xs ys : List α) (x : α) : ∃ us vs, ranked rank (xs ++ x :: ys) = us ++ x :: vs ∧
    ranked rank (xs ++ ys) = us ++ vs ∧ (xs.filter fun a => rank a ≤ rank x).Subperm us := by
  induction xs with
  | nil => exact ⟨_, _, List.orderedInsert_eq_take_drop _ x (ranked rank ys), (List.takeWhile_append_dropWhile).symm,
      List.nil_subperm⟩
  | cons a xs ih =>
    obtain ⟨us, vs, hwith, hwithout, hsub⟩ := ih
    have hsorted := ranked_pairwise rank (xs ++ x :: ys)
    rw [hwith, List.pairwise_append, List.pairwise_cons] at hsorted
    obtain ⟨-, ⟨hvs, -⟩, hus⟩ := hsorted
    show ∃ us vs, (ranked rank (xs ++ x :: ys)).orderedInsert (fun a b => rank a ≤ rank b) a = us ++ x :: vs ∧
      (ranked rank (xs ++ ys)).orderedInsert (fun a b => rank a ≤ rank b) a = us ++ vs ∧ _
    rw [hwith, hwithout]
    by_cases ha : rank a ≤ rank x
    · refine ⟨us.orderedInsert (fun a b => rank a ≤ rank b) a, vs, ?_, ?_, ?_⟩
      · exact orderedInsert_append fun b hb => Option.some.inj hb ▸ ha
      · exact orderedInsert_append fun b hb => ha.trans (hvs b (List.mem_of_mem_head? hb))
      · rw [List.filter_cons_of_pos (by simpa using ha)]
        exact ((List.subperm_cons a).mpr hsub).trans (List.perm_orderedInsert _ a us).symm.subperm
    · have hlt : ∀ b ∈ us, rank b < rank a := fun b hb => (hus b hb x List.mem_cons_self).trans_lt (not_le.mp ha)
      refine ⟨us, vs.orderedInsert (fun a b => rank a ≤ rank b) a, ?_, orderedInsert_append_of_lt hlt, ?_⟩
      · rw [orderedInsert_append_of_lt hlt, List.orderedInsert_cons, if_neg ha]
      · rw [List.filter_cons_of_neg (by simpa using ha)]
        exact hsub

theorem take_orderedInsert (n : ℕ) (l : List α) : (l.orderedInsert (fun a b => rank a ≤ rank b) a).take n =
    ((l.take n).orderedInsert (fun a b => rank a ≤ rank b) a).take n := by
  induction l generalizing n with
  | nil => rw [List.take_nil]
  | cons b l ih =>
    cases n with
    | zero => rfl
    | succ n =>
      rw [List.take_succ_cons, List.orderedInsert_cons, List.orderedInsert_cons]
      split
      · rw [List.take_succ_cons, List.take_succ_cons]
        cases n with
        | zero => rfl
        | succ n => rw [List.take_succ_cons, List.take_succ_cons, List.take_take, Nat.min_eq_left (Nat.le_succ n)]
      · rw [List.take_succ_cons, List.take_succ_cons, ih]

/-- The first ones depend on the first ones of the rest only. -/
theorem take_ranked_append (h : (ranked rank ys).take n = (ranked rank zs).take n) :
    (ranked rank (xs ++ ys)).take n = (ranked rank (xs ++ zs)).take n := by
  induction xs with
  | nil => exact h
  | cons a xs ih =>
    show ((ranked rank (xs ++ ys)).orderedInsert _ a).take n = ((ranked rank (xs ++ zs)).orderedInsert _ a).take n
    rw [take_orderedInsert, ih, ← take_orderedInsert]

/-- Elements that come after as many others are not among the first ones. -/
theorem take_ranked_drop (hn : n ≤ xs.length) (h : ∀ x ∈ ds, ∀ a ∈ xs, rank a ≤ rank x) :
    (ranked rank (xs ++ (ds ++ ys))).take n = (ranked rank (xs ++ ys)).take n := by
  induction ds with
  | nil => rfl
  | cons x ds ih =>
    obtain ⟨hx, hds⟩ := List.forall_mem_cons.mp h
    obtain ⟨us, vs, hwith, hwithout, hsub⟩ := ranked_remove rank xs (ds ++ ys) x
    rw [List.filter_eq_self.mpr fun a ha => decide_eq_true (hx a ha)] at hsub
    have hlen : n ≤ us.length := hn.trans hsub.length_le
    rw [← ih hds, List.cons_append, hwith, hwithout, List.take_append_of_le_length hlen,
      List.take_append_of_le_length hlen]

/-- **The first ones of several sorted lists** are among the first ones of each. -/
theorem take_ranked_flatten {ls : List (List α)} (hn : n ≤ p)
    (h : ∀ l ∈ ls, l.Pairwise fun a b => rank a ≤ rank b) :
    (ranked rank (ls.map (·.take p)).flatten).take n = (ranked rank ls.flatten).take n := by
  induction ls with
  | nil => rfl
  | cons l ls ih =>
    obtain ⟨hl, hls⟩ := List.forall_mem_cons.mp h
    rw [List.map_cons, List.flatten_cons, List.flatten_cons, take_ranked_append (ih hls)]
    by_cases hlen : l.length ≤ p
    · rw [List.take_of_length_le hlen]
    · rw [← List.take_append_drop p l, List.pairwise_append] at hl
      conv_rhs => rw [← List.take_append_drop p l, List.append_assoc]
      refine (take_ranked_drop ?_ fun x hx a ha => hl.2.2 a ha x hx).symm
      rw [List.length_take]
      omega

end

/-! ## grouping -/

section
variable {α κ : Type*} [DecidableEq κ]

/-- The keys of a dictionary that is filled from `ks`: insertion order is first occurrence. -/
def insertionOrder (ks : List κ) : List κ := ks.reverse.dedup.reverse

theorem mem_insertionOrder {ks : List κ} {k : κ} : k ∈ insertionOrder ks ↔ k ∈ ks := by
  simp [insertionOrder]

theorem insertionOrder_nodup (ks : List κ) : (insertionOrder ks).Nodup :=
  List.nodup_reverse.mpr (List.nodup_dedup _)

theorem insertionOrder_eq_self {ks : List κ} (h : ks.Nodup) : insertionOrder ks = ks := by
  rw [insertionOrder, (List.nodup_reverse.mpr h).dedup, List.reverse_reverse]

/-- The first key comes first. -/
theorem insertionOrder_cons (k : κ) (ks : List κ) : ∃ rest, insertionOrder (k :: ks) = k :: rest := by
  have hsuffix : [k] <:+ (ks.reverse ++ [k]).dedup := by
    rw [List.dedup_append]
    exact List.suffix_union_right _ _
  obtain ⟨rest, hrest⟩ := List.reverse_prefix.mpr hsuffix
  exact ⟨rest, by rw [insertionOrder, List.reverse_cons, ← hrest]; rfl⟩

/-- The lists of a dictionary `key → [elements]`, one after the other. -/
def grouped (key : α → κ) (l : List α) : List α :=
  (insertionOrder (l.map key)).flatMap fun k => l.filter fun a => key a = k

theorem mem_grouped {key : α → κ} {l : List α} {a : α} : a ∈ grouped key l ↔ a ∈ l := by
  simp only [grouped, List.mem_flatMap, mem_insertionOrder, List.mem_map, List.mem_filter,
    decide_eq_true_eq]
  constructor
  · rintro ⟨k, _, ha, _⟩
    exact ha
  · intro ha
    exact ⟨key a, ⟨a, ha, rfl⟩, ha, rfl⟩

theorem flatMap_ite_eq {β : Type*} {ks : List κ} (hnd : ks.Nodup) (k : κ) (f : κ → List β) :
    (ks.flatMap fun k' => if k' = k then f k' else []) = if k ∈ ks then f k else [] := by
  induction ks with
  | nil => rfl
  | cons k' ks ih =>
    obtain ⟨hk', hnd⟩ := List.nodup_cons.mp hnd
    rw [List.flatMap_cons, ih hnd]
    by_cases h : k' = k
    · subst h
      simp [hk']
    · have h' : ¬ k = k' := fun e => h e.symm
      simp [h, h']

/-- Grouping keeps the order of the elements of one key. -/
theorem filter_grouped {key : α → κ} {l : List α} (p : α → Bool) (k : κ)
    (hp : ∀ a, p a = true → key a = k) : (grouped key l).filter p = l.filter p := by
  have hpart : ∀ k', (l.filter fun a => key a = k').filter p = if k' = k then l.filter p else [] := by
    intro k'
    rw [List.filter_filter]
    split
    · rename_i h
      subst h
      exact List.filter_congr fun a _ => by
        by_cases hpa : p a <;> simp [hpa, hp a]
    · rename_i h
      refine List.filter_eq_nil_iff.mpr fun a _ hboth => h ?_
      rw [Bool.and_eq_true, decide_eq_true_eq] at hboth
      exact hboth.2.symm.trans (hp a hboth.1)
  rw [grouped, List.filter_flatMap, List.flatMap_congr fun k' _ => hpart k',
    flatMap_ite_eq (insertionOrder_nodup _) k fun _ => l.filter p]
  by_cases hk : k ∈ insertionOrder (l.map key)
  · rw [if_pos hk]
  · rw [if_neg hk, eq_comm, List.filter_eq_nil_iff]
    intro a ha hpa
    exact hk (mem_insertionOrder.mpr (List.mem_map.mpr ⟨a, ha, hp a hpa⟩))

end
/-! ## the first of the greatest -/

section
variable {α β κ : Type*} [LinearOrder κ] (measure : α → κ)

/-- `if current is None or measure(a) > measure(current): current = a` -/
def keepBest (current : Option α) (a : α) : Option α :=
  if current.all fun c => measure c < measure a then some a else current

def best (l : List α) : Option α := l.foldl (keepBest measure) none

variable {measure} {l l' : List α} {a : α}

theorem foldl_keepBest_some (h : ∀ b ∈ l, measure b ≤ measure a) :
    l.foldl (keepBest measure) (some a) = some a := by
  induction l with
  | nil => rfl
  | cons b l ih =>
    have hb : ¬ measure a < measure b := not_lt.mpr (h b List.mem_cons_self)
    rw [List.foldl_cons, keepBest, if_neg (by simpa using hb)]
    exact ih fun c hc => h c (List.mem_cons_of_mem _ hc)

theorem foldl_keepBest_of_lt {current : Option α} {xs ys : List α} (hcurrent : ∀ c ∈ current, measure c < measure a)
    (hxs : ∀ b ∈ xs, measure b < measure a) (hys : ∀ b ∈ ys, measure b ≤ measure a) :
    (xs ++ a :: ys).foldl (keepBest measure) current = some a := by
  induction xs generalizing current with
  | nil =>
    rw [List.nil_append, List.foldl_cons, keepBest, if_pos]
    · exact foldl_keepBest_some hys
    · cases current with
      | none => rfl
      | some c => simpa using hcurrent c rfl
  | cons b xs ih =>
    rw [List.cons_append, List.foldl_cons]
    refine ih ?_ fun c hc => hxs c (List.mem_cons_of_mem _ hc)
    intro c hc
    unfold keepBest at hc
    split at hc
    · exact Option.some.inj hc ▸ hxs b List.mem_cons_self
    · exact hcurrent c hc

theorem best_cons (h : ∀ b ∈ l, measure b ≤ measure a) : best measure (a :: l) = some a :=
  @foldl_keepBest_of_lt _ _ _ measure a none [] l (fun _ hc => nomatch hc) (fun _ hb => nomatch hb) h

/-- One of the greatest is kept. -/
theorem exists_best (measure : α → κ) (h : l ≠ []) : ∃ a ∈ l, best measure l = some a ∧ ∀ b ∈ l, measure b ≤ measure a := by
  suffices hgen : ∀ (l : List α) (c : α), ∃ a, (a = c ∨ a ∈ l) ∧ l.foldl (keepBest measure) (some c) = some a ∧
      measure c ≤ measure a ∧ ∀ b ∈ l, measure b ≤ measure a by
    obtain ⟨c, l, rfl⟩ := List.exists_cons_of_ne_nil h
    obtain ⟨a, ha, hbest, hc, hmax⟩ := hgen l c
    refine ⟨a, by simpa using ha, hbest, fun b hb => ?_⟩
    rcases List.mem_cons.mp hb with rfl | hb
    · exact hc
    · exact hmax b hb
  intro l
  induction l with
  | nil => exact fun c => ⟨c, .inl rfl, rfl, le_rfl, fun b hb => nomatch hb⟩
  | cons b l ih =>
    intro c
    rw [List.foldl_cons, keepBest]
    by_cases hlt : measure c < measure b
    · rw [if_pos (by simpa using hlt)]
      obtain ⟨a, ha, hbest, hb, hmax⟩ := ih b
      refine ⟨a, .inr (List.mem_cons.mpr ha), hbest, hlt.le.trans hb, fun d hd => ?_⟩
      rcases List.mem_cons.mp hd with rfl | hd
      · exact hb
      · exact hmax d hd
    · rw [if_neg (by simpa using hlt)]
      obtain ⟨a, ha, hbest, hc, hmax⟩ := ih c
      refine ⟨a, ha.imp_right (List.mem_cons_of_mem _), hbest, hc, fun d hd => ?_⟩
      rcases List.mem_cons.mp hd with rfl | hd
      · exact (not_lt.mp hlt).trans hc
      · exact hmax d hd

theorem best_spec (h : best measure l = some a) : a ∈ l ∧ ∀ b ∈ l, measure b ≤ measure a := by
  cases l with
  | nil => cases h
  | cons c l =>
    obtain ⟨b, hb, hbest, hmax⟩ := exists_best measure (List.cons_ne_nil c l)
    rw [h] at hbest
    cases hbest
    exact ⟨hb, hmax⟩

/-- A single greatest element is found in any order. -/
theorem best_eq_best (h : l.Perm l') (hone : ∀ a ∈ l, ∀ b ∈ l, (∀ c ∈ l, measure c ≤ measure a) →
    (∀ c ∈ l, measure c ≤ measure b) → a = b) : best measure l = best measure l' := by
  by_cases hnil : l = []
  · subst hnil
    rw [List.nil_perm.mp h]
  · obtain ⟨a, ha, hbest, hmax⟩ := exists_best measure hnil
    have hnil' : l' ≠ [] := fun hl' => hnil (List.perm_nil.mp (hl' ▸ h))
    obtain ⟨b, hb, hbest', hmax'⟩ := exists_best measure hnil'
    rw [hbest, hbest', hone a ha b (h.mem_iff.mpr hb) hmax fun c hc => hmax' c (h.mem_iff.mp hc)]

theorem foldl_keepBest_map {f : β → α} {xs : List β} {current : Option β} :
    (xs.map f).foldl (keepBest measure) (current.map f) =
      (xs.foldl (keepBest fun b => measure (f b)) current).map f := by
  induction xs generalizing current with
  | nil => rfl
  | cons x xs ih =>
    rw [List.map_cons, List.foldl_cons, List.foldl_cons, ← ih]
    congr 1
    cases current with
    | none => rfl
    | some c =>
      by_cases hlt : measure (f c) < measure (f x)
      · rw [keepBest, keepBest, if_pos (by simpa using hlt), if_pos (by simpa using hlt)]
        rfl
      · rw [keepBest, keepBest, if_neg (by simpa using hlt), if_neg (by simpa using hlt)]

end

/-! ## comparisons that may fail -/

section
variable {α κ ε : Type} (lt : α → α → Except ε Bool)

def insertM (a : α) : List α → Except ε (List α)
  | [] => .ok [a]
  | b :: l => do
    if ← lt b a then return b :: (← insertM a l)
    else return a :: b :: l

/-- A stable sort: it asks only whether an element is less than another one. -/
def sortM : List α → Except ε (List α)
  | [] => .ok []
  | a :: l => do insertM lt a (← sortM l)

variable {lt} [LinearOrder κ] {rank : α → κ} {a : α} {l : List α}

theorem insertM_eq (h : ∀ b ∈ l, lt b a = .ok (decide (rank b < rank a))) :
    insertM lt a l = .ok (l.orderedInsert (fun a b => rank a ≤ rank b) a) := by
  induction l with
  | nil => rfl
  | cons b l ih =>
    rw [insertM, h b List.mem_cons_self, List.orderedInsert_cons]
    show (if decide (rank b < rank a) = true then (insertM lt a l).bind fun l => .ok (b :: l)
      else .ok (a :: b :: l)) = _
    rw [ih fun b hb => h b (List.mem_cons_of_mem _ hb)]
    by_cases hlt : rank b < rank a
    · rw [if_pos (decide_eq_true hlt), if_neg hlt.not_ge]
      rfl
    · rw [if_neg (by rwa [decide_eq_true_iff]), if_pos (not_lt.mp hlt)]

/-- When no comparison fails, it is the sort. -/
theorem sortM_eq (h : ∀ a ∈ l, ∀ b ∈ l, lt a b = .ok (decide (rank a < rank b))) :
    sortM lt l = .ok (ranked rank l) := by
  induction l with
  | nil => rfl
  | cons a l ih =>
    rw [sortM, ih fun a ha b hb => h a (List.mem_cons_of_mem _ ha) b (List.mem_cons_of_mem _ hb)]
    exact insertM_eq fun b hb => h b (List.mem_cons_of_mem _ (mem_ranked.mp hb)) a List.mem_cons_self

end

end Kajet.Rank
