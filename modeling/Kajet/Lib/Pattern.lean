import Mathlib.Data.List.Basic
import Mathlib.Data.List.Forall2
import Mathlib.Tactic.Common

/-!
# Patterns of fixed parts and greedy runs

A pattern is a list of items: a part with one class for each of its elements, or a run of one or more
elements of the class `p`.  `split` cuts a list into the parts of its items the way a backtracking
matcher does, which tries the longest run first.

* `Fits`, `split_fits`   what `split` returns fits item by item;
* `split_isSome`         it finds a cut when there is one;
* `split_first`          its first run is at least as long as that of any cut;
* `Cuts`, `split_longest`   the one whose parts are the longest, the first before the others;
* `Separated`, `fits_unique`   where something that is not in `p` stands between any two runs there is one
                         cut only.
-/

namespace Kajet.Pattern

variable {α : Type*}

inductive Item (α : Type*) where
  | fixed (atoms : List (α → Bool))
  | run

variable (p : α → Bool)

/-- The part that an item takes. -/
def Item.Fits : Item α → List α → Prop
  | .fixed atoms, t => List.Forall₂ (fun a x => a x = true) atoms t
  | .run, t => t ≠ [] ∧ ∀ x ∈ t, p x = true

abbrev Fits (items : List (Item α)) (parts : List (List α)) : Prop := List.Forall₂ (Item.Fits p) items parts

def fitsAtoms (atoms : List (α → Bool)) (s : List α) : Bool :=
  atoms.length ≤ s.length ∧ (atoms.zip s).all fun x => x.1 x.2

/-- The lengths of a run, the longest first. -/
def lengths (s : List α) : List ℕ := (List.range' 1 (s.takeWhile p).length).reverse

/-- The parts of the items; `stop` says where the match may end. -/
def split (stop : List α → Bool) : List (Item α) → List α → Option (List (List α))
  | [], s => if stop s then some [] else none
  | .fixed atoms :: rest, s =>
    if fitsAtoms atoms s then (split stop rest (s.drop atoms.length)).map (s.take atoms.length :: ·) else none
  | .run :: rest, s => (lengths p s).findSome? fun k => (split stop rest (s.drop k)).map (s.take k :: ·)

variable {p} {stop : List α → Bool} {items rest pre : List (Item α)} {parts parts' : List (List α)} {s t u : List α}
  {atoms : List (α → Bool)} {k : ℕ}

/-! ## what a match is -/

theorem fitsAtoms_iff : fitsAtoms atoms s = true ↔
    List.Forall₂ (fun a x => a x = true) atoms (s.take atoms.length) := by
  unfold fitsAtoms
  rw [decide_eq_true_iff]
  induction atoms generalizing s with
  | nil => simp
  | cons a atoms ih =>
    cases s with
    | nil => simp
    | cons x s =>
      rw [List.length_cons, List.take_succ_cons, List.forall₂_cons, ← ih]
      simp [and_left_comm]

theorem fitsAtoms_append (h : List.Forall₂ (fun a x => a x = true) atoms t) : fitsAtoms atoms (t ++ u) = true := by
  rw [fitsAtoms_iff, h.length_eq, List.take_left]
  exact h

theorem mem_lengths : k ∈ lengths p s ↔ 1 ≤ k ∧ k ≤ s.length ∧ ∀ x ∈ s.take k, p x = true := by
  rw [lengths, List.mem_reverse, List.mem_range'_1]
  refine and_congr_right fun hk => ?_
  induction s generalizing k with
  | nil => simp
  | cons x s ih =>
    obtain ⟨k, rfl⟩ := Nat.exists_eq_add_of_le' hk
    rw [List.takeWhile_cons, List.take_succ_cons, List.length_cons]
    cases hx : p x with
    | false => simp [hx]
    | true =>
      rcases Nat.eq_zero_or_pos k with rfl | hpos
      · simp [hx]
      · have hrest := ih hpos
        simp only [if_true, List.length_cons, List.forall_mem_cons, hx, true_and]
        constructor
        · intro hlt
          obtain ⟨hle, hall⟩ := hrest.mp (by omega)
          exact ⟨by omega, hall⟩
        · rintro ⟨hle, hall⟩
          have hlt := hrest.mpr ⟨by omega, hall⟩
          omega

theorem split_fits (h : split p stop items s = some parts) :
    Fits p items parts ∧ ∃ t, s = parts.flatten ++ t ∧ stop t = true := by
  induction items generalizing s parts with
  | nil =>
    unfold split at h
    split at h
    · rename_i hstop
      cases h
      exact ⟨.nil, s, rfl, hstop⟩
    · cases h
  | cons item rest ih =>
    cases item with
    | fixed atoms =>
      unfold split at h
      split at h
      · rename_i hatoms
        obtain ⟨parts, hrest, rfl⟩ := Option.map_eq_some_iff.mp h
        obtain ⟨hfits, t, hs, hstop⟩ := ih hrest
        refine ⟨.cons (fitsAtoms_iff.mp hatoms) hfits, t, ?_, hstop⟩
        rw [List.flatten_cons, List.append_assoc, ← hs, List.take_append_drop]
      · cases h
    | run =>
      obtain ⟨k, hk, hmap⟩ := List.exists_of_findSome?_eq_some h
      obtain ⟨hpos, hle, hall⟩ := mem_lengths.mp hk
      obtain ⟨parts, hrest, rfl⟩ := Option.map_eq_some_iff.mp hmap
      obtain ⟨hfits, t, hs, hstop⟩ := ih hrest
      refine ⟨.cons ⟨fun hnil => ?_, hall⟩ hfits, t, ?_, hstop⟩
      · have hlen := congrArg List.length hnil
        rw [List.length_take, List.length_nil] at hlen
        omega
      · rw [List.flatten_cons, List.append_assoc, ← hs, List.take_append_drop]

/-- A run that fits is among the lengths that are tried. -/
theorem length_mem_lengths (h : t ≠ []) (hall : ∀ x ∈ t, p x = true) : t.length ∈ lengths p (t ++ u) := by
  refine mem_lengths.mpr ⟨List.length_pos_iff.mpr h, ?_, ?_⟩
  · rw [List.length_append]
    exact Nat.le_add_right _ _
  · rw [List.take_left]
    exact hall

theorem split_isSome (h : Fits p items parts) (hstop : stop t = true) :
    (split p stop items (parts.flatten ++ t)).isSome = true := by
  induction h with
  | nil =>
    unfold split
    rw [List.flatten_nil, List.nil_append, if_pos hstop]
    rfl
  | @cons item part rest parts hitem hrest ih =>
    rw [List.flatten_cons, List.append_assoc]
    cases item with
    | fixed atoms =>
      have hlen : atoms.length = part.length := List.Forall₂.length_eq hitem
      unfold split
      rw [if_pos (fitsAtoms_append hitem), hlen, List.drop_left, Option.isSome_map]
      exact ih
    | run =>
      unfold split
      rw [List.findSome?_isSome_iff]
      refine ⟨part.length, length_mem_lengths hitem.1 hitem.2, ?_⟩
      rw [List.drop_left, Option.isSome_map]
      exact ih

/-! ## the longest run first -/

/-- Among the lengths that lead on, the first is the longest. -/
theorem findSome?_lengths {β : Type*} {f : ℕ → Option β} {b : β} (h : (lengths p s).findSome? f = some b)
    (hk : k ∈ lengths p s) (hsome : (f k).isSome = true) : ∃ m ∈ lengths p s, k ≤ m ∧ f m = some b := by
  have hsorted : (lengths p s).Pairwise (fun x y => y < x) := by
    rw [lengths, List.pairwise_reverse]
    exact List.pairwise_lt_range'
  obtain ⟨before, m, after, hsplit, hm, hnone⟩ := List.findSome?_eq_some_iff.mp h
  refine ⟨m, hsplit ▸ List.mem_append_right _ List.mem_cons_self, ?_, hm⟩
  rw [hsplit] at hk hsorted
  rcases List.mem_append.mp hk with hbefore | hk
  · rw [hnone k hbefore] at hsome
    cases hsome
  · rcases List.mem_cons.mp hk with rfl | hafter
    · exact Nat.le_refl _
    · exact Nat.le_of_lt (List.rel_of_pairwise_cons (List.pairwise_append.mp hsorted).2.1 hafter)

/-- The first run is at least as long as that of any cut, and begins where it does. -/
theorem split_first (hpre : ∀ item ∈ pre, item ≠ .run) (h : Fits p (pre ++ .run :: rest) parts) (hstop : stop t = true)
    (hsplit : split p stop (pre ++ .run :: rest) (parts.flatten ++ t) = some parts') :
    ∃ part ∈ parts[pre.length]?, ∃ part' ∈ parts'[pre.length]?, part <+: part' := by
  induction pre generalizing parts parts' with
  | nil =>
    obtain ⟨part, parts, hitem, hrest, rfl⟩ := List.forall₂_cons_left_iff.mp h
    rw [List.nil_append, List.flatten_cons, List.append_assoc] at hsplit
    unfold split at hsplit
    obtain ⟨m, hmem, hm, hparts⟩ := findSome?_lengths hsplit (length_mem_lengths hitem.1 hitem.2) (by
      rw [List.drop_left, Option.isSome_map]
      exact split_isSome hrest hstop)
    obtain ⟨tail, -, rfl⟩ := Option.map_eq_some_iff.mp hparts
    refine ⟨part, rfl, _, rfl, List.prefix_of_prefix_length_le (List.prefix_append part (parts.flatten ++ t))
      (List.take_prefix m _) ?_⟩
    rw [List.length_take, Nat.min_eq_left (mem_lengths.mp hmem).2.1]
    exact hm
  | cons item pre ih =>
    obtain ⟨part, parts, hitem, hrest, rfl⟩ := List.forall₂_cons_left_iff.mp h
    cases item with
    | run => exact (hpre _ List.mem_cons_self rfl).elim
    | fixed atoms =>
      have hlen : atoms.length = part.length := List.Forall₂.length_eq hitem
      rw [List.cons_append, List.flatten_cons, List.append_assoc] at hsplit
      unfold split at hsplit
      rw [if_pos (fitsAtoms_append hitem), hlen, List.drop_left] at hsplit
      obtain ⟨tail, htail, rfl⟩ := Option.map_eq_some_iff.mp hsplit
      exact ih (fun item hmem => hpre item (List.mem_cons_of_mem _ hmem)) hrest htail

/-- A cut along the items, which may leave what `stop` allows. -/
def Cuts (p : α → Bool) (stop : List α → Bool) (items : List (Item α)) (s : List α) (parts : List (List α)) : Prop :=
  Fits p items parts ∧ ∃ t, s = parts.flatten ++ t ∧ stop t = true

/-- The first parts that differ in length are longer in the second cut. -/
def Longer (parts parts' : List (List α)) : Prop := List.Lex (· < ·) (parts.map List.length) (parts'.map List.length)

theorem longer_cons : Longer (t :: parts) (u :: parts') ↔
    t.length < u.length ∨ t.length = u.length ∧ Longer parts parts' := List.cons_lex_cons_iff

/-- The cut that is found has the longest parts, the first before the others. -/
theorem split_longest (h : split p stop items s = some parts) (h' : Cuts p stop items s parts') :
    ¬ Longer parts parts' := by
  induction items generalizing s parts parts' with
  | nil =>
    cases h'.1
    exact List.not_lex_nil
  | cons item rest ih =>
    obtain ⟨hfits, t, rfl, hstop⟩ := h'
    obtain ⟨part', tail', hitem, hrest, rfl⟩ := List.forall₂_cons_left_iff.mp hfits
    rw [List.flatten_cons, List.append_assoc] at h
    cases item with
    | fixed atoms =>
      have hlen : atoms.length = part'.length := List.Forall₂.length_eq hitem
      unfold split at h
      rw [if_pos (fitsAtoms_append hitem), hlen, List.drop_left, List.take_left] at h
      obtain ⟨tail, htail, rfl⟩ := Option.map_eq_some_iff.mp h
      rw [longer_cons]
      rintro (hlt | ⟨-, hlonger⟩)
      · exact Nat.lt_irrefl _ hlt
      · exact ih htail ⟨hrest, t, rfl, hstop⟩ hlonger
    | run =>
      unfold split at h
      obtain ⟨m, hmem, hm, hparts⟩ := findSome?_lengths h (length_mem_lengths hitem.1 hitem.2) (by
        rw [List.drop_left, Option.isSome_map]
        exact split_isSome hrest hstop)
      obtain ⟨tail, htail, rfl⟩ := Option.map_eq_some_iff.mp hparts
      rw [longer_cons, List.length_take, Nat.min_eq_left (mem_lengths.mp hmem).2.1]
      rintro (hlt | ⟨rfl, hlonger⟩)
      · exact Nat.not_lt.mpr hm hlt
      · rw [List.drop_left] at htail
        exact ih htail ⟨hrest, t, rfl, hstop⟩ hlonger

/-! ## one cut -/

/-- The classes up to the next run. -/
def lead : List (Item α) → List (α → Bool)
  | .fixed atoms :: rest => atoms ++ lead rest
  | _ => []

/-- There is no run left, or a class that excludes `p` comes before it, and classes within `p` before that. -/
def Fenced (p : α → Bool) (items : List (Item α)) : Prop :=
  (∀ item ∈ items, item ≠ .run) ∨ ∃ before a after, lead items = before ++ a :: after ∧
    (∀ b ∈ before, ∀ x, b x = true → p x = true) ∧ ∀ x, a x = true → p x = false

/-- Any two runs are kept apart. -/
def Separated (p : α → Bool) : List (Item α) → Prop
  | [] => True
  | .fixed _ :: rest => Separated p rest
  | .run :: rest => Fenced p rest ∧ Separated p rest

theorem fits_lead (h : Fits p items parts) : ∃ v w, parts.flatten = v ++ w ∧
    List.Forall₂ (fun a x => a x = true) (lead items) v ∧ ((∀ item ∈ items, item ≠ .run) → w = []) := by
  induction h with
  | nil => exact ⟨[], [], rfl, .nil, fun _ => rfl⟩
  | @cons item part rest parts hitem hrest ih =>
    cases item with
    | run => exact ⟨[], _, rfl, .nil, fun hno => (hno _ List.mem_cons_self rfl).elim⟩
    | fixed atoms =>
      obtain ⟨v, w, hparts, hv, hw⟩ := ih
      refine ⟨part ++ v, w, ?_, List.rel_append hitem hv, fun hno => hw fun item hmem => hno item (List.mem_cons_of_mem _ hmem)⟩
      rw [List.flatten_cons, hparts, List.append_assoc]

/-- What precedes the first element outside `p` is as long as the classes before it. -/
theorem takeWhile_lead {before after : List (α → Bool)} {a : α → Bool} {v w : List α}
    (h : List.Forall₂ (fun a x => a x = true) (before ++ a :: after) v)
    (hbefore : ∀ b ∈ before, ∀ x, b x = true → p x = true) (ha : ∀ x, a x = true → p x = false) :
    ((v ++ w).takeWhile p).length = before.length := by
  induction before generalizing v with
  | nil =>
    obtain ⟨x, v, hx, -, rfl⟩ := List.forall₂_cons_left_iff.mp h
    rw [List.cons_append, List.takeWhile_cons, ha x hx]
    rfl
  | cons b before ih =>
    obtain ⟨x, v, hx, hv, rfl⟩ := List.forall₂_cons_left_iff.mp h
    rw [List.cons_append, List.takeWhile_cons, hbefore b List.mem_cons_self x hx, if_pos rfl, List.length_cons,
      ih hv fun b hb => hbefore b (List.mem_cons_of_mem _ hb), List.length_cons]

/-- A run before a fence can take nothing of what follows. -/
theorem fenced_nil (hfence : Fenced p items) (h : Fits p items parts) (h' : Fits p items parts')
    (hu : ∀ x ∈ u, p x = true) (heq : parts.flatten = u ++ parts'.flatten) : u = [] := by
  obtain ⟨v, w, hparts, hv, hw⟩ := fits_lead h
  obtain ⟨v', w', hparts', hv', hw'⟩ := fits_lead h'
  rcases hfence with hno | ⟨before, a, after, hlead, hbefore, ha⟩
  · have hlen := congrArg List.length heq
    rw [hparts, hparts', hw hno, hw' hno, List.append_nil, List.append_nil, List.length_append, ← hv.length_eq,
      ← hv'.length_eq] at hlen
    exact List.length_eq_zero_iff.mp (by omega)
  · have hfirst := takeWhile_lead (w := w) (hlead ▸ hv) hbefore ha
    have hsecond := takeWhile_lead (w := w') (hlead ▸ hv') hbefore ha
    rw [← hparts, heq, List.takeWhile_append_of_pos hu, List.length_append, hparts', hsecond] at hfirst
    exact List.length_eq_zero_iff.mp (by omega)

/-- Two runs are kept apart where there is one at most. -/
theorem separated_of_pairwise (h : items.Pairwise fun i j => i = .run → j ≠ .run) : Separated p items := by
  induction h with
  | nil => trivial
  | @cons item rest hitem _ ih =>
    cases item with
    | fixed atoms => exact ih
    | run => exact ⟨.inl fun j hj => hitem j hj rfl, ih⟩

/-- **One cut.**  Where any two runs are kept apart, the parts of a list are determined. -/
theorem fits_unique (hsep : Separated p items) (h : Fits p items parts) (h' : Fits p items parts')
    (heq : parts.flatten = parts'.flatten) : parts = parts' := by
  induction h generalizing parts' with
  | nil =>
    cases h'
    rfl
  | @cons item part rest parts hitem hrest ih =>
    obtain ⟨part', parts', hitem', hrest', rfl⟩ := List.forall₂_cons_left_iff.mp h'
    rw [List.flatten_cons, List.flatten_cons] at heq
    have hlen : part.length = part'.length → part :: parts = part' :: parts' := fun hlen => by
      obtain ⟨rfl, htail⟩ := List.append_inj heq hlen
      rw [ih (by cases item with | fixed atoms => exact hsep | run => exact hsep.2) hrest' htail]
    apply hlen
    cases item with
    | fixed atoms => exact (List.Forall₂.length_eq hitem).symm.trans (List.Forall₂.length_eq hitem')
    | run =>
      -- the longer run would have taken elements of `p` of what follows
      rcases List.append_eq_append_iff.mp heq with ⟨u, rfl, htail⟩ | ⟨u, rfl, htail⟩
      · rw [fenced_nil hsep.1 hrest hrest' (fun x hx => hitem'.2 x (List.mem_append_right _ hx)) htail, List.append_nil]
      · rw [fenced_nil hsep.1 hrest' hrest (fun x hx => hitem.2 x (List.mem_append_right _ hx)) htail, List.append_nil]

end Kajet.Pattern
