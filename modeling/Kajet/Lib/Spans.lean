import Mathlib.Data.List.DropRight
import Mathlib.Data.List.Basic
import Mathlib.Data.List.Forall2
import Mathlib.Tactic.Common

/-!
# Pieces of a text and where they come from

`blank` selects the characters that do not count; `ink` is what counts of a text.

* `Reads`    the positions `ps` of a text, read one after the other;
* `Covers`   a piece has what it has from positions inside of its span;
* `Laid`     the pieces have together exactly the positions `ps`, in order; their spans are in order as well;
* `Laid.join`, `Laid.refine`   two neighbours become one piece, one piece becomes several.
-/

namespace Kajet.Spans

section
variable {α : Type*} (blank : α → Bool)

/-- What is not blank. -/
def ink (s : List α) : List α := s.filter fun c => !blank c

/-- `text[a:b]` -/
def slice (text : List α) (a b : ℕ) : List α := (text.drop a).take (b - a)

variable {blank} {p : α → Bool} {s t sep : List α}

@[simp] theorem ink_nil : ink blank [] = [] := rfl

@[simp] theorem ink_append : ink blank (s ++ t) = ink blank s ++ ink blank t := List.filter_append _ _

theorem ink_eq_nil : ink blank s = [] ↔ ∀ c ∈ s, blank c = true := by
  simp [ink]

theorem ink_cons_of_blank {c : α} (h : blank c = true) : ink blank (c :: s) = ink blank s :=
  List.filter_cons_of_neg (by simp [h])

theorem ink_dropWhile (h : ∀ c, p c = true → blank c = true) : ink blank (s.dropWhile p) = ink blank s := by
  induction s with
  | nil => rfl
  | cons c s ih =>
    cases hc : p c with
    | true => rw [List.dropWhile_cons_of_pos hc, ih, ink_cons_of_blank (h c hc)]
    | false => rw [List.dropWhile_cons_of_neg (by simp [hc])]

theorem ink_rdropWhile (h : ∀ c, p c = true → blank c = true) :
    ink blank (s.rdropWhile p) = ink blank s := by
  induction s using List.reverseRecOn with
  | nil => rfl
  | append_singleton s c ih =>
    cases hc : p c with
    | true => rw [List.rdropWhile_concat_pos _ _ _ hc, ih, ink_append, ink_cons_of_blank (h c hc), ink_nil, List.append_nil]
    | false => rw [List.rdropWhile_concat_neg _ _ _ (by simp [hc])]

theorem ink_intercalate (hsep : ink blank sep = []) (ls : List (List α)) :
    ink blank (sep.intercalate ls) = ink blank ls.flatten := by
  induction ls with
  | nil => rfl
  | cons l ls ih =>
    cases ls with
    | nil => simp
    | cons m ls =>
      rw [List.intercalate_cons_cons, ink_append, ink_append, hsep, ih, List.append_nil, ← ink_append]
      rfl

end

/-! ## positions -/

section
variable {α : Type*} {text s t : List α} {ps qs : List ℕ} {a b c : ℕ}

/-- What stands at the positions `ps` of the text is `s`. -/
def Reads (text : List α) (ps : List ℕ) (s : List α) : Prop := ps.map (text[·]?) = s.map some

theorem Reads.append (h : Reads text ps s) (h' : Reads text qs t) : Reads text (ps ++ qs) (s ++ t) := by
  rw [Reads, List.map_append, List.map_append, h, h']

theorem Reads.eq_nil (h : Reads text ps []) : ps = [] := List.map_eq_nil_iff.mp h

theorem Reads.filterMap (h : Reads text ps s) : ps.filterMap (text[·]?) = s := by
  have h := congrArg (List.filterMap id) h
  rw [List.filterMap_map, List.filterMap_map, Function.id_comp, Function.id_comp, List.filterMap_some] at h
  exact h

theorem reads_slice (hb : b ≤ text.length) : Reads text (List.range' a (b - a)) (slice text a b) := by
  apply List.ext_getElem?
  intro i
  rw [List.getElem?_map, List.getElem?_map, slice, List.getElem?_take]
  by_cases hi : i < b - a
  · rw [if_pos hi, List.getElem?_range' hi, List.getElem?_drop, Option.map_some, Nat.one_mul,
      List.getElem?_eq_getElem (by omega)]
    rfl
  · rw [if_neg hi, List.getElem?_eq_none (by simpa using hi)]
    rfl

end

section
variable {α : Type*} (blank : α → Bool) (text : List α)

/-- There is something at the position that is not blank. -/
def inkAt (i : ℕ) : Bool := (text[i]?).any fun c => !blank c

/-- The positions from `a` to `b` that count. -/
def inkBetween (a b : ℕ) : List ℕ := (List.range' a (b - a)).filter (inkAt blank text)

/-- A piece of the text, and the span it is said to come from. -/
structure Span (α : Type*) where
  content : List α
  start : ℕ
  stop : ℕ

structure Covers (ps : List ℕ) (x : Span α) : Prop where
  reads : Reads text ps (ink blank x.content)
  within : ∀ i ∈ ps, x.start ≤ i ∧ i < x.stop

/-- The pieces `xs` have the positions `ps`, each of them once and in order. -/
def Placed (ps : List ℕ) (xs : List (Span α)) : Prop :=
  ∃ pss : List (List ℕ), pss.flatten = ps ∧ List.Forall₂ (Covers blank text) pss xs

structure Laid (ps : List ℕ) (xs : List (Span α)) : Prop where
  placed : Placed blank text ps xs
  ordered : xs.Pairwise fun x y => x.start ≤ y.start ∧ x.stop ≤ y.stop
  inside : ∀ x ∈ xs, x.start ≤ x.stop ∧ x.stop ≤ text.length

variable {blank text} {ps qs : List ℕ} {x y z : Span α} {l r xs ys : List (Span α)} {s : List α} {a b c : ℕ}

theorem Reads.ink (h : Reads text ps s) : Reads text (ps.filter (inkAt blank text)) (ink blank s) := by
  induction ps generalizing s with
  | nil =>
    obtain rfl : s = [] := List.map_eq_nil_iff.mp h.symm
    rfl
  | cons i ps ih =>
    cases s with
    | nil => cases h
    | cons c s =>
      obtain ⟨hc, hs⟩ := List.cons_eq_cons.mp h
      have ih := ih hs
      have hat : inkAt blank text i = !blank c := by
        rw [inkAt, show text[i]? = some c from hc, Option.any_some]
      rw [List.filter_cons, Spans.ink, List.filter_cons, hat]
      split
      · exact List.cons_eq_cons.mpr ⟨hc, ih⟩
      · exact ih

theorem range'_split (hab : a ≤ b) (hbc : b ≤ c) :
    List.range' a (c - a) = List.range' a (b - a) ++ List.range' b (c - b) := by
  have h := List.range'_append_1 (s := a) (m := b - a) (n := c - b)
  rw [show a + (b - a) = b by omega, show b - a + (c - b) = c - a by omega] at h
  exact h.symm

variable (blank) in
theorem covers_slice (hb : b ≤ text.length) :
    Covers blank text (inkBetween blank text a b) ⟨slice text a b, a, b⟩ := by
  refine ⟨(reads_slice hb).ink, fun i hi => ?_⟩
  obtain ⟨h, -⟩ := List.mem_filter.mp hi
  have hrange := List.mem_range'_1.mp h
  dsimp only
  omega

/-! ## laying out -/

theorem placed_nil : Placed blank text [] [] := ⟨[], rfl, .nil⟩

theorem Placed.cons (hx : Covers blank text qs x) (h : Placed blank text ps xs) :
    Placed blank text (qs ++ ps) (x :: xs) := by
  obtain ⟨pss, rfl, hpss⟩ := h
  exact ⟨qs :: pss, rfl, .cons hx hpss⟩

theorem placed_cons : Placed blank text ps (x :: xs) ↔
    ∃ qs rs, ps = qs ++ rs ∧ Covers blank text qs x ∧ Placed blank text rs xs := by
  constructor
  · rintro ⟨pss, rfl, hpss⟩
    cases hpss with
    | cons hx hxs => exact ⟨_, _, rfl, hx, _, rfl, hxs⟩
  · rintro ⟨qs, rs, rfl, hx, hxs⟩
    exact hxs.cons hx

theorem placed_singleton : Placed blank text ps [x] ↔ Covers blank text ps x := by
  rw [placed_cons]
  constructor
  · rintro ⟨qs, _, rfl, hx, pss, rfl, hpss⟩
    cases hpss
    rwa [List.flatten_nil, List.append_nil]
  · exact fun hx => ⟨ps, [], (List.append_nil ps).symm, hx, placed_nil⟩

/-- The positions of a piece that falls into parts fall into parts as well. -/
theorem placed_of_reads (h : Reads text ps (ys.flatMap fun y => ink blank y.content))
    (hwithin : ∀ i ∈ ps, a ≤ i ∧ i < b) (hys : ∀ y ∈ ys, y.start = a ∧ y.stop = b) :
    Placed blank text ps ys := by
  induction ys generalizing ps with
  | nil =>
    obtain rfl := h.eq_nil
    exact placed_nil
  | cons y ys ih =>
    rw [Reads, List.flatMap_cons, List.map_append] at h
    obtain ⟨qs, rs, rfl, hqs, hrs⟩ := List.map_eq_append_iff.mp h
    obtain ⟨hstart, hstop⟩ := hys y List.mem_cons_self
    have hrest := ih hrs (fun i hi => hwithin i (List.mem_append_right _ hi))
      fun z hz => hys z (List.mem_cons_of_mem y hz)
    refine hrest.cons ⟨hqs, fun i hi => ?_⟩
    rw [hstart, hstop]
    exact hwithin i (List.mem_append_left _ hi)

theorem placed_append : Placed blank text ps (l ++ r) ↔
    ∃ qs rs, ps = qs ++ rs ∧ Placed blank text qs l ∧ Placed blank text rs r := by
  induction l generalizing ps with
  | nil =>
    constructor
    · exact fun h => ⟨[], ps, rfl, placed_nil, h⟩
    · rintro ⟨_, rs, rfl, ⟨pss, rfl, hpss⟩, hr⟩
      cases hpss
      exact hr
  | cons x l ih =>
    rw [List.cons_append, placed_cons]
    constructor
    · rintro ⟨qs, rs, rfl, hx, h⟩
      obtain ⟨ls, rs, rfl, hl, hr⟩ := ih.mp h
      exact ⟨qs ++ ls, rs, (List.append_assoc _ _ _).symm, hl.cons hx, hr⟩
    · rintro ⟨_, rs, rfl, hl, hr⟩
      obtain ⟨qs, ls, rfl, hx, hl⟩ := placed_cons.mp hl
      exact ⟨qs, ls ++ rs, List.append_assoc _ _ _, hx, ih.mpr ⟨ls, rs, rfl, hl, hr⟩⟩

theorem laid_nil : Laid blank text [] [] := ⟨placed_nil, .nil, fun _ h => (nomatch h)⟩

theorem laid_singleton (hx : Covers blank text ps x) (hin : x.start ≤ x.stop ∧ x.stop ≤ text.length) :
    Laid blank text ps [x] :=
  ⟨placed_singleton.mpr hx, List.pairwise_singleton _ x, fun _ hy => List.mem_singleton.mp hy ▸ hin⟩

theorem Laid.append (h : Laid blank text ps xs) (h' : Laid blank text qs ys)
    (hbefore : ∀ x ∈ xs, ∀ y ∈ ys, x.start ≤ y.start ∧ x.stop ≤ y.stop) :
    Laid blank text (ps ++ qs) (xs ++ ys) := by
  refine ⟨placed_append.mpr ⟨ps, qs, rfl, h.placed, h'.placed⟩,
    List.pairwise_append.mpr ⟨h.ordered, h'.ordered, hbefore⟩, fun x hx => ?_⟩
  rcases List.mem_append.mp hx with hx | hx
  · exact h.inside x hx
  · exact h'.inside x hx

/-- Pieces with the same characters and with no wider spans take the place of others. -/
theorem Laid.replace (h : Laid blank text ps (l ++ (xs ++ r)))
    (hplaced : ∀ qs, Placed blank text qs xs → Placed blank text qs ys)
    (hordered : ys.Pairwise fun x y => x.start ≤ y.start ∧ x.stop ≤ y.stop)
    (hspan : ∀ y ∈ ys, y.start ≤ y.stop ∧ (∃ x ∈ xs, x.start = y.start) ∧ ∃ x ∈ xs, x.stop = y.stop) :
    Laid blank text ps (l ++ (ys ++ r)) := by
  obtain ⟨hl, hxr, hlx⟩ := List.pairwise_append.mp h.ordered
  obtain ⟨-, hr, hxr⟩ := List.pairwise_append.mp hxr
  refine ⟨?_, ?_, ?_⟩
  · obtain ⟨qs, rs, rfl, hl, hrs⟩ := placed_append.mp h.placed
    obtain ⟨qx, qr, rfl, hx, hr⟩ := placed_append.mp hrs
    exact placed_append.mpr ⟨qs, _, rfl, hl, placed_append.mpr ⟨qx, qr, rfl, hplaced qx hx, hr⟩⟩
  · refine List.pairwise_append.mpr ⟨hl, List.pairwise_append.mpr ⟨hordered, hr, ?_⟩, ?_⟩
    · intro y hy z hz
      obtain ⟨-, ⟨x, hx, hstart⟩, x', hx', hstop⟩ := hspan y hy
      exact ⟨hstart ▸ (hxr x hx z hz).1, hstop ▸ (hxr x' hx' z hz).2⟩
    · intro z hz y hy
      rcases List.mem_append.mp hy with hy | hy
      · obtain ⟨-, ⟨x, hx, hstart⟩, x', hx', hstop⟩ := hspan y hy
        exact ⟨hstart ▸ (hlx z hz x (List.mem_append_left _ hx)).1,
          hstop ▸ (hlx z hz x' (List.mem_append_left _ hx')).2⟩
      · exact hlx z hz y (List.mem_append_right _ hy)
  · intro y hy
    rcases List.mem_append.mp hy with hy | hy
    · exact h.inside y (List.mem_append_left _ hy)
    rcases List.mem_append.mp hy with hy | hy
    · obtain ⟨hle, -, x, hx, hstop⟩ := hspan y hy
      exact ⟨hle, hstop ▸ (h.inside x (List.mem_append_right _ (List.mem_append_left _ hx))).2⟩
    · exact h.inside y (List.mem_append_right _ (List.mem_append_right _ hy))

/-- Two neighbours become one piece. -/
theorem Laid.join (h : Laid blank text ps (l ++ x :: y :: r))
    (hink : ink blank z.content = ink blank x.content ++ ink blank y.content) (hstart : z.start = x.start)
    (hstop : z.stop = y.stop) : Laid blank text ps (l ++ z :: r) := by
  obtain ⟨hxy, -⟩ := List.pairwise_cons.mp (List.pairwise_append.mp h.ordered).2.1
  obtain ⟨hle, hle'⟩ := hxy y List.mem_cons_self
  obtain ⟨hx, -⟩ := h.inside x (by simp)
  have hpair : Laid blank text ps (l ++ ([x, y] ++ r)) := h
  refine hpair.replace ?_ (List.pairwise_singleton _ z) ?_
  · intro qs hqs
    obtain ⟨qx, qy, rfl, hx, hy⟩ := placed_cons.mp hqs
    have hy := placed_singleton.mp hy
    refine placed_singleton.mpr ⟨?_, fun i hi => ?_⟩
    · rw [hink]
      exact hx.reads.append hy.reads
    · rw [hstart, hstop]
      rcases List.mem_append.mp hi with hi | hi
      · have hin := hx.within i hi
        omega
      · have hin := hy.within i hi
        omega
  · rintro w hw
    obtain rfl := List.mem_singleton.mp hw
    exact ⟨by omega, ⟨x, by simp, hstart.symm⟩, ⟨y, by simp, hstop.symm⟩⟩

/-- A piece becomes several, in the same span. -/
theorem Laid.refine (h : Laid blank text ps (l ++ x :: r))
    (hys : ∀ y ∈ ys, y.start = x.start ∧ y.stop = x.stop)
    (hink : ys.flatMap (fun y => ink blank y.content) = ink blank x.content) :
    Laid blank text ps (l ++ (ys ++ r)) := by
  obtain ⟨hle, -⟩ := h.inside x (by simp)
  have hone : Laid blank text ps (l ++ ([x] ++ r)) := h
  refine hone.replace ?_ ?_ ?_
  · intro qs hqs
    have hx := placed_singleton.mp hqs
    refine placed_of_reads ?_ hx.within hys
    rw [hink]
    exact hx.reads
  · exact List.pairwise_of_forall_mem_list fun y hy z hz => by
      rw [(hys y hy).1, (hys y hy).2, (hys z hz).1, (hys z hz).2]
      exact ⟨le_rfl, le_rfl⟩
  · exact fun y hy => ⟨by rw [(hys y hy).1, (hys y hy).2]; exact hle, ⟨x, by simp, (hys y hy).1.symm⟩,
      ⟨x, by simp, (hys y hy).2.symm⟩⟩

/-- The pieces read one after the other. -/
theorem Placed.ink (h : Placed blank text ps xs) :
    xs.flatMap (fun x => Spans.ink blank x.content) = ps.filterMap (text[·]?) := by
  induction xs generalizing ps with
  | nil =>
    obtain ⟨pss, rfl, hpss⟩ := h
    cases hpss
    rfl
  | cons x xs ih =>
    obtain ⟨qs, rs, rfl, hx, hxs⟩ := placed_cons.mp h
    rw [List.flatMap_cons, ih hxs, List.filterMap_append, hx.reads.filterMap]

theorem filterMap_inkAt (ps : List ℕ) :
    (ps.filter (inkAt blank text)).filterMap (text[·]?) = Spans.ink blank (ps.filterMap (text[·]?)) := by
  rw [Spans.ink, List.filterMap_filter, List.filter_filterMap]
  refine congrArg (List.filterMap · ps) (funext fun i => ?_)
  rw [inkAt]
  cases text[i]? with
  | none => rfl
  | some c => cases h : blank c <;> simp [h, Option.filter]

end
end Kajet.Spans
