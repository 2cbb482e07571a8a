import Kajet.Tags.Table

/-!
# Tag paths and their segments

* `pathSegments_join`, `normal_iff`   a normalized path is its segments;
* `mem_ancestors`, `ancestors_trans`  the chain above a path;
* `mem_ancestors_iff`                 the path itself, or above the path without its last segment;
* `Linked`, `linked_ancestors`        the chain, link by link;
* `remapPath_normal`, `tagged_normal` what a rename writes is normalized.
-/

namespace Kajet.Tags
open Str Links

variable {path old new a p q : Text} {segs : List Text}

def Segments (segs : List Text) : Prop := ∀ p ∈ segs, p ≠ [] ∧ '/' ∉ p

theorem segments_pathSegments (path : Text) : Segments (pathSegments path) := by
  intro p hp
  obtain ⟨hp, hne⟩ := List.mem_filter.mp hp
  exact ⟨of_decide_eq_true hne, notMem_of_mem_split hp⟩

theorem pathSegments_join (h : Segments segs) : pathSegments (join '/' segs) = segs := by
  cases segs with
  | nil => rfl
  | cons s segs =>
    rw [pathSegments, split_join (List.cons_ne_nil s segs) fun p hp => (h p hp).2]
    exact List.filter_eq_self.mpr fun p hp => decide_eq_true (h p hp).1

theorem normal_iff : Normal path ↔ ∃ segs, segs ≠ [] ∧ Segments segs ∧ path = join '/' segs := by
  constructor
  · rintro ⟨hne, hjoin⟩
    exact ⟨_, hne, segments_pathSegments path, hjoin.symm⟩
  · rintro ⟨segs, hne, hsegs, rfl⟩
    rw [Normal, pathSegments_join hsegs]
    exact ⟨hne, rfl⟩

theorem Segments.take (h : Segments segs) (n : ℕ) : Segments (segs.take n) :=
  fun p hp => h p (List.mem_of_mem_take hp)

/-! ## the chain above a path -/

theorem mem_ancestors : a ∈ ancestors path ↔
    ∃ i < (pathSegments path).length, a = join '/' ((pathSegments path).take (i + 1)) := by
  simp only [ancestors, List.mem_map, List.mem_range]
  exact ⟨fun ⟨i, hi, ha⟩ => ⟨i, hi, ha.symm⟩, fun ⟨i, hi, ha⟩ => ⟨i, hi, ha.symm⟩⟩

theorem pathSegments_take (path : Text) (n : ℕ) :
    pathSegments (join '/' ((pathSegments path).take n)) = (pathSegments path).take n :=
  pathSegments_join ((segments_pathSegments path).take n)

theorem self_mem_ancestors (h : Normal path) : path ∈ ancestors path := by
  have hpos := List.length_pos_iff.mpr h.1
  refine mem_ancestors.mpr ⟨(pathSegments path).length - 1, by omega, ?_⟩
  rw [Nat.sub_add_cancel hpos, List.take_length, h.2]

theorem ancestors_trans (hq : q ∈ ancestors path) (ha : a ∈ ancestors q) : a ∈ ancestors path := by
  obtain ⟨i, hi, rfl⟩ := mem_ancestors.mp hq
  obtain ⟨j, hj, rfl⟩ := mem_ancestors.mp ha
  rw [pathSegments_take] at hj ⊢
  rw [List.length_take] at hj
  refine mem_ancestors.mpr ⟨j, by omega, ?_⟩
  rw [List.take_take, Nat.min_eq_left (by omega)]

theorem upper_eq_some (h : upper path = some q) :
    pathSegments q = (pathSegments path).dropLast ∧ q ∈ ancestors path ∧
      (pathSegments q).length + 1 = (pathSegments path).length := by
  unfold upper at h
  split at h
  · cases h
  · rename_i hne
    cases h
    have hpos : 0 < (pathSegments path).dropLast.length := List.length_pos_iff.mpr hne
    have hlen := hpos
    rw [List.length_dropLast] at hlen
    have hsegs : pathSegments (join '/' (pathSegments path).dropLast) = (pathSegments path).dropLast := by
      rw [List.dropLast_eq_take]
      exact pathSegments_take path _
    refine ⟨hsegs, mem_ancestors.mpr ⟨(pathSegments path).length - 2, by omega, ?_⟩, ?_⟩
    · rw [List.dropLast_eq_take]
      congr 2
      omega
    · rw [hsegs, List.length_dropLast]
      omega

theorem mem_ancestors_iff (h : Normal path) :
    a ∈ ancestors path ↔ a = path ∨ ∃ q, upper path = some q ∧ a ∈ ancestors q := by
  constructor
  · intro ha
    obtain ⟨i, hi, rfl⟩ := mem_ancestors.mp ha
    by_cases hlast : i + 1 = (pathSegments path).length
    · exact .inl (by rw [hlast, List.take_length, h.2])
    · have hupper : ∃ q, upper path = some q := by
        unfold upper
        split
        · rename_i hnil
          have hlen := congrArg List.length hnil
          rw [List.length_dropLast, List.length_nil] at hlen
          omega
        · exact ⟨_, rfl⟩
      obtain ⟨q, hq⟩ := hupper
      obtain ⟨hsegs, -, hlen⟩ := upper_eq_some hq
      refine .inr ⟨q, hq, mem_ancestors.mpr ⟨i, by omega, ?_⟩⟩
      rw [hsegs, List.dropLast_eq_take, List.take_take, Nat.min_eq_left (by omega)]
  · rintro (rfl | ⟨q, hq, ha⟩)
    · exact self_mem_ancestors h
    · exact ancestors_trans (upper_eq_some hq).2.1 ha

/-! ## link by link -/

/-- Each path is the one before without its last segment. -/
def Linked : Option Text → List Text → Prop
  | _, [] => True
  | prev, a :: rest => Normal a ∧ upper a = prev ∧ Linked (some a) rest

/-- The path of the segments, if there are any. -/
def pathOf (segs : List Text) : Option Text := if segs = [] then none else some (join '/' segs)

theorem upper_join (h : Segments (segs ++ [p])) : upper (join '/' (segs ++ [p])) = pathOf segs := by
  unfold upper pathOf
  rw [pathSegments_join h, List.dropLast_concat]
  cases segs <;> rfl

theorem linked_of_segments {rest : List Text} (h : Segments (segs ++ rest)) : Linked (pathOf segs)
    ((List.range rest.length).map fun i => join '/' (segs ++ rest.take (i + 1))) := by
  induction rest generalizing segs with
  | nil => trivial
  | cons p rest ih =>
    have hp : Segments (segs ++ [p]) := fun x hx => h x (by
      rcases List.mem_append.mp hx with hx | hx
      · exact List.mem_append_left _ hx
      · exact List.mem_append_right _ (List.mem_singleton.mp hx ▸ List.mem_cons_self))
    have hne : segs ++ [p] ≠ [] := List.append_ne_nil_of_right_ne_nil _ (List.cons_ne_nil _ _)
    have hih : Linked (pathOf (segs ++ [p])) _ := ih (by rwa [List.append_assoc])
    rw [List.length_cons, List.range_succ_eq_map, List.map_cons, List.map_map]
    refine ⟨normal_iff.mpr ⟨_, hne, hp, rfl⟩, upper_join hp, ?_⟩
    simp only [pathOf, if_neg hne, List.append_assoc, List.singleton_append] at hih
    exact hih

theorem linked_ancestors (path : Text) : Linked none (ancestors path) := by
  have h : Segments ([] ++ pathSegments path) := segments_pathSegments path
  exact linked_of_segments h

theorem getLast_ancestors (h : Normal path) : (ancestors path).getLast? = some path := by
  have hpos := List.length_pos_iff.mpr h.1
  rw [ancestors, List.getLast?_map, List.getLast?_range, if_neg (Nat.pos_iff_ne_zero.mp hpos), Option.map_some,
    Nat.sub_add_cancel hpos, List.take_length, h.2]

/-! ## renames -/

theorem pathSegments_append : pathSegments (p ++ '/' :: q) = pathSegments p ++ pathSegments q := by
  rw [pathSegments, split_append, List.filter_append]
  rfl

theorem remapPath_normal (hpath : Normal path) (hold : Normal old) (hnew : Normal new)
    (h : remapPath path old new = some q) : Normal q := by
  unfold remapPath at h
  split at h
  · cases h
    exact hnew
  · split at h <;> cases h
    rename_i hprefix
    obtain ⟨rest, hrest⟩ := List.isPrefixOf_iff_prefix.mp hprefix
    obtain rfl : old ++ '/' :: rest = path := (List.append_cons ..).trans hrest
    -- what follows the old path is a path of its own
    have hrest : pathSegments rest ≠ [] ∧ join '/' (pathSegments rest) = rest := by
      have hjoin := hpath.2
      rw [pathSegments_append] at hjoin
      by_cases hnil : pathSegments rest = []
      · rw [hnil, List.append_nil, hold.2] at hjoin
        exact absurd (List.self_eq_append_right.mp hjoin) (List.cons_ne_nil _ _)
      · rw [join_append hold.1 hnil, hold.2] at hjoin
        exact ⟨hnil, (List.cons.inj (List.append_cancel_left hjoin)).2⟩
    rw [List.drop_left]
    refine ⟨?_, ?_⟩
    · rw [pathSegments_append]
      exact List.append_ne_nil_of_left_ne_nil hnew.1 _
    · rw [pathSegments_append, join_append hnew.1 hrest.1, hnew.2, hrest.2]

theorem tagged_normal {fmTags inline : List Text} (hfm : ∀ p ∈ fmTags, Normal p)
    (hinline : ∀ p ∈ inline, Normal p) : ∀ x ∈ tagged fmTags inline, Normal x.1 := by
  intro x hx
  rcases List.mem_append.mp hx with hx | hx
  · obtain ⟨p, hp, rfl⟩ := List.mem_map.mp hx
    exact hfm p (List.mem_eraseDups.mp hp)
  · obtain ⟨p, hp, rfl⟩ := List.mem_map.mp hx
    exact hinline p (List.mem_eraseDups.mp (List.mem_of_mem_filter hp))

end Kajet.Tags
