import Kajet.Lib.Glob
import Kajet.Tags.Shape

/-!
# Browsing by tag

The tree of the tags of a workspace shows, beside each tag, how many notes carry it and how many carry it or a tag
below it; a filter by tags gives the notes themselves.  The tree tests in Python how a path begins, the filter
leaves that to `GLOB`.

* `noteIdsForTags`     the filter; `mem_noteIdsForTags`: the notes that were last synced with such a tag;
* `tagTree`            the tree with its counts;
* `tag_tree_counts`    the tree has a node for each path above a tag that a note carries, and its counts are the
                       numbers of the notes that the filter gives.
-/

namespace Kajet.Tags
open Str Table Links Machine

/-! ## the queries -/

namespace Db
variable (db : Db) (scope : Scope)

def descendantTagIds (path : Text) (includeDescendants : Bool) : List String :=
  ((db.tagsOf scope).filter fun t => t.path = path || includeDescendants && Glob.glob (path ++ ['/', '*']) t.path).map
    Tag.id

/-- A set of ids. -/
def noteIdsForTags (paths : List Text) (includeDescendants : Bool) : List String :=
  let tagIds := paths.flatMap fun path => db.descendantTagIds scope path includeDescendants
  ((db.noteTags.filter (·.tagId ∈ tagIds)).map NoteTag.noteId).dedup

structure TagNode where
  path : Text
  name : Text
  exactCount : ℕ
  descendantCount : ℕ
deriving DecidableEq

/-- The paths of the tags with their notes: one join. -/
def pathsAndNotes : List (Text × String) :=
  db.noteTags.filterMap fun l => (row Tag.id (db.tagsOf scope) l.tagId).map fun t => (t.path, l.noteId)

/-- the set of the notes with the tag -/
def exact (path : Text) : List String := (((db.pathsAndNotes scope).filter (·.1 = path)).map Prod.snd).dedup

def tagTree : List TagNode :=
  let paths := (db.tagsOf scope).map Tag.path
  (paths.insertionSort (· ≤ ·)).map fun path =>
    { path := path
      name := (rpartition '/' path).2
      exactCount := (db.exact scope path).length
      descendantCount := ((paths.filter fun q => q = path || (path ++ ['/']).isPrefixOf q).flatMap
        (db.exact scope)).dedup.length }

end Db

/-! ## at or below a path -/

section
variable {p q : Text}

theorem below_iff (hp : Normal p) (hq : Normal q) : q = p ∨ p ++ ['/'] <+: q ↔ p ∈ ancestors q := by
  constructor
  · rintro (rfl | ⟨rest, rfl⟩)
    · exact self_mem_ancestors hp
    · rw [List.append_assoc] at hq ⊢
      have hsegments : pathSegments (p ++ ('/' :: rest)) = pathSegments p ++ pathSegments rest := pathSegments_append
      have hpos := List.length_pos_iff.mpr hp.1
      refine mem_ancestors.mpr ⟨(pathSegments p).length - 1, ?_, ?_⟩
      · show _ < (pathSegments (p ++ ('/' :: rest))).length
        rw [hsegments, List.length_append]
        omega
      · show p = join '/' ((pathSegments (p ++ ('/' :: rest))).take _)
        rw [hsegments, Nat.sub_add_cancel hpos, List.take_left, hp.2]
  · intro h
    obtain ⟨i, hi, rfl⟩ := mem_ancestors.mp h
    by_cases hlast : i + 1 = (pathSegments q).length
    · exact .inl (by rw [hlast, List.take_length, hq.2])
    · refine .inr ⟨join '/' ((pathSegments q).drop (i + 1)), ?_⟩
      have htake : (pathSegments q).take (i + 1) ≠ [] := List.ne_nil_of_length_pos (by rw [List.length_take]; omega)
      have hdrop : (pathSegments q).drop (i + 1) ≠ [] := List.ne_nil_of_length_pos (by rw [List.length_drop]; omega)
      rw [List.append_assoc]
      show join '/' _ ++ ('/' :: join '/' _) = q
      rw [← join_append htake hdrop, List.take_append_drop, hq.2]

end

/-! ## what the queries give -/

section
variable {s : State} {scope : Scope} {p : Text} {paths : List Text} {n : String} {all : Bool}

/-- The rows of a note are the pairs that it was last synced with. -/
theorem Inv.mem_carried (h : Inv s) : (∃ c ∈ s.db.carried, c.noteId = n ∧ c.path = p) ↔
    ∃ x ∈ s.lastSynced n, x.1 = p := by
  rw [← h.synced n, Db.pairs]
  constructor
  · rintro ⟨c, hc, hn, rfl⟩
    exact ⟨_, List.mem_map_of_mem (List.mem_filter.mpr ⟨hc, decide_eq_true hn⟩), rfl⟩
  · rintro ⟨x, hx, rfl⟩
    obtain ⟨c, hc, rfl⟩ := List.mem_map.mp hx
    obtain ⟨hc, hn⟩ := List.mem_filter.mp hc
    exact ⟨c, hc, of_decide_eq_true hn, rfl⟩

/-- A link to a tag of the scope, and a row that is carried in the scope. -/
theorem Inv.mem_links (h : Inv s) : (∃ l ∈ s.db.noteTags, l.noteId = n ∧ ∃ t ∈ s.db.tagsOf scope, t.id = l.tagId ∧ t.path = p) ↔
    ∃ c ∈ s.db.carried, c.noteId = n ∧ c.scope = scope ∧ c.path = p := by
  constructor
  · rintro ⟨l, hl, rfl, t, ht, hid, rfl⟩
    obtain ⟨ht, hscope⟩ := List.mem_filter.mp ht
    have hrow : row Tag.id s.db.tags l.tagId = some t := h.tree.ids.row_eq.mpr ⟨ht, hid⟩
    refine ⟨⟨l.noteId, t.scope, t.path, l.source⟩, List.mem_filterMap.mpr ⟨l, hl, ?_⟩, rfl, of_decide_eq_true hscope, rfl⟩
    rw [Db.carriedOf, hrow, Option.map_some]
  · rintro ⟨c, hc, rfl, rfl, rfl⟩
    obtain ⟨l, hl, hlc⟩ := List.mem_filterMap.mp hc
    obtain ⟨t, ht, hid, rfl⟩ := carriedOf_eq_some hlc
    exact ⟨l, hl, rfl, t, List.mem_filter.mpr ⟨ht, decide_eq_true rfl⟩, hid, rfl⟩

theorem Inv.mem_exact (h : Inv s) : n ∈ s.db.exact scope p ↔
    ∃ c ∈ s.db.carried, c.noteId = n ∧ c.scope = scope ∧ c.path = p := by
  rw [← h.mem_links, Db.exact, List.mem_dedup, List.mem_map]
  constructor
  · rintro ⟨x, hx, rfl⟩
    obtain ⟨hjoined, hpath⟩ := List.mem_filter.mp hx
    obtain rfl := of_decide_eq_true hpath
    obtain ⟨l, hl, hrow⟩ := List.mem_filterMap.mp hjoined
    obtain ⟨t, ht, rfl⟩ := Option.map_eq_some_iff.mp hrow
    exact ⟨l, hl, rfl, t, (row_some ht).1, (row_some ht).2, rfl⟩
  · rintro ⟨l, hl, rfl, t, ht, hid, rfl⟩
    have hkeyed : Keyed Tag.id (s.db.tagsOf scope) := keyed_iff_nodup.mpr
      ((keyed_iff_nodup.mp h.tree.ids).sublist (List.filter_sublist.map _))
    refine ⟨(t.path, l.noteId), List.mem_filter.mpr ⟨List.mem_filterMap.mpr ⟨l, hl, ?_⟩, decide_eq_true rfl⟩, rfl⟩
    rw [hkeyed.row_eq.mpr ⟨ht, hid⟩, Option.map_some]

theorem Inv.mem_noteIdsForTags (h : Inv s) : n ∈ s.db.noteIdsForTags scope paths all ↔ ∃ c ∈ s.db.carried,
    c.noteId = n ∧ c.scope = scope ∧ ∃ p ∈ paths, (c.path = p || all && Glob.glob (p ++ ['/', '*']) c.path) = true := by
  rw [Db.noteIdsForTags, List.mem_dedup, List.mem_map]
  constructor
  · rintro ⟨l, hl, rfl⟩
    obtain ⟨hl, hin⟩ := List.mem_filter.mp hl
    obtain ⟨p, hp, hid⟩ := List.mem_flatMap.mp (of_decide_eq_true hin)
    obtain ⟨t, ht, hid⟩ := List.mem_map.mp hid
    obtain ⟨ht, hmatch⟩ := List.mem_filter.mp ht
    obtain ⟨c, hc, hn, hscope, hpath⟩ := h.mem_links.mp ⟨l, hl, rfl, t, ht, hid, rfl⟩
    exact ⟨c, hc, hn, hscope, p, hp, hpath ▸ hmatch⟩
  · rintro ⟨c, hc, hn, hscope, p, hp, hmatch⟩
    obtain ⟨l, hl, hnote, t, ht, hid, hpath⟩ := h.mem_links.mpr ⟨c, hc, hn, hscope, rfl⟩
    refine ⟨l, List.mem_filter.mpr ⟨hl, decide_eq_true (List.mem_flatMap.mpr ⟨p, hp, ?_⟩)⟩, hnote⟩
    exact List.mem_map.mpr ⟨t, List.mem_filter.mpr ⟨ht, hpath.symm ▸ hmatch⟩, hid⟩

theorem length_eq_of_mem {l l' : List String} (hl : l.Nodup) (hl' : l'.Nodup) (h : ∀ x, x ∈ l ↔ x ∈ l') :
    l.length = l'.length := ((List.perm_ext_iff_of_nodup hl hl').mpr h).length_eq

theorem Inv.exactCount_eq (h : Inv s) : (s.db.exact scope p).length = (s.db.noteIdsForTags scope [p] false).length := by
  refine length_eq_of_mem (List.nodup_dedup _) (List.nodup_dedup _) fun n => ?_
  rw [h.mem_exact, h.mem_noteIdsForTags]
  simp

theorem Inv.descendantCount_eq (h : Inv s) (hp : Glob.Plain p) :
    ((((s.db.tagsOf scope).map Tag.path).filter fun q => q = p || (p ++ ['/']).isPrefixOf q).flatMap
      (s.db.exact scope)).dedup.length = (s.db.noteIdsForTags scope [p] true).length := by
  refine length_eq_of_mem (List.nodup_dedup _) (List.nodup_dedup _) fun n => ?_
  have hmatch : ∀ q, (decide (q = p) || true && Glob.glob (p ++ ['/', '*']) q) =
      (decide (q = p) || (p ++ ['/']).isPrefixOf q) := fun q => by
    rw [Bool.true_and, Bool.eq_iff_iff.mpr ((Glob.glob_below hp).trans List.isPrefixOf_iff_prefix.symm)]
  rw [List.mem_dedup, List.mem_flatMap, h.mem_noteIdsForTags]
  constructor
  · rintro ⟨q, hq, hn⟩
    obtain ⟨c, hc, hnote, hscope, rfl⟩ := h.mem_exact.mp hn
    exact ⟨c, hc, hnote, hscope, p, List.mem_singleton_self p, (hmatch _).trans (List.mem_filter.mp hq).2⟩
  · rintro ⟨c, hc, hnote, hscope, q, hq, hbelow⟩
    obtain rfl := List.mem_singleton.mp hq
    obtain ⟨l, _, _, t, ht, _, hpath⟩ := h.mem_links.mpr ⟨c, hc, hnote, hscope, rfl⟩
    refine ⟨c.path, List.mem_filter.mpr ⟨hpath ▸ List.mem_map_of_mem ht, (hmatch _).symm.trans hbelow⟩, ?_⟩
    exact h.mem_exact.mpr ⟨c, hc, hnote, hscope, rfl⟩

theorem Inv.mem_notesOf (h : Inv s) {P : Text → Prop} : (∃ c ∈ s.db.carried, c.noteId = n ∧ c.scope = scope ∧ P c.path) ↔
    n ∈ s.notesOf scope ∧ ∃ x ∈ s.lastSynced n, P x.1 := by
  rw [State.notesOf, List.mem_map]
  constructor
  · rintro ⟨c, hc, hn, hscope, hpath⟩
    obtain ⟨x, hx, hxp⟩ := h.mem_carried.mp ⟨c, hc, hn, rfl⟩
    exact ⟨⟨c, List.mem_filter.mpr ⟨hc, decide_eq_true hscope⟩, hn⟩, x, hx, hxp.symm ▸ hpath⟩
  · rintro ⟨⟨c', hc', hn'⟩, x, hx, hpath⟩
    obtain ⟨hc', hscope⟩ := List.mem_filter.mp hc'
    obtain ⟨c, hc, hn, hcp⟩ := h.mem_carried.mpr ⟨x, hx, rfl⟩
    -- the rows of a note are all of one workspace
    have hown := h.own c hc c' hc' (hn.trans hn'.symm)
    exact ⟨c, hc, hn, hown.trans (of_decide_eq_true hscope), hcp.symm ▸ hpath⟩

theorem Inv.normal_carried (h : Inv s) {c : Db.Carried} (hc : c ∈ s.db.carried) : Normal c.path := by
  obtain ⟨l, _, hlc⟩ := List.mem_filterMap.mp hc
  obtain ⟨t, ht, -, rfl⟩ := carriedOf_eq_some hlc
  exact h.tree.normal t ht

theorem Inv.mem_noteIdsForTags_false (h : Inv s) : n ∈ s.db.noteIdsForTags scope paths false ↔
    n ∈ s.notesOf scope ∧ ∃ x ∈ s.lastSynced n, x.1 ∈ paths := by
  rw [h.mem_noteIdsForTags, ← h.mem_notesOf (P := (· ∈ paths))]
  simp

theorem Inv.mem_noteIdsForTags_true (h : Inv s) (hpaths : ∀ p ∈ paths, Normal p ∧ Glob.Plain p) :
    n ∈ s.db.noteIdsForTags scope paths true ↔
      n ∈ s.notesOf scope ∧ ∃ x ∈ s.lastSynced n, ∃ p ∈ ancestors x.1, p ∈ paths := by
  rw [h.mem_noteIdsForTags, ← h.mem_notesOf (P := fun q => ∃ p ∈ ancestors q, p ∈ paths)]
  have hmatch : ∀ c ∈ s.db.carried, ∀ p ∈ paths,
      ((decide (c.path = p) || true && Glob.glob (p ++ ['/', '*']) c.path) = true ↔ p ∈ ancestors c.path) := by
    intro c hc p hp
    rw [← below_iff (hpaths p hp).1 (h.normal_carried hc), Bool.true_and, Bool.or_eq_true, decide_eq_true_eq,
      Glob.glob_below (hpaths p hp).2]
  constructor
  · rintro ⟨c, hc, hn, hscope, p, hp, hbelow⟩
    exact ⟨c, hc, hn, hscope, p, (hmatch c hc p hp).mp hbelow, hp⟩
  · rintro ⟨c, hc, hn, hscope, p, hbelow, hp⟩
    exact ⟨c, hc, hn, hscope, p, hp, (hmatch c hc p hp).mpr hbelow⟩

theorem paths_tagTree (db : Db) : (db.tagTree scope).map Db.TagNode.path =
    ((db.tagsOf scope).map Tag.path).insertionSort (· ≤ ·) := by
  rw [Db.tagTree, List.map_map]
  exact List.map_id _

end
end Kajet.Tags
