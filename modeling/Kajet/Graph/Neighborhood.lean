import Kajet.Lib.Rank
import Kajet.Lib.Recursive
import Kajet.Reconcile.Paths
import Mathlib.Combinatorics.SimpleGraph.Metric
import Mathlib.Data.Prod.Lex
import Mathlib.Data.String.Basic

/-!
# The neighbourhood of a note

The query walks the links in both directions with a counter, and selects the links between the notes that it
has reached.

* `eligibleEdges`, `walkStep`, `neighborhood`   the parts of the query;
* `linkGraph`                the links without their direction;
* `derived_iff`              the walk reaches what is within the distance;
* `neighborhood_spec`        the query ends, with the links between notes within the distance.
-/

namespace Kajet.Graph
open Rank Recursive Table Reconcile Links Fuel

/-- The tables with their primary keys. -/
structure Stored where
  db : Db
  ids : Keyed (fun n : Note => n.noteId) db.notes
  once : Keyed (fun l : NoteLink => (l.sourceNoteId, l.targetNoteId)) db.links

/-- The workspace of the start note, its owner, and the setting. -/
structure Scope where
  workspace : String
  ownerId : String
  includeCrossWorkspace : Bool

section
variable (scope : Scope) (stored : Stored)

/-- The condition of the query on a note at one of the ends. -/
def Scope.admits (n : Note) : Bool :=
  n.ownerId = scope.ownerId && (scope.includeCrossWorkspace || n.workspace = scope.workspace)

/-- `JOIN notes ON id = noteId`, with the conditions -/
def Scope.join (noteId : String) : List Note := stored.db.notes.filter fun n => n.noteId = noteId && scope.admits n

def Scope.eligibleEdges : List (String × String) :=
  (stored.db.links.filter fun l => l.ownerId = scope.ownerId).flatMap fun l =>
    (scope.join stored l.sourceNoteId).flatMap fun _ =>
      (scope.join stored l.targetNoteId).map fun _ => (l.sourceNoteId, l.targetNoteId)

def Scope.adjacency : Finset (String × String) :=
  (scope.eligibleEdges stored).toFinset ∪ ((scope.eligibleEdges stored).map fun e => (e.2, e.1)).toFinset

/-- The rows of `walked` that come from one of them: a note and a distance. -/
def Scope.walkStep (depth : ℕ) (row : String × ℕ) : Finset (String × ℕ) :=
  if row.2 < depth then
    ((scope.adjacency stored).filter fun e => e.1 = row.1).image fun e => (e.2, row.2 + 1)
  else ∅

/-- `fuel` bounds the rounds of the recursion. -/
def Scope.neighborhood (noteId : String) (depth fuel : ℕ) : Option (List (String × String)) :=
  (recursiveUnion (scope.walkStep stored depth) fuel {(noteId, 0)}).map fun walked =>
    let nodes := walked.image Prod.fst
    ranked toLex ((scope.eligibleEdges stored).filter fun e => e.1 ∈ nodes && e.2 ∈ nodes)

/-- The link is stored, and it and the notes at its ends are in the scope. -/
def Scope.Eligible (source target : String) : Prop :=
  (∃ l ∈ stored.db.links, l.ownerId = scope.ownerId ∧ l.sourceNoteId = source ∧ l.targetNoteId = target) ∧
    (∃ n ∈ stored.db.notes, n.noteId = source ∧ scope.admits n = true) ∧
      ∃ n ∈ stored.db.notes, n.noteId = target ∧ scope.admits n = true

/-- The notes, joined where one links to the other. -/
def Scope.linkGraph : SimpleGraph String := SimpleGraph.fromRel (scope.Eligible stored)

end

variable {scope : Scope} {stored : Stored} {noteId s t : String} {depth fuel d : ℕ} {row : String × ℕ}

/-! ## the edges -/

theorem mem_join {n : Note} : n ∈ scope.join stored noteId ↔
    n ∈ stored.db.notes ∧ n.noteId = noteId ∧ scope.admits n = true := by
  rw [Scope.join, List.mem_filter, Bool.and_eq_true, decide_eq_true_iff]

theorem mem_eligibleEdges : (s, t) ∈ scope.eligibleEdges stored ↔ scope.Eligible stored s t := by
  simp only [Scope.eligibleEdges, Scope.Eligible, List.mem_flatMap, List.mem_map, List.mem_filter, mem_join,
    decide_eq_true_iff]
  constructor
  · rintro ⟨l, ⟨hl, howner⟩, n, ⟨hn, hsource, hadmits⟩, m, ⟨hm, htarget, hadmits'⟩, hedge⟩
    cases hedge
    exact ⟨⟨l, hl, howner, rfl, rfl⟩, ⟨n, hn, hsource, hadmits⟩, m, hm, htarget, hadmits'⟩
  · rintro ⟨⟨l, hl, howner, rfl, rfl⟩, ⟨n, hn, hsource, hadmits⟩, m, hm, htarget, hadmits'⟩
    exact ⟨l, ⟨hl, howner⟩, n, ⟨hn, hsource, hadmits⟩, m, ⟨hm, htarget, hadmits'⟩, rfl⟩

/-- A primary key joins one row at most. -/
theorem join_cases (scope : Scope) (stored : Stored) (noteId : String) :
    scope.join stored noteId = [] ∨ ∃ n, scope.join stored noteId = [n] := by
  have hnodup : (scope.join stored noteId).Nodup := ((keyed_iff_nodup.mp stored.ids).of_map).filter _
  match hlist : scope.join stored noteId with
  | [] => exact .inl rfl
  | [n] => exact .inr ⟨n, rfl⟩
  | a :: b :: rest =>
    have ha := mem_join.mp (hlist ▸ List.mem_cons_self : a ∈ scope.join stored noteId)
    have hb := mem_join.mp (hlist ▸ List.mem_cons_of_mem _ List.mem_cons_self : b ∈ scope.join stored noteId)
    rw [hlist, stored.ids.eq ha.1 hb.1 (ha.2.1.trans hb.2.1.symm)] at hnodup
    exact absurd List.mem_cons_self (List.nodup_cons.mp hnodup).1

theorem flatMap_sublist_map {α β : Type} {f : α → List β} {g : α → β} {l : List α}
    (h : ∀ a ∈ l, (f a).Sublist [g a]) : (l.flatMap f).Sublist (l.map g) := by
  induction l with
  | nil => exact List.nil_sublist _
  | cons a l ih =>
    rw [List.flatMap_cons, List.map_cons]
    exact (h a List.mem_cons_self).append (ih fun b hb => h b (List.mem_cons_of_mem _ hb))

theorem eligibleEdges_nodup (scope : Scope) (stored : Stored) : (scope.eligibleEdges stored).Nodup := by
  have hsub : (scope.eligibleEdges stored).Sublist
      (stored.db.links.map fun l => (l.sourceNoteId, l.targetNoteId)) := by
    refine (flatMap_sublist_map (g := fun l : NoteLink => (l.sourceNoteId, l.targetNoteId)) fun l _ => ?_).trans
      (List.filter_sublist.map _)
    rcases join_cases scope stored l.sourceNoteId with hsource | ⟨n, hsource⟩
    · rw [hsource]
      exact List.nil_sublist _
    · rcases join_cases scope stored l.targetNoteId with htarget | ⟨m, htarget⟩
      · rw [hsource, htarget]
        exact List.nil_sublist _
      · rw [hsource, htarget]
        exact List.Sublist.refl _
  exact (keyed_iff_nodup.mp stored.once).sublist hsub

/-! ## the walk -/

theorem mem_adjacency : (s, t) ∈ scope.adjacency stored ↔ scope.Eligible stored s t ∨ scope.Eligible stored t s := by
  rw [Scope.adjacency, Finset.mem_union, List.mem_toFinset, List.mem_toFinset, mem_eligibleEdges, List.mem_map]
  refine or_congr_right ⟨?_, fun h => ⟨(t, s), mem_eligibleEdges.mpr h, rfl⟩⟩
  rintro ⟨⟨a, b⟩, he, heq⟩
  cases heq
  exact mem_eligibleEdges.mp he

theorem mem_walkStep : (t, d) ∈ scope.walkStep stored depth row ↔
    row.2 < depth ∧ (row.1, t) ∈ scope.adjacency stored ∧ d = row.2 + 1 := by
  unfold Scope.walkStep
  split
  · rename_i hlt
    rw [Finset.mem_image]
    constructor
    · rintro ⟨⟨a, b⟩, he, heq⟩
      cases heq
      obtain ⟨he, rfl⟩ := Finset.mem_filter.mp he
      exact ⟨hlt, he, rfl⟩
    · rintro ⟨-, he, rfl⟩
      exact ⟨(row.1, t), Finset.mem_filter.mpr ⟨he, rfl⟩, rfl⟩
  · rename_i hge
    exact ⟨fun h => absurd h (Finset.notMem_empty _), fun h => absurd h.1 hge⟩

theorem level_le (h : Derived (scope.walkStep stored depth) {(noteId, 0)} row) : row.2 ≤ depth := by
  cases h with
  | base h =>
    rw [Finset.mem_singleton.mp h]
    exact Nat.zero_le _
  | step _ h' =>
    obtain ⟨hlt, -, hd⟩ := mem_walkStep.mp h'
    omega

theorem edist_step (h : (s, t) ∈ scope.adjacency stored) : (scope.linkGraph stored).edist noteId t ≤
    (scope.linkGraph stored).edist noteId s + 1 := by
  by_cases hst : s = t
  · rw [hst]
    exact le_self_add
  · have hadj : (scope.linkGraph stored).Adj s t :=
      (SimpleGraph.fromRel_adj _ _ _).mpr ⟨hst, mem_adjacency.mp h⟩
    refine SimpleGraph.edist_triangle.trans (add_le_add_right ?_ _)
    exact (SimpleGraph.edist_eq_one_iff_adj.mpr hadj).le

theorem edist_le_of_derived (h : Derived (scope.walkStep stored depth) {(noteId, 0)} row) :
    (scope.linkGraph stored).edist noteId row.1 ≤ row.2 := by
  induction h with
  | base h =>
    rw [Finset.mem_singleton.mp h]
    exact (SimpleGraph.edist_eq_zero_iff.mpr rfl).le
  | @step r r' _ h' ih =>
    obtain ⟨-, hadj, hd⟩ := mem_walkStep.mp h'
    rw [hd]
    refine (edist_step hadj).trans ?_
    push_cast
    exact add_le_add_left ih 1

/-- A path from the note is walked edge by edge. -/
theorem derived_of_walk (p : (scope.linkGraph stored).Walk t noteId) (h : p.length ≤ depth) :
    Derived (scope.walkStep stored depth) {(noteId, 0)} (t, p.length) := by
  induction p with
  | nil => exact .base (Finset.mem_singleton_self _)
  | @cons u v w hadj p ih =>
    rw [SimpleGraph.Walk.length_cons] at h ⊢
    refine .step (ih (by omega)) (mem_walkStep.mpr ⟨h, mem_adjacency.mpr ?_, rfl⟩)
    exact ((SimpleGraph.fromRel_adj _ _ _).mp hadj).2.symm

/-- The walk reaches the notes within the distance. -/
theorem derived_iff : (∃ d, Derived (scope.walkStep stored depth) {(noteId, 0)} (t, d)) ↔
    (scope.linkGraph stored).edist noteId t ≤ depth := by
  constructor
  · rintro ⟨d, h⟩
    exact (edist_le_of_derived h).trans (Nat.cast_le.mpr (level_le h))
  · intro h
    rw [SimpleGraph.edist_comm] at h
    obtain ⟨p, hp⟩ := SimpleGraph.exists_walk_of_edist_ne_top (h.trans_lt (ENat.natCast_lt_top depth)).ne
    exact ⟨_, derived_of_walk p (Nat.cast_le.mp (hp.trans_le h))⟩

/-- The links that the query should give, each once and in order. -/
structure Induced (scope : Scope) (stored : Stored) (noteId : String) (depth : ℕ)
    (edges : List (String × String)) : Prop where
  mem : ∀ s t, (s, t) ∈ edges ↔ scope.Eligible stored s t ∧
    (scope.linkGraph stored).edist noteId s ≤ depth ∧ (scope.linkGraph stored).edist noteId t ≤ depth
  once : edges.Nodup
  sorted : edges.Pairwise fun a b => toLex a ≤ toLex b

/-- The owner of a link is that of the note it starts from. -/
def Stored.Denormalized (stored : Stored) : Prop :=
  ∀ l ∈ stored.db.links, ∀ n ∈ stored.db.notes, n.noteId = l.sourceNoteId → l.ownerId = n.ownerId

theorem Stored.Denormalized.eligible (h : stored.Denormalized) : scope.Eligible stored s t ↔
    (∃ l ∈ stored.db.links, l.sourceNoteId = s ∧ l.targetNoteId = t) ∧
      (∃ n ∈ stored.db.notes, n.noteId = s ∧ scope.admits n = true) ∧
        ∃ n ∈ stored.db.notes, n.noteId = t ∧ scope.admits n = true := by
  constructor
  · rintro ⟨⟨l, hl, -, hsource, htarget⟩, hends⟩
    exact ⟨⟨l, hl, hsource, htarget⟩, hends⟩
  · rintro ⟨⟨l, hl, hsource, htarget⟩, ⟨n, hn, hid, hadmits⟩, htargetNote⟩
    have howner : n.ownerId = scope.ownerId := of_decide_eq_true (Bool.and_eq_true_iff.mp hadmits).1
    exact ⟨⟨l, hl, (h l hl n hn (hid.trans hsource.symm)).trans howner, hsource, htarget⟩,
      ⟨n, hn, hid, hadmits⟩, htargetNote⟩

/-- **The query ends**, on any links, with the links of the owner between notes of the scope that are within the
distance; these are all the stored links between such notes when the owners of links are copies. -/
theorem neighborhood_spec (scope : Scope) (stored : Stored) (noteId : String) (depth : ℕ) :
    (∃ edges, Settles (scope.neighborhood stored noteId depth) edges ∧ Induced scope stored noteId depth edges) ∧
      (stored.Denormalized → ∀ s t, scope.Eligible stored s t ↔
        (∃ l ∈ stored.db.links, l.sourceNoteId = s ∧ l.targetNoteId = t) ∧
          (∃ n ∈ stored.db.notes, n.noteId = s ∧ scope.admits n = true) ∧
            ∃ n ∈ stored.db.notes, n.noteId = t ∧ scope.admits n = true) := by
  refine ⟨?_, fun h s t => h.eligible⟩
  obtain ⟨walked, hsettles, hwalked⟩ := recursiveUnion_settles (scope.walkStep stored depth)
    {(noteId, 0)} Prod.snd (fun row row' h => (mem_walkStep.mp h).2.2) (fun row => level_le)
  have hnodes : ∀ t, t ∈ walked.image Prod.fst ↔ (scope.linkGraph stored).edist noteId t ≤ depth := by
    intro t
    rw [← derived_iff, Finset.mem_image]
    constructor
    · rintro ⟨⟨t, d⟩, h, rfl⟩
      exact ⟨d, (hwalked _).mp h⟩
    · rintro ⟨d, h⟩
      exact ⟨(t, d), (hwalked _).mpr h, rfl⟩
  refine ⟨_, hsettles.map, fun s t => ?_, ?_, ranked_pairwise _ _⟩
  · rw [mem_ranked, List.mem_filter, mem_eligibleEdges, Bool.and_eq_true, decide_eq_true_iff, decide_eq_true_iff,
      hnodes, hnodes]
  · exact (ranked_perm _ _).nodup_iff.mpr ((eligibleEdges_nodup scope stored).filter _)

def noteIn (workspace noteId : String) : Note where
  noteId := noteId
  folder := []
  title := []
  workspace := workspace
  ownerId := "o"
  tags := []
  createdAt := ""
  updatedAt := ""
  occurredAt := none
  period := none
  indexGeneration := 1

/-- A cycle of three notes, one of them with a link to itself, and a link into another workspace. -/
def cycle : Stored where
  db := {
    notes := [noteIn "w" "a", noteIn "w" "b", noteIn "w" "c", noteIn "v" "d"]
    noteTags := []
    tags := []
    links := [⟨"a", "b", "w", "o"⟩, ⟨"b", "c", "w", "o"⟩, ⟨"c", "a", "w", "o"⟩, ⟨"b", "b", "w", "o"⟩,
      ⟨"a", "d", "w", "o"⟩]
    dangling := [] }
  ids := keyed_iff_nodup.mpr (by decide +kernel)
  once := keyed_iff_nodup.mpr (by decide +kernel)

example : (⟨"w", "o", false⟩ : Scope).neighborhood cycle "a" 1 3 =
    some [("a", "b"), ("b", "b"), ("b", "c"), ("c", "a")] := by decide +kernel

end Kajet.Graph
