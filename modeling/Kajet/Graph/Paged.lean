import Kajet.Graph.Assemble
import Kajet.Reconcile.Isolation

/-!
# The pages of the graph

* `Visited`                  the pages that `next_offset` leads through;
* `SameGraph`                the pages are the whole graph;
* `DanglingLocal`, `TagsLocal`   what the stored rows have to be like;
* `ShowsPart`, `parts_of_visited`   the pages as consecutive parts of the nodes;
* `Hubs`, `derived_iff_reaches`   tags and ancestors, together and note by note;
* `paged_iff`                the pages are the whole graph exactly in such states.
-/

namespace Kajet.Graph
open Rank Recursive Table Reconcile Links

/-- The pages from an offset on. -/
inductive Visited (graph : ℕ → Except GraphError Result) : ℕ → List Result → Prop where
  | last {offset : ℕ} {g : Result} (h : graph offset = .ok g) (hnext : g.page.bind (·.nextOffset) = none) :
    Visited graph offset [g]
  | next {offset next : ℕ} {g : Result} {gs : List Result} (h : graph offset = .ok g)
    (hnext : g.page.bind (·.nextOffset) = some next) (rest : Visited graph next gs) : Visited graph offset (g :: gs)

def Result.linkEdges (g : Result) : List Edge := g.edges.filter (·.isLink)

structure SameGraph (whole : Result) (pages : List Result) : Prop where
  notes : pages.flatMap (·.notes) = whole.notes
  /-- each one on one page -/
  links : (pages.flatMap (·.linkEdges)).Perm whole.linkEdges
  linksOnce : whole.linkEdges.Nodup
  dangling : (pages.flatMap fun g => g.dangling.getD []).Perm (whole.dangling.getD [])
  tags : ∀ t, t ∈ whole.tags ↔ ∃ g ∈ pages, t ∈ g.tags
  tagEdges : ∀ e : Edge, e.isLink = false → (e ∈ whole.edges ↔ ∃ g ∈ pages, e ∈ g.edges)
  tagged : ∀ g ∈ pages, ∀ noteId tagId, Edge.tagged noteId tagId ∈ g.edges → ∃ t ∈ g.tags, t.id = tagId
  parentTags : ∀ g ∈ pages, ∀ tagId parentId, Edge.child tagId parentId ∈ g.edges → ∃ t ∈ g.tags, t.id = parentId

namespace Target
variable (target : Target) (tables : Tables)

/-- The pages of a size end, and are the whole graph. -/
def PagedIsWhole (includeTags : Bool) (limit : ℕ) : Prop :=
  ∃ whole pages, target.graph tables includeTags none 0 = .ok whole ∧
    Visited (target.graph tables includeTags (some limit)) 0 pages ∧ SameGraph whole pages

/-- The notes of the graph. -/
def nodes : List Note :=
  target.resolveLinkNotes tables (ranked (fun id => toLex (-(target.degree tables id : ℤ), id)) (target.nodeIds tables))

def danglingRows : List DanglingLink :=
  tables.db.dangling.filter fun d => d.ownerId = target.ownerId && d.workspace = target.workspace

/-- The rows of dangling links are those of nodes. -/
def DanglingLocal : Prop :=
  target.listsDangling = true → ∀ d ∈ target.danglingRows tables, ∃ n ∈ target.nodes tables, n.noteId = d.sourceNoteId

/-- The tag is one of the note's. -/
def Assigned (n : Note) (t : Tag) : Prop :=
  t ∈ tables.db.tags ∧ t.ownerId = target.ownerId ∧ ∃ nt ∈ tables.db.noteTags, nt.noteId = n.noteId ∧ nt.tagId = t.id

/-- The tags of a node are of its workspace, and so are their ancestors, which are all there. -/
def TagsLocal : Prop :=
  ∀ n ∈ target.nodes tables, ∀ t, target.Assigned tables n t → t.workspace ∈ (target.nodes tables).map (·.workspace) →
    t.workspace = n.workspace ∧ ∀ id, Derived (Graph.parents (target.tagsIn tables [n.workspace])) {t.id} id →
      (byId (target.tagsIn tables [n.workspace]) id).isSome = true

/-! ## the parts of a graph -/

/-- The edges between nodes. -/
def keptEdges : List (String × String) :=
  ranked toLex ((target.edges tables).filter fun e =>
    e.1 ∈ (target.nodes tables).map (·.noteId) && e.2 ∈ (target.nodes tables).map (·.noteId))

def linksOf (shown : List Note) : List Edge :=
  ((target.keptEdges tables).filter fun e => e.1 ∈ shown.map (·.noteId)).map fun e => .link e.1 e.2

def rowsOf (shown : List Note) : List DanglingLink :=
  (target.danglingRows tables).filter fun d => d.sourceNoteId ∈ shown.map (·.noteId)

/-- The result shows these notes, tags and dangling links. -/
structure Shows (g : Result) (shown : List Note) (hubs : List Tag × List Edge) (rows : List DanglingLink) : Prop where
  notes : g.notes = shown.map noteNode
  tags : g.tags = hubs.1
  edges : g.edges = ranked (fun e => toLex e.ends) (target.linksOf tables shown ++ hubs.2)
  dangling : g.dangling = if target.listsDangling then some rows else none

variable {target tables} {includeTags : Bool} {limit offset : ℕ} {g : Result} {shown : List Note}
  {hubs : List Tag × List Edge} {rows : List DanglingLink} {n : Note} {t : Tag} {id : String} {e : Edge}

theorem graph_whole : target.graph tables includeTags none 0 = .ok g → ∃ hubs,
    target.tagsOf tables includeTags (target.nodes tables) = .ok hubs ∧
      target.Shows tables g (target.nodes tables) hubs (target.danglingRows tables) := by
  intro h
  obtain ⟨hubs, hhubs, h⟩ := bind_ok h
  cases h
  refine ⟨hubs, hhubs, rfl, rfl, rfl, ?_⟩
  show (if target.listsDangling then some ((target.danglingRows tables).filter fun _ => true) else none) = _
  rw [List.filter_true]

theorem graph_page (h : target.graph tables includeTags (some limit) offset = .ok g) : ∃ hubs,
    target.tagsOf tables includeTags (((target.nodes tables).drop offset).take limit) = .ok hubs ∧
      g.page.bind (·.nextOffset) =
        (if offset + limit < (target.nodes tables).length then some (offset + limit) else none) ∧
      target.Shows tables g (((target.nodes tables).drop offset).take limit) hubs
        (target.rowsOf tables (((target.nodes tables).drop offset).take limit)) := by
  obtain ⟨hubs, hhubs, h⟩ := bind_ok h
  cases h
  exact ⟨hubs, hhubs, rfl, rfl, rfl, rfl, rfl⟩

theorem exists_graph_whole (h : target.tagsOf tables includeTags (target.nodes tables) = .ok hubs) :
    ∃ g, target.graph tables includeTags none 0 = .ok g := by
  unfold nodes at h
  simp only [graph, buildGraph, Option.elim_none, h]
  exact ⟨_, rfl⟩

theorem exists_graph_page
    (h : target.tagsOf tables includeTags (((target.nodes tables).drop offset).take limit) = .ok hubs) :
    ∃ g, target.graph tables includeTags (some limit) offset = .ok g := by
  unfold nodes at h
  simp only [graph, buildGraph, Option.elim_some, h]
  exact ⟨_, rfl⟩

/-! ## the pages are parts of the nodes -/

structure ShowsPart (target : Target) (tables : Tables) (includeTags : Bool) (limit : ℕ) (g : Result)
    (part : List Note) : Prop where
  sub : part ⊆ target.nodes tables
  length : part.length ≤ limit
  shown : ∃ hubs, target.tagsOf tables includeTags part = .ok hubs ∧
    target.Shows tables g part hubs (target.rowsOf tables part)

theorem showsPart (h : target.graph tables includeTags (some limit) offset = .ok g) :
    ShowsPart target tables includeTags limit g (((target.nodes tables).drop offset).take limit) := by
  obtain ⟨hubs, hhubs, -, hshows⟩ := graph_page h
  exact ⟨((List.take_sublist _ _).trans (List.drop_sublist _ _)).subset, List.length_take_le _ _, hubs, hhubs, hshows⟩

theorem parts_of_visited {pages : List Result}
    (h : Visited (target.graph tables includeTags (some limit)) offset pages) :
    ∃ parts : List (List Note), parts.flatten = (target.nodes tables).drop offset ∧
      List.Forall₂ (ShowsPart target tables includeTags limit) pages parts := by
  induction h with
  | @last offset g h hnext =>
    obtain ⟨-, -, hpage, -⟩ := graph_page h
    rw [hnext] at hpage
    refine ⟨[_], ?_, .cons (showsPart h) .nil⟩
    rw [List.flatten_singleton]
    refine List.take_of_length_le ?_
    rw [List.length_drop]
    split at hpage
    · cases hpage
    · omega
  | @next offset next g gs h hnext _ ih =>
    obtain ⟨-, -, hpage, -⟩ := graph_page h
    obtain ⟨parts, hparts, hall⟩ := ih
    rw [hnext] at hpage
    split at hpage
    · cases hpage
      refine ⟨_ :: parts, ?_, .cons (showsPart h) hall⟩
      rw [List.flatten_cons, hparts, ← List.drop_drop]
      exact List.take_append_drop _ _
    · cases hpage

/-- A page that is not the last one goes on behind itself. -/
theorem exists_visited
    (htotal : ∀ shown : List Note, shown ⊆ target.nodes tables → ∃ hubs, target.tagsOf tables includeTags shown = .ok hubs)
    (offset : ℕ) : ∃ pages, Visited (target.graph tables includeTags (some (limit + 1))) offset pages := by
  obtain ⟨hubs, hhubs⟩ := htotal (((target.nodes tables).drop offset).take (limit + 1))
    ((List.take_sublist _ _).trans (List.drop_sublist _ _)).subset
  obtain ⟨g, hg⟩ := exists_graph_page hhubs
  obtain ⟨-, -, hpage, -⟩ := graph_page hg
  split at hpage
  · obtain ⟨pages, h⟩ := exists_visited htotal (offset + (limit + 1))
    exact ⟨g :: pages, .next hg hpage h⟩
  · exact ⟨[g], .last hg hpage⟩
termination_by (target.nodes tables).length - offset

/-! ## links and rows -/

theorem resolveLinkNotes_sublist (noteIds : List String) :
    ((target.resolveLinkNotes tables noteIds).map (·.noteId)).Sublist noteIds := by
  induction noteIds with
  | nil => exact .slnil
  | cons id noteIds ih =>
    unfold resolveLinkNotes at ih ⊢
    rw [List.filterMap_cons]
    split
    · exact ih.cons _
    · rename_i n hn
      have hid : n.noteId = id := by
        have := List.find?_some hn
        simp only [Bool.and_eq_true, decide_eq_true_iff] at this
        exact this.1
      rw [List.map_cons, hid]
      exact ih.cons_cons _

theorem nodes_nodup : ((target.nodes tables).map (·.noteId)).Nodup :=
  ((ranked_perm _ _).nodup_iff.mpr (List.nodup_dedup _)).sublist (resolveLinkNotes_sublist _)

theorem mem_notes (h : n ∈ target.nodes tables) : n ∈ tables.db.notes := by
  obtain ⟨id, -, hn⟩ := List.mem_filterMap.mp h
  exact List.mem_of_find?_eq_some hn

theorem keptEdges_nodup : (target.keptEdges tables).Nodup := by
  refine (ranked_perm _ _).nodup_iff.mpr (List.Nodup.filter _ ?_)
  exact (keyed_iff_nodup.mp tables.once).sublist (List.filter_sublist.map _)

end Target

/-- What is selected for the parts of a list, part by part. -/
theorem flatMap_filter_perm {α β κ : Type} [DecidableEq κ] {key : α → κ} {id : β → κ} {parts : List (List β)}
    (l : List α) (h : (parts.flatten.map id).Nodup) :
    (parts.flatMap fun part => l.filter fun a => key a ∈ part.map id).Perm
      (l.filter fun a => key a ∈ parts.flatten.map id) := by
  induction parts with
  | nil => simp
  | cons part parts ih =>
    rw [List.flatten_cons, List.map_append, List.nodup_append'] at h
    rw [List.flatMap_cons, List.flatten_cons, List.map_append]
    refine ((ih h.2.1).append_left _).trans (Multiset.coe_eq_coe.mp ?_)
    have hnone : Multiset.filter (fun a => key a ∈ part.map id ∧ key a ∈ parts.flatten.map id) l = 0 :=
      Multiset.filter_eq_nil.mpr fun a _ hboth => h.2.2 hboth.1 hboth.2
    simp only [← Multiset.coe_add, ← Multiset.filter_coe, Multiset.filter_add_filter, hnone, add_zero, List.mem_append]

/-! ## the tags, note by note -/

namespace Target
section
variable (target : Target) (tables : Tables)

def assignedIds (shown : List Note) : List String := ((target.assignments tables shown).map (·.2)).dedup

/-- The tag is of the note's workspace too. -/
def OwnTag (n : Note) (t : Tag) : Prop := target.Assigned tables n t ∧ t.workspace = n.workspace

/-- One of the note's tags, or an ancestor of one. -/
def Reaches (n : Note) (id : String) : Prop :=
  ∃ t, target.OwnTag tables n t ∧ Derived (Graph.parents (target.tagsIn tables [n.workspace])) {t.id} id

def HasEdge (n : Note) (e : Edge) : Prop :=
  (∃ t, target.OwnTag tables n t ∧ e = .tagged n.noteId t.id) ∨
    ∃ t ∈ tables.db.tags, target.Reaches tables n t.id ∧ ∃ parent, t.parentId = some parent ∧ e = .child t.id parent

end

variable {target : Target} {tables : Tables} {includeTags : Bool} {shown : List Note}
  {hubs : List Tag × List Edge} {workspaces : List String} {n : Note} {t : Tag} {id noteId tagId : String} {e : Edge}

theorem mem_tagsIn : t ∈ target.tagsIn tables workspaces ↔
    t ∈ tables.db.tags ∧ t.ownerId = target.ownerId ∧ t.workspace ∈ workspaces := by
  rw [tagsIn, List.mem_filter, Bool.and_eq_true, decide_eq_true_iff, decide_eq_true_iff]

theorem byId_eq : byId (target.tagsIn tables workspaces) id = some t ↔
    t ∈ target.tagsIn tables workspaces ∧ t.id = id :=
  Keyed.row_eq (keyed_iff_nodup.mpr ((keyed_iff_nodup.mp tables.tagIds).sublist (List.filter_sublist.map _)))

theorem mem_assignments : (noteId, tagId) ∈ target.assignments tables shown ↔ ∃ n ∈ shown, n.noteId = noteId ∧
    ∃ t, target.Assigned tables n t ∧ t.workspace ∈ shown.map (·.workspace) ∧ t.id = tagId := by
  simp only [assignments, List.mem_flatMap, List.mem_map, List.mem_filter, mem_tagsIn, decide_eq_true_iff]
  constructor
  · rintro ⟨nt, ⟨hnt, n, hn, hnote⟩, t, ⟨⟨ht, howner, hworkspace⟩, htag⟩, heq⟩
    cases heq
    exact ⟨n, hn, hnote, t, ⟨ht, howner, nt, hnt, hnote.symm, htag.symm⟩, hworkspace, rfl⟩
  · rintro ⟨n, hn, rfl, t, ⟨ht, howner, nt, hnt, hnote, htag⟩, hworkspace, rfl⟩
    exact ⟨nt, ⟨hnt, n, hn, hnote.symm⟩, t, ⟨⟨ht, howner, hworkspace⟩, htag.symm⟩, by rw [hnote]⟩

theorem mem_assignedIds : id ∈ (target.assignedIds tables shown).toFinset ↔ ∃ n ∈ shown,
    ∃ t, target.Assigned tables n t ∧ t.workspace ∈ shown.map (·.workspace) ∧ t.id = id := by
  rw [List.mem_toFinset, assignedIds, List.mem_dedup, List.mem_map]
  constructor
  · rintro ⟨⟨noteId, tagId⟩, h, rfl⟩
    obtain ⟨n, hn, -, ht⟩ := mem_assignments.mp h
    exact ⟨n, hn, ht⟩
  · rintro ⟨n, hn, ht⟩
    exact ⟨(n.noteId, id), mem_assignments.mpr ⟨n, hn, rfl, ht⟩, rfl⟩

/-- The tags of these notes, as they are taken together. -/
structure Hubs (target : Target) (tables : Tables) (shown : List Note) (hubs : List Tag × List Edge) : Prop where
  found : ∀ id, Derived (Graph.parents (target.tagsIn tables (shown.map (·.workspace))))
    (target.assignedIds tables shown).toFinset id →
      (byId (target.tagsIn tables (shown.map (·.workspace))) id).isSome = true
  tags : ∀ t, t ∈ hubs.1 ↔ t ∈ target.tagsIn tables (shown.map (·.workspace)) ∧
    Derived (Graph.parents (target.tagsIn tables (shown.map (·.workspace))))
      (target.assignedIds tables shown).toFinset t.id
  edges : ∀ e, e ∈ hubs.2 ↔ (∃ a ∈ target.assignments tables shown, e = .tagged a.1 a.2) ∨
    ∃ t ∈ hubs.1, ∃ parent, t.parentId = some parent ∧ e = .child t.id parent

theorem hubs_of_graphTags (h : target.graphTags tables shown = .ok hubs) : Hubs target tables shown hubs := by
  obtain ⟨included, hincluded, h⟩ := bind_ok h
  cases h
  have hsound := followParents_sound hincluded
  have htags : ∀ t, t ∈ ranked (fun t : Tag => toLex (t.workspace, t.path))
        ((target.tagsIn tables (shown.map (·.workspace))).filter fun t => t.id ∈ included) ↔
      t ∈ target.tagsIn tables (shown.map (·.workspace)) ∧
        Derived (Graph.parents (target.tagsIn tables (shown.map (·.workspace))))
          (target.assignedIds tables shown).toFinset t.id := by
    intro t
    rw [mem_ranked, List.mem_filter, decide_eq_true_iff]
    exact and_congr_right fun _ => (hsound t.id).1
  refine ⟨fun id hid => (hsound id).2 ((hsound id).1.mpr hid), htags, fun e => ?_⟩
  rw [List.mem_append, List.mem_map, List.mem_filterMap]
  refine or_congr (exists_congr fun a => and_congr_right fun _ => eq_comm) (exists_congr fun t => ?_)
  rw [htags, List.mem_filter, decide_eq_true_iff, (hsound t.id).1]
  refine and_congr_right fun _ => ?_
  rw [Option.map_eq_some_iff]
  exact exists_congr fun parent => and_congr_right fun _ => eq_comm

/-- The parent of a tag is there, as all that is reached. -/
theorem Hubs.mem_parent (h : Hubs target tables shown hubs) (ht : t ∈ hubs.1) {parent : String}
    (hparent : t.parentId = some parent) : ∃ t' ∈ hubs.1, t'.id = parent := by
  obtain ⟨hmem, hderived⟩ := (h.tags t).mp ht
  have hstep : Derived (Graph.parents (target.tagsIn tables (shown.map (·.workspace))))
      (target.assignedIds tables shown).toFinset parent :=
    .step hderived (mem_parents.mpr ⟨t, byId_eq.mpr ⟨hmem, rfl⟩, hparent⟩)
  obtain ⟨t', ht'⟩ := Option.isSome_iff_exists.mp (h.found parent hstep)
  obtain ⟨hmem', hid⟩ := byId_eq.mp ht'
  exact ⟨t', (h.tags t').mpr ⟨hmem', hid ▸ hstep⟩, hid⟩

theorem Hubs.mem_assigned (h : Hubs target tables shown hubs) (ha : (noteId, tagId) ∈ target.assignments tables shown) :
    ∃ t ∈ hubs.1, t.id = tagId := by
  have hbase : Derived (Graph.parents (target.tagsIn tables (shown.map (·.workspace))))
      (target.assignedIds tables shown).toFinset tagId := by
    obtain ⟨n, hn, -, ht⟩ := mem_assignments.mp ha
    exact .base (mem_assignedIds.mpr ⟨n, hn, ht⟩)
  obtain ⟨t, ht⟩ := Option.isSome_iff_exists.mp (h.found tagId hbase)
  obtain ⟨hmem, hid⟩ := byId_eq.mp ht
  exact ⟨t, (h.tags t).mpr ⟨hmem, hid ▸ hbase⟩, hid⟩

theorem Hubs.isLink (h : Hubs target tables shown hubs) (he : e ∈ hubs.2) : e.isLink = false := by
  rcases (h.edges e).mp he with ⟨a, -, rfl⟩ | ⟨t, -, parent, -, rfl⟩ <;> rfl

theorem byId_mono (hw : n.workspace ∈ workspaces) (h : byId (target.tagsIn tables [n.workspace]) id = some t) :
    byId (target.tagsIn tables workspaces) id = some t := by
  obtain ⟨ht, hid⟩ := byId_eq.mp h
  obtain ⟨ht, howner, hworkspace⟩ := mem_tagsIn.mp ht
  rw [List.mem_singleton.mp hworkspace |>.symm] at hw
  exact byId_eq.mpr ⟨mem_tagsIn.mpr ⟨ht, howner, hw⟩, hid⟩

section
variable (hlocal : target.TagsLocal tables) (hshown : shown ⊆ target.nodes tables)
include hlocal hshown

theorem ownTag_iff (hn : n ∈ shown) : target.Assigned tables n t ∧ t.workspace ∈ shown.map (·.workspace) ↔
    target.OwnTag tables n t := by
  refine and_congr_right fun ht => ⟨fun hw => ?_, fun hw => hw ▸ List.mem_map_of_mem hn⟩
  exact (hlocal n (hshown hn) t ht (List.map_subset _ hshown hw)).1

/-- The tags of a note lead to tags of its own workspace. -/
theorem derived_iff_reaches : Derived (Graph.parents (target.tagsIn tables (shown.map (·.workspace))))
      (target.assignedIds tables shown).toFinset id ↔ ∃ n ∈ shown, target.Reaches tables n id := by
  constructor
  · intro h
    induction h with
    | base h =>
      obtain ⟨n, hn, t, ht, hw, rfl⟩ := mem_assignedIds.mp h
      exact ⟨n, hn, t, (ownTag_iff hlocal hshown hn).mp ⟨ht, hw⟩, .base (Finset.mem_singleton_self _)⟩
    | @step r r' _ h' ih =>
      obtain ⟨n, hn, t, ht, hderived⟩ := ih
      have hsome := (hlocal n (hshown hn) t ht.1 (ht.2 ▸ List.mem_map_of_mem (hshown hn))).2 r hderived
      obtain ⟨tag, htag⟩ := Option.isSome_iff_exists.mp hsome
      obtain ⟨tag', htag', hparent⟩ := mem_parents.mp h'
      rw [byId_mono (List.mem_map_of_mem hn) htag] at htag'
      cases htag'
      exact ⟨n, hn, t, ht, .step hderived (mem_parents.mpr ⟨tag, htag, hparent⟩)⟩
  · rintro ⟨n, hn, t, ht, hderived⟩
    induction hderived with
    | base h =>
      rw [Finset.mem_singleton.mp h]
      exact .base (mem_assignedIds.mpr ⟨n, hn, t, ht.1, ((ownTag_iff hlocal hshown hn).mpr ht).2, rfl⟩)
    | step _ h' ih =>
      obtain ⟨tag, htag, hparent⟩ := mem_parents.mp h'
      exact .step ih (mem_parents.mpr ⟨tag, byId_mono (List.mem_map_of_mem hn) htag, hparent⟩)

theorem Reaches.found (hn : n ∈ shown) (h : target.Reaches tables n id) :
    (byId (target.tagsIn tables [n.workspace]) id).isSome = true := by
  obtain ⟨t, ht, hderived⟩ := h
  exact (hlocal n (hshown hn) t ht.1 (ht.2 ▸ List.mem_map_of_mem (hshown hn))).2 id hderived

theorem exists_graphTags : ∃ hubs, target.graphTags tables shown = .ok hubs := by
  have hfound : ∀ id, Derived (Graph.parents (target.tagsIn tables (shown.map (·.workspace))))
      (target.assignedIds tables shown).toFinset id →
        (byId (target.tagsIn tables (shown.map (·.workspace))) id).isSome = true := by
    intro id hid
    obtain ⟨n, hn, hreaches⟩ := (derived_iff_reaches hlocal hshown).mp hid
    obtain ⟨tag, htag⟩ := Option.isSome_iff_exists.mp (hreaches.found hlocal hshown hn)
    rw [byId_mono (List.mem_map_of_mem hn) htag]
    rfl
  have hfuel : (target.assignedIds tables shown).length +
      (((target.tagsIn tables (shown.map (·.workspace))).map (·.id)).toFinset \
        (target.assignedIds tables shown).toFinset).card ≤
      (target.assignedIds tables shown).length + (target.tagsIn tables (shown.map (·.workspace))).length + 1 := by
    have hcard := (Finset.card_le_card (Finset.sdiff_subset (s := ((target.tagsIn tables
      (shown.map (·.workspace))).map (·.id)).toFinset) (t := (target.assignedIds tables shown).toFinset))).trans
        (List.toFinset_card_le _)
    rw [List.length_map] at hcard
    omega
  obtain ⟨s, hs⟩ := followParents_total (fun _ => List.mem_toFinset.mpr) hfound hfuel
  unfold graphTags
  unfold assignedIds at hs
  simp only [hs]
  exact ⟨_, rfl⟩

theorem Hubs.mem_tags (h : Hubs target tables shown hubs) :
    t ∈ hubs.1 ↔ t ∈ tables.db.tags ∧ ∃ n ∈ shown, target.Reaches tables n t.id := by
  rw [h.tags, derived_iff_reaches hlocal hshown]
  refine and_congr_left fun ⟨n, hn, hreaches⟩ => ⟨fun ht => (mem_tagsIn.mp ht).1, fun ht => ?_⟩
  obtain ⟨t', ht'⟩ := Option.isSome_iff_exists.mp (hreaches.found hlocal hshown hn)
  obtain ⟨hmem, hid⟩ := byId_eq.mp (byId_mono (List.mem_map_of_mem hn) ht')
  rw [tables.tagIds.eq ht (mem_tagsIn.mp hmem).1 hid.symm]
  exact hmem

theorem Hubs.mem_edges (h : Hubs target tables shown hubs) :
    e ∈ hubs.2 ↔ ∃ n ∈ shown, target.HasEdge tables n e := by
  rw [h.edges]
  constructor
  · rintro (⟨⟨noteId, tagId⟩, ha, rfl⟩ | ⟨t, ht, hedge⟩)
    · obtain ⟨n, hn, rfl, t, ht, hw, rfl⟩ := mem_assignments.mp ha
      exact ⟨n, hn, .inl ⟨t, (ownTag_iff hlocal hshown hn).mp ⟨ht, hw⟩, rfl⟩⟩
    · obtain ⟨ht, n, hn, hreaches⟩ := (h.mem_tags hlocal hshown).mp ht
      exact ⟨n, hn, .inr ⟨t, ht, hreaches, hedge⟩⟩
  · rintro ⟨n, hn, ⟨t, ht, rfl⟩ | ⟨t, ht, hreaches, hedge⟩⟩
    · obtain ⟨hassigned, hw⟩ := (ownTag_iff hlocal hshown hn).mpr ht
      exact .inl ⟨(n.noteId, t.id), mem_assignments.mpr ⟨n, hn, rfl, t, hassigned, hw, rfl⟩, rfl⟩
    · exact .inr ⟨t, (h.mem_tags hlocal hshown).mpr ⟨ht, n, hn, hreaches⟩, hedge⟩

end

/-! ## the pages together -/

theorem isLink_linksOf (he : e ∈ target.linksOf tables shown) : e.isLink = true := by
  obtain ⟨a, -, rfl⟩ := List.mem_map.mp he
  rfl

theorem not_isLink_of_tagsOf (h : target.tagsOf tables includeTags shown = .ok hubs) (he : e ∈ hubs.2) :
    e.isLink = false := by
  cases includeTags with
  | false =>
    cases h
    cases he
  | true => exact (hubs_of_graphTags h).isLink he

variable {g : Result} {rows : List DanglingLink}

theorem Shows.mem_edges (h : target.Shows tables g shown hubs rows) (he : e.isLink = false) : e ∈ g.edges ↔ e ∈ hubs.2 := by
  rw [h.edges, mem_ranked, List.mem_append]
  refine or_iff_right fun hlink => ?_
  rw [isLink_linksOf hlink] at he
  cases he

theorem Shows.linkEdges (h : target.Shows tables g shown hubs rows)
    (hhubs : target.tagsOf tables includeTags shown = .ok hubs) : g.linkEdges.Perm (target.linksOf tables shown) := by
  rw [Result.linkEdges, h.edges]
  refine ((ranked_perm _ _).filter _).trans (List.Perm.of_eq ?_)
  rw [List.filter_append, List.filter_eq_self.mpr fun e he => isLink_linksOf he, List.filter_eq_nil_iff.mpr,
    List.append_nil]
  intro e he
  rw [not_isLink_of_tagsOf hhubs he]
  exact Bool.false_ne_true

theorem linksOf_nodup : (target.linksOf tables shown).Nodup :=
  (keptEdges_nodup.filter _).map fun a b h => by
    injection h with hsource htarget
    exact Prod.ext hsource htarget

theorem linksOf_flatten {parts : List (List Note)} (h : parts.flatten = target.nodes tables) :
    (parts.flatMap (target.linksOf tables)).Perm (target.linksOf tables (target.nodes tables)) := by
  have hperm := @flatMap_filter_perm _ _ _ _ (fun e : String × String => e.1) (fun n : Note => n.noteId) _ (target.keptEdges tables)
    (h ▸ nodes_nodup)
  rw [h] at hperm
  unfold linksOf
  rw [← List.map_flatMap]
  exact hperm.map _

theorem rowsOf_flatten {parts : List (List Note)} (h : parts.flatten = target.nodes tables)
    (hlocal : ∀ d ∈ target.danglingRows tables, ∃ n ∈ target.nodes tables, n.noteId = d.sourceNoteId) :
    (parts.flatMap (target.rowsOf tables)).Perm (target.danglingRows tables) := by
  have hperm := @flatMap_filter_perm _ _ _ _ (fun d : DanglingLink => d.sourceNoteId) (fun n : Note => n.noteId) _
    (target.danglingRows tables) (h ▸ nodes_nodup)
  rw [h] at hperm
  refine hperm.trans (List.Perm.of_eq (List.filter_eq_self.mpr fun d hd => ?_))
  obtain ⟨n, hn, hid⟩ := hlocal d hd
  exact decide_eq_true (List.mem_map.mpr ⟨n, hn, hid⟩)

theorem mem_tagsOf (hlocal : target.TagsLocal tables) (hshown : shown ⊆ target.nodes tables)
    (h : target.tagsOf tables includeTags shown = .ok hubs) :
    (∀ t, t ∈ hubs.1 ↔ ∃ n ∈ shown, includeTags = true ∧ t ∈ tables.db.tags ∧ target.Reaches tables n t.id) ∧
      ∀ e, e ∈ hubs.2 ↔ ∃ n ∈ shown, includeTags = true ∧ target.HasEdge tables n e := by
  cases includeTags with
  | false =>
    cases h
    exact ⟨fun t => by simp, fun e => by simp⟩
  | true =>
    refine ⟨fun t => ?_, fun e => ?_⟩
    · rw [(hubs_of_graphTags h).mem_tags hlocal hshown]
      exact ⟨fun ⟨ht, n, hn, hreaches⟩ => ⟨n, hn, rfl, ht, hreaches⟩, fun ⟨n, hn, _, ht, hreaches⟩ => ⟨ht, n, hn, hreaches⟩⟩
    · rw [(hubs_of_graphTags h).mem_edges hlocal hshown]
      exact exists_congr fun n => and_congr_right fun _ => (and_iff_right rfl).symm

end Target

section
variable {α β γ : Type} {r : α → β → Prop} {xs : List α} {ys : List β}

theorem forall₂_flatMap {f : α → List γ} {f' : β → List γ} (hall : List.Forall₂ r xs ys)
    (hr : ∀ x y, r x y → (f x).Perm (f' y)) : (xs.flatMap f).Perm (ys.flatMap f') := by
  induction hall with
  | nil => exact .nil
  | cons h _ ih =>
    rw [List.flatMap_cons, List.flatMap_cons]
    exact (hr _ _ h).append ih

theorem forall₂_exists {p : α → Prop} {q : β → Prop} (hall : List.Forall₂ r xs ys) (hr : ∀ x y, r x y → (p x ↔ q y)) :
    (∃ x ∈ xs, p x) ↔ ∃ y ∈ ys, q y := by
  induction hall with
  | nil => simp
  | cons h _ ih => rw [List.exists_mem_cons_iff, List.exists_mem_cons_iff, hr _ _ h, ih]

theorem forall₂_forall {p : α → Prop} (hall : List.Forall₂ r xs ys) (hr : ∀ x y, r x y → p x) : ∀ x ∈ xs, p x :=
  ((List.forall₂_and_left xs ys).mp (hall.imp fun x y h => ⟨hr x y h, h⟩)).1

end

namespace Target
variable {target : Target} {tables : Tables} {includeTags : Bool} {limit : ℕ} {hubs : List Tag × List Edge}
  {whole g : Result} {pages : List Result} {parts : List (List Note)} {part : List Note} {noteId tagId : String}

theorem notes_of_parts (hall : List.Forall₂ (ShowsPart target tables includeTags limit) pages parts) :
    pages.flatMap (·.notes) = parts.flatten.map noteNode := by
  induction hall with
  | nil => rfl
  | cons h _ ih =>
    obtain ⟨-, -, hubs, -, hshows⟩ := h
    rw [List.flatMap_cons, List.flatten_cons, List.map_append, ih, hshows.notes]

/-- The tags of a page are complete: it has the tag of each assignment, and the parents. -/
theorem ShowsPart.complete (h : ShowsPart target tables includeTags limit g part) :
    (∀ noteId tagId, Edge.tagged noteId tagId ∈ g.edges → ∃ t ∈ g.tags, t.id = tagId) ∧
      ∀ tagId parentId, Edge.child tagId parentId ∈ g.edges → ∃ t ∈ g.tags, t.id = parentId := by
  obtain ⟨-, -, hubs, hhubs, hshows⟩ := h
  rw [hshows.tags]
  cases includeTags with
  | false =>
    cases hhubs
    exact ⟨fun _ _ he => absurd ((hshows.mem_edges rfl).mp he) List.not_mem_nil,
      fun _ _ he => absurd ((hshows.mem_edges rfl).mp he) List.not_mem_nil⟩
  | true =>
    have hhubs := hubs_of_graphTags hhubs
    refine ⟨fun noteId tagId he => ?_, fun tagId parentId he => ?_⟩
    · rcases (hhubs.edges _).mp ((hshows.mem_edges rfl).mp he) with ⟨a, ha, heq⟩ | ⟨t, -, parent, -, heq⟩
      · cases heq
        exact hhubs.mem_assigned ha
      · cases heq
    · rcases (hhubs.edges _).mp ((hshows.mem_edges rfl).mp he) with ⟨a, -, heq⟩ | ⟨t, ht, parent, hparent, heq⟩
      · cases heq
      · cases heq
        exact hhubs.mem_parent ht hparent

theorem sameGraph (hdangling : target.DanglingLocal tables) (htags : target.TagsLocal tables)
    (hhubs : target.tagsOf tables includeTags (target.nodes tables) = .ok hubs)
    (hwhole : target.Shows tables whole (target.nodes tables) hubs (target.danglingRows tables))
    (hparts : parts.flatten = target.nodes tables)
    (hall : List.Forall₂ (ShowsPart target tables includeTags limit) pages parts) : SameGraph whole pages where
  notes := by rw [notes_of_parts hall, hparts, hwhole.notes]
  links := by
    refine ((forall₂_flatMap hall fun g part h => ?_).trans (linksOf_flatten hparts)).trans (hwhole.linkEdges hhubs).symm
    obtain ⟨-, -, hubs, hhubs, hshows⟩ := h
    exact hshows.linkEdges hhubs
  linksOnce := (hwhole.linkEdges hhubs).nodup_iff.mpr linksOf_nodup
  dangling := by
    cases hlists : target.listsDangling with
    | false =>
      have hpage : ∀ g part, ShowsPart target tables includeTags limit g part →
          (g.dangling.getD []).Perm ((fun _ => []) part) := by
        rintro g part ⟨-, -, hubs, -, hshows⟩
        rw [hshows.dangling, hlists]
        exact .nil
      rw [hwhole.dangling, hlists]
      refine (forall₂_flatMap hall hpage).trans (List.Perm.of_eq ?_)
      exact List.flatMap_eq_nil_iff.mpr fun _ _ => rfl
    | true =>
      have hpage : ∀ g part, ShowsPart target tables includeTags limit g part →
          (g.dangling.getD []).Perm (target.rowsOf tables part) := by
        rintro g part ⟨-, -, hubs, -, hshows⟩
        rw [hshows.dangling, hlists]
        exact .refl _
      rw [hwhole.dangling, hlists]
      exact (forall₂_flatMap hall hpage).trans (rowsOf_flatten hparts (hdangling hlists))
  tags t := by
    have hpage : ∀ g part, ShowsPart target tables includeTags limit g part → (t ∈ g.tags ↔ ∃ n ∈ part,
        includeTags = true ∧ t ∈ tables.db.tags ∧ target.Reaches tables n t.id) := by
      rintro g part ⟨hsub, -, hubs, hhubs, hshows⟩
      rw [hshows.tags]
      exact (mem_tagsOf htags hsub hhubs).1 t
    rw [hwhole.tags, (mem_tagsOf htags (List.Subset.refl _) hhubs).1 t, forall₂_exists hall hpage, ← hparts]
    simp only [List.mem_flatten]
    exact ⟨fun ⟨n, ⟨part, hpart, hn⟩, h⟩ => ⟨part, hpart, n, hn, h⟩, fun ⟨part, hpart, n, hn, h⟩ => ⟨n, ⟨part, hpart, hn⟩, h⟩⟩
  tagEdges e he := by
    have hpage : ∀ g part, ShowsPart target tables includeTags limit g part → (e ∈ g.edges ↔ ∃ n ∈ part,
        includeTags = true ∧ target.HasEdge tables n e) := by
      rintro g part ⟨hsub, -, hubs, hhubs, hshows⟩
      rw [hshows.mem_edges he]
      exact (mem_tagsOf htags hsub hhubs).2 e
    rw [hwhole.mem_edges he, (mem_tagsOf htags (List.Subset.refl _) hhubs).2 e, forall₂_exists hall hpage, ← hparts]
    simp only [List.mem_flatten]
    exact ⟨fun ⟨n, ⟨part, hpart, hn⟩, h⟩ => ⟨part, hpart, n, hn, h⟩, fun ⟨part, hpart, n, hn, h⟩ => ⟨n, ⟨part, hpart, hn⟩, h⟩⟩
  tagged := forall₂_forall hall fun g part h => h.complete.1
  parentTags := forall₂_forall hall fun g part h => h.complete.2

/-! ## the condition -/

theorem pagedIsWhole (hdangling : target.DanglingLocal tables) (htags : target.TagsLocal tables) :
    target.PagedIsWhole tables includeTags (limit + 1) := by
  have htotal : ∀ shown : List Note, shown ⊆ target.nodes tables →
      ∃ hubs, target.tagsOf tables includeTags shown = .ok hubs := by
    intro shown hshown
    cases includeTags with
    | false => exact ⟨_, rfl⟩
    | true => exact exists_graphTags htags hshown
  obtain ⟨hubs, hhubs⟩ := htotal _ (List.Subset.refl _)
  obtain ⟨whole, hgraph⟩ := exists_graph_whole hhubs
  obtain ⟨hubs, hhubs, hwhole⟩ := graph_whole hgraph
  obtain ⟨pages, hpages⟩ := exists_visited htotal 0
  obtain ⟨parts, hparts, hall⟩ := parts_of_visited hpages
  exact ⟨whole, pages, hgraph, hpages, sameGraph hdangling htags hhubs hwhole hparts hall⟩

theorem danglingLocal (h : target.PagedIsWhole tables includeTags (limit + 1)) : target.DanglingLocal tables := by
  obtain ⟨whole, pages, hgraph, hpages, hsame⟩ := h
  obtain ⟨hubs, -, hwhole⟩ := graph_whole hgraph
  obtain ⟨parts, -, hall⟩ := parts_of_visited hpages
  intro hlists d hd
  have hmem : d ∈ whole.dangling.getD [] := by
    rw [hwhole.dangling, if_pos hlists]
    exact hd
  obtain ⟨g, hg, hd⟩ := List.mem_flatMap.mp (hsame.dangling.mem_iff.mpr hmem)
  have hpage : ∀ g part, ShowsPart target tables includeTags (limit + 1) g part → d ∈ g.dangling.getD [] →
      ∃ n ∈ target.nodes tables, n.noteId = d.sourceNoteId := by
    rintro g part ⟨hsub, -, hubs, -, hshows⟩ hd
    rw [hshows.dangling, if_pos hlists] at hd
    obtain ⟨n, hn, hid⟩ := List.mem_map.mp (of_decide_eq_true (List.mem_filter.mp hd).2)
    exact ⟨n, hsub hn, hid⟩
  exact forall₂_forall hall hpage g hg hd

/-- A page of one note has the tags of this note. -/
theorem tagsLocal (h : target.PagedIsWhole tables true 1) : target.TagsLocal tables := by
  obtain ⟨whole, pages, hgraph, hpages, hsame⟩ := h
  obtain ⟨hubs, hhubs, hwhole⟩ := graph_whole hgraph
  obtain ⟨parts, -, hall⟩ := parts_of_visited hpages
  intro n hn t ht hworkspace
  have hedge : Edge.tagged n.noteId t.id ∈ whole.edges := by
    refine (hwhole.mem_edges rfl).mpr (((hubs_of_graphTags hhubs).edges _).mpr (.inl ⟨(n.noteId, t.id), ?_, rfl⟩))
    exact mem_assignments.mpr ⟨n, hn, rfl, t, ht, hworkspace, rfl⟩
  obtain ⟨g, hg, hedge⟩ := (hsame.tagEdges _ rfl).mp hedge
  have hpage : ∀ g part, ShowsPart target tables true 1 g part → Edge.tagged n.noteId t.id ∈ g.edges →
      t.workspace = n.workspace ∧ ∀ id, Derived (Graph.parents (target.tagsIn tables [n.workspace])) {t.id} id →
        (byId (target.tagsIn tables [n.workspace]) id).isSome = true := by
    rintro g part ⟨hsub, hlength, hubs, hhubs, hshows⟩ hedge
    have hhubs := hubs_of_graphTags hhubs
    rcases (hhubs.edges _).mp ((hshows.mem_edges rfl).mp hedge) with ⟨⟨noteId, tagId⟩, ha, heq⟩ | ⟨_, -, _, -, heq⟩
    · cases heq
      obtain ⟨m, hm, hid, t', ht', hw, htag⟩ := mem_assignments.mp ha
      obtain rfl := tables.tagIds.eq ht'.1 ht.1 htag
      obtain rfl := tables.ids.eq (mem_notes (hsub hm)) (mem_notes hn) hid
      obtain rfl : part = [m] := by
        match part, hlength, hm with
        | [a], _, hm => rw [List.mem_singleton.mp hm]
      refine ⟨List.mem_singleton.mp hw, fun id hderived => hhubs.found id (hderived.trans fun r hr => ?_)⟩
      rw [Finset.mem_singleton.mp hr]
      exact .base (mem_assignedIds.mpr ⟨m, hm, t', ht', hw, rfl⟩)
    · cases heq
  exact forall₂_forall hall hpage g hg hedge

/-- **The pages are the whole graph**, for any page size, exactly when each dangling link is of a node and each node
has its tags and their ancestors in its own workspace. -/
theorem paged_iff (target : Target) (tables : Tables) :
    (∀ includeTags limit, target.PagedIsWhole tables includeTags (limit + 1)) ↔
      target.DanglingLocal tables ∧ target.TagsLocal tables :=
  ⟨fun h => ⟨danglingLocal (h false 0), tagsLocal (h true 0)⟩, fun h _ _ => pagedIsWhole h.1 h.2⟩

end Target

/-! ### a file in two workspaces -/

/-- The databases that runs of `reconcile_paths` build. -/
inductive Reconciled : Db → Prop where
  | empty : Reconciled ⟨[], [], [], [], []⟩
  | reconcile {db : Db} {env : Env} {paths : List Str.Text} {out : Outcome} (h : Reconciled db)
    (hout : env.reconcilePaths db paths = .ok out) : Reconciled out.db

/-- One file with an id. -/
def fileEnv (workspace content : String) : Env :=
  { exampleEnv with
    workspace := workspace
    disk := fun path => if path = "Plan.md".toList then some (.note (exampleFm (some "n2") "Plan") content.toList) else none
    extractWikilinks := fun content => if content = [] then [] else ["Missing".toList] }

def copied : Tables where
  db := {
    notes := [exampleNote "n2" "home" "Plan"]
    noteTags := []
    tags := []
    links := []
    dangling := [⟨"work", "u1", "n2", [], "Missing".toList⟩] }
  ids := keyed_iff_nodup.mpr (by decide +kernel)
  once := keyed_iff_nodup.mpr (by decide +kernel)
  tagIds := keyed_iff_nodup.mpr (by decide +kernel)

theorem reconciled_of_view {db db' : Db} {env : Env} {paths : List Str.Text} (h : Reconciled db)
    (hview : (env.reconcilePaths db paths).toOption.map (·.db) = some db') : Reconciled db' := by
  cases hout : env.reconcilePaths db paths with
  | error e =>
    rw [hout] at hview
    cases hview
  | ok out =>
    rw [hout] at hview
    exact Option.some.inj hview ▸ h.reconcile hout

/-- The file was copied with its id and got a link; the row of the note stays in the first workspace. -/
theorem copied_reconciled : Reconciled copied.db := by
  have hhome : Reconciled ⟨[exampleNote "n2" "home" "Plan"], [], [], [], []⟩ :=
    @reconciled_of_view _ _ (fileEnv "home" "") ["Plan.md".toList] .empty (by decide +kernel)
  exact @reconciled_of_view _ _ (fileEnv "work" "[[Missing]]") ["Plan.md".toList] hhome (by decide +kernel)

/-- No page has the dangling link. -/
theorem copied_not_paged : ¬ ∀ (target : Target) (tables : Tables), Reconciled tables.db →
    ∀ includeTags limit, target.PagedIsWhole tables includeTags (limit + 1) := by
  intro h
  have hlocal := Target.danglingLocal (h ⟨"work", "u1", true⟩ copied copied_reconciled false 0)
  obtain ⟨n, hn, -⟩ := hlocal rfl ⟨"work", "u1", "n2", [], "Missing".toList⟩ (by decide +kernel)
  have hnil : Target.nodes ⟨"work", "u1", true⟩ copied = [] := by decide +kernel
  rw [hnil] at hn
  cases hn

end Kajet.Graph
