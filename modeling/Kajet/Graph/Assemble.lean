import Kajet.Graph.Neighborhood

/-!
# The link graph of a workspace

The nodes are the notes of the workspace and the targets of its links, by degree; a page is a part of them,
with the links that start from it, its tags and their ancestors, and the dangling links of its notes.

* `followParents`            the loop that adds the ancestors of tags;
* `Target.graphTags`, `Target.buildGraph`, `Target.graph`;
* `mem_followParents`        the loop gives what the tags derive through their parents;
* `followParents_total`      it does not fail when all of it is there.
-/

namespace Kajet.Graph
open Rank Recursive Table Reconcile Links

structure Tables extends Stored where
  tagIds : Keyed (fun t : Tag => t.id) db.tags

/-- The workspace, and whether the graph has dangling links: there is a repository of them, and the workspace
does not validate its links. -/
structure Target where
  workspace : String
  ownerId : String
  listsDangling : Bool

structure NoteNode where
  noteId : String
  title : Str.Text
  folder : Str.Text
  workspace : String
  tags : List Str.Text
  updatedAt : String
deriving DecidableEq

def noteNode (n : Note) : NoteNode := ⟨n.noteId, n.title, n.folder, n.workspace, n.tags, n.updatedAt⟩

/-- An edge of the result, with what it stands for. -/
inductive Edge where
  | link (source target : String)
  | tagged (noteId tagId : String)
  | child (tagId parentId : String)
deriving DecidableEq

def graphId (tagId : String) : String := "tag:" ++ tagId

/-- What the result says of it. -/
def Edge.ends : Edge → String × String
  | .link source target => (source, target)
  | .tagged noteId tagId => (noteId, graphId tagId)
  | .child tagId parentId => (graphId tagId, graphId parentId)

def Edge.isLink : Edge → Bool
  | .link .. => true
  | _ => false

structure Page where
  totalNodes : ℕ
  totalEdges : ℕ
  nextOffset : Option ℕ
deriving DecidableEq

/-- The nodes are the notes, then the tags. -/
structure Result where
  page : Option Page
  notes : List NoteNode
  tags : List Tag
  edges : List Edge
  dangling : Option (List DanglingLink)
deriving DecidableEq

inductive GraphError where
  /-- `by_id[id]` -/
  | keyError (id : String)
  /-- the rounds of `followParents` are used up -/
  | unfinished
deriving DecidableEq

/-! ## tags -/

/-- `by_id` -/
def byId (tags : List Tag) (id : String) : Option Tag := row (fun t : Tag => t.id) tags id

/-- The loop over `pending`; the last one added is the first one taken. -/
def followParents (tags : List Tag) : ℕ → Finset String → List String → Except GraphError (Finset String)
  | _, included, [] => .ok included
  | 0, _, _ :: _ => .error .unfinished
  | fuel + 1, included, id :: pending =>
    match byId tags id with
    | none => .error (.keyError id)
    | some tag =>
      match tag.parentId with
      | none => followParents tags fuel included pending
      | some parent =>
        if parent ∈ included then followParents tags fuel included pending
        else followParents tags fuel (insert parent included) (parent :: pending)

namespace Target
variable (target : Target) (tables : Tables)

/-- The first rows of `graph_data` -/
def tagsIn (workspaces : List String) : List Tag :=
  tables.db.tags.filter fun t => t.ownerId = target.ownerId && t.workspace ∈ workspaces

/-- The other rows of `graph_data`: a note, and a tag of its own -/
def assignments (shown : List Note) : List (String × String) :=
  (tables.db.noteTags.filter fun nt => nt.noteId ∈ shown.map (·.noteId)).flatMap fun nt =>
    ((target.tagsIn tables (shown.map (·.workspace))).filter fun t => t.id = nt.tagId).map fun t => (nt.noteId, t.id)

def graphTags (shown : List Note) : Except GraphError (List Tag × List Edge) := do
  let tags := target.tagsIn tables (shown.map (·.workspace))
  let assigned := ((target.assignments tables shown).map (·.2)).dedup
  let included ← followParents tags (assigned.length + tags.length + 1) assigned.toFinset assigned
  let kept := tags.filter fun t => t.id ∈ included
  return (ranked (fun t => toLex (t.workspace, t.path)) kept,
    (target.assignments tables shown).map (fun a => .tagged a.1 a.2) ++
      kept.filterMap fun t => t.parentId.map (.child t.id))

/-- `if include_tags` -/
def tagsOf (includeTags : Bool) (shown : List Note) : Except GraphError (List Tag × List Edge) :=
  if includeTags then target.graphTags tables shown else pure ([], [])

/-! ## the graph -/

/-- `list_for_workspace` -/
def edges : List (String × String) :=
  (tables.db.links.filter fun l => l.workspace = target.workspace && l.ownerId = target.ownerId).map
    fun l => (l.sourceNoteId, l.targetNoteId)

def degree (noteId : String) : ℕ := ((target.edges tables).flatMap fun e => [e.1, e.2]).count noteId

def nodeIds : List String :=
  ((tables.db.listPaths target.workspace target.ownerId).map (·.noteId) ++ (target.edges tables).map (·.2)).dedup

/-- `resolve_link_notes` -/
def resolveLinkNotes (noteIds : List String) : List Note :=
  noteIds.filterMap fun id => tables.db.notes.find? fun n => n.noteId = id && n.ownerId = target.ownerId

/-- `_build_graph` -/
def buildGraph (noteIds : List String) (edges : List (String × String)) (danglingSourceIds : Option (List String))
    (includeTags : Bool) (limit : Option ℕ) (offset : ℕ) : Except GraphError Result := do
  let nodes := target.resolveLinkNotes tables noteIds
  let resolved := nodes.map (·.noteId)
  let filtered := edges.filter fun e => e.1 ∈ resolved && e.2 ∈ resolved
  let shown := limit.elim nodes fun limit => (nodes.drop offset).take limit
  let pageIds := shown.map (·.noteId)
  let danglingSourceIds := limit.elim danglingSourceIds fun _ =>
    some (danglingSourceIds.elim pageIds fun ids => ids.filter (· ∈ pageIds))
  let links := ((ranked toLex filtered).filter fun e => e.1 ∈ pageIds).map fun e => Edge.link e.1 e.2
  let (tags, tagEdges) ← target.tagsOf tables includeTags shown
  return {
    page := limit.map fun limit => ⟨nodes.length, filtered.length,
      if offset + limit < nodes.length then some (offset + limit) else none⟩
    notes := shown.map noteNode
    tags := tags
    edges := ranked (fun e => toLex e.ends) (links ++ tagEdges)
    dangling :=
      if target.listsDangling then
        some ((tables.db.dangling.filter fun d => d.ownerId = target.ownerId && d.workspace = target.workspace).filter
          fun d => danglingSourceIds.all (d.sourceNoteId ∈ ·))
      else none }

def graph (includeTags : Bool) (limit : Option ℕ) (offset : ℕ) : Except GraphError Result :=
  target.buildGraph tables
    (ranked (fun id => toLex (-(target.degree tables id : ℤ), id)) (target.nodeIds tables))
    (target.edges tables) none includeTags limit offset

end Target

/-! ## the ancestors -/

/-- The parent of a tag. -/
def parents (tags : List Tag) (id : String) : Finset String := ((byId tags id).bind (·.parentId)).elim ∅ ({·})

variable {tags : List Tag} {included s base : Finset String} {pending : List String} {fuel : ℕ} {id parent : String}

theorem mem_parents : parent ∈ parents tags id ↔ ∃ t, byId tags id = some t ∧ t.parentId = some parent := by
  unfold parents
  rw [← Option.bind_eq_some_iff]
  cases (byId tags id).bind (·.parentId) with
  | none => exact ⟨fun h => absurd h (Finset.notMem_empty _), fun h => nomatch h⟩
  | some p => exact Finset.mem_singleton.trans ⟨fun h => congrArg some h.symm, fun h => (Option.some.inj h).symm⟩

/-- What has been taken from `pending` has its parent included. -/
def Followed (tags : List Tag) (included : Finset String) (pending : List String) : Prop :=
  ∀ id ∈ included, id ∈ pending ∨ (byId tags id).isSome = true ∧ ∀ p ∈ parents tags id, p ∈ included

/-- **One round**: an error, or the parent is included too. -/
theorem followParents_cons {pending : List String} : followParents tags (fuel + 1) included (id :: pending) =
    if (byId tags id).isSome then
      if parents tags id ⊆ included then followParents tags fuel included pending
      else followParents tags fuel (parents tags id ∪ included) ((parents tags id).toList ++ pending)
    else .error (.keyError id) := by
  rw [followParents]
  unfold parents
  cases htag : byId tags id with
  | none => rfl
  | some tag =>
    simp only [Option.isSome_some, if_true, Option.bind_some]
    cases hparent : tag.parentId with
    | none => simp
    | some parent =>
      by_cases hmem : parent ∈ included
      · simp [hmem]
      · simp [hmem]

theorem followParents_spec (h : followParents tags fuel included pending = .ok s)
    (hsub : ∀ id ∈ pending, id ∈ included) (hfollowed : Followed tags included pending) :
    included ⊆ s ∧ Followed tags s [] ∧ ∀ id ∈ s, Derived (parents tags) included id := by
  induction fuel generalizing included pending with
  | zero =>
    cases pending with
    | nil =>
      cases h
      exact ⟨Finset.Subset.refl _, hfollowed, fun _ => .base⟩
    | cons id pending => cases h
  | succ fuel ih =>
    cases pending with
    | nil =>
      cases h
      exact ⟨Finset.Subset.refl _, hfollowed, fun _ => .base⟩
    | cons id pending =>
      rw [followParents_cons] at h
      split at h
      · rename_i hsome
        split at h
        · rename_i hparents
          refine ih h (fun j hj => hsub j (List.mem_cons_of_mem _ hj)) fun j hj => ?_
          rcases hfollowed j hj with hpending | hdone
          · rcases List.mem_cons.mp hpending with rfl | hpending
            · exact .inr ⟨hsome, hparents⟩
            · exact .inl hpending
          · exact .inr hdone
        · have hsub' : ∀ j ∈ (parents tags id).toList ++ pending, j ∈ parents tags id ∪ included := by
            intro j hj
            rcases List.mem_append.mp hj with hj | hj
            · exact Finset.mem_union_left _ (Finset.mem_toList.mp hj)
            · exact Finset.mem_union_right _ (hsub j (List.mem_cons_of_mem _ hj))
          have hfollowed' : Followed tags (parents tags id ∪ included) ((parents tags id).toList ++ pending) := by
            intro j hj
            rcases Finset.mem_union.mp hj with hj | hj
            · exact .inl (List.mem_append_left _ (Finset.mem_toList.mpr hj))
            · rcases hfollowed j hj with hpending | hdone
              · rcases List.mem_cons.mp hpending with rfl | hpending
                · exact .inr ⟨hsome, fun p hp => Finset.mem_union_left _ hp⟩
                · exact .inl (List.mem_append_right _ hpending)
              · exact .inr ⟨hdone.1, fun p hp => Finset.mem_union_right _ (hdone.2 p hp)⟩
          obtain ⟨hincluded, hs, hderived⟩ := ih h hsub' hfollowed'
          refine ⟨Finset.union_subset_right hincluded, hs, fun j hj => (hderived j hj).trans fun k hk => ?_⟩
          rcases Finset.mem_union.mp hk with hk | hk
          · exact .step (.base (hsub id List.mem_cons_self)) hk
          · exact .base hk
      · cases h

theorem followParents_sound {pending : List String} (h : followParents tags fuel pending.toFinset pending = .ok s) :
    ∀ id, (id ∈ s ↔ Derived (parents tags) pending.toFinset id) ∧ (id ∈ s → (byId tags id).isSome = true) := by
  obtain ⟨hincluded, hs, hderived⟩ := followParents_spec h (fun _ => List.mem_toFinset.mpr)
    (fun _ hid => .inl (List.mem_toFinset.mp hid))
  have hclosed : ∀ id ∈ s, (byId tags id).isSome = true ∧ ∀ p ∈ parents tags id, p ∈ s := fun id hid =>
    (hs id hid).resolve_left List.not_mem_nil
  refine fun id => ⟨⟨hderived id, fun hid => ?_⟩, fun hid => (hclosed id hid).1⟩
  induction hid with
  | base h => exact hincluded h
  | step _ h' ih => exact (hclosed _ ih).2 _ h'

/-- The tags that may still be included, and those that are pending, are enough rounds. -/
theorem followParents_total {pending : List String} (hsub : ∀ id ∈ pending, id ∈ included)
    (hderived : ∀ id, Derived (parents tags) included id → (byId tags id).isSome = true)
    (hfuel : pending.length + ((tags.map (·.id)).toFinset \ included).card ≤ fuel) :
    ∃ s, followParents tags fuel included pending = .ok s := by
  induction fuel generalizing included pending with
  | zero =>
    obtain rfl := List.length_eq_zero_iff.mp (show pending.length = 0 by omega)
    exact ⟨included, rfl⟩
  | succ fuel ih =>
    cases pending with
    | nil => exact ⟨included, rfl⟩
    | cons id pending =>
      have hid : Derived (parents tags) included id := .base (hsub id List.mem_cons_self)
      rw [List.length_cons] at hfuel
      rw [followParents_cons, if_pos (hderived id hid)]
      split
      · exact ih (fun j hj => hsub j (List.mem_cons_of_mem _ hj)) hderived (by omega)
      · rename_i hnew
        obtain ⟨p, hp⟩ : ∃ p, parents tags id = {p} := by
          cases hparent : (byId tags id).bind (·.parentId) with
          | none =>
            rw [parents, hparent] at hnew
            exact absurd (Finset.empty_subset _) hnew
          | some p => exact ⟨p, by rw [parents, hparent]; rfl⟩
        rw [hp] at hnew ⊢
        have hnot : p ∉ included := fun h => hnew (Finset.singleton_subset_iff.mpr h)
        have hparent : Derived (parents tags) included p := .step hid (by rw [hp]; exact Finset.mem_singleton_self p)
        have hmem : p ∈ (tags.map (·.id)).toFinset \ included := by
          obtain ⟨t, ht⟩ := Option.isSome_iff_exists.mp (hderived p hparent)
          obtain ⟨ht, hid⟩ := row_some ht
          exact Finset.mem_sdiff.mpr ⟨List.mem_toFinset.mpr (List.mem_map.mpr ⟨t, ht, hid⟩), hnot⟩
        have hcard : ((tags.map (·.id)).toFinset \ ({p} ∪ included)).card + 1 =
            ((tags.map (·.id)).toFinset \ included).card := by
          rw [← Finset.insert_eq, Finset.sdiff_insert]
          exact Finset.card_erase_add_one hmem
        rw [Finset.toList_singleton]
        refine ih ?_ (fun j hj => hderived j (hj.trans fun k hk => ?_)) ?_
        · intro j hj
          rcases List.mem_cons.mp hj with rfl | hj
          · exact Finset.mem_union_left _ (Finset.mem_singleton_self _)
          · exact Finset.mem_union_right _ (hsub j (List.mem_cons_of_mem _ hj))
        · rcases Finset.mem_union.mp hk with hk | hk
          · rw [Finset.mem_singleton.mp hk]
            exact hparent
          · exact .base hk
        · rw [List.singleton_append, List.length_cons]
          omega

end Kajet.Graph
