import Kajet.Access.Targets
import Kajet.History.Walk

/-!
# Reading notes

A note is read from its file, with the commit that changed it last.  A batch groups its targets by workspace
and walks the history of each workspace once.

* `Store`              the resolver, the files and the repositories;
* `getWithContent`, `locateMany`, `getMany`   the services;
* `getNote`, `getNotes`   the tools;
* `locateMany_get?`, `located_get?`   the shared look-up finds what the look-up of each note finds;
* `getMany_eq`         the batch service is the single one for each target;
* `getNotes_eq`        the batch tool answers each id as the single tool does.
-/

namespace Kajet.Access
open Str Links Reindex Fallible History

variable {E : Type}

structure NoteData (E : Type) where
  noteId : String
  workspace : String
  ownerId : String
  title : Text
  folder : Text
  tags : List Text
  createdAt : Text
  updatedAt : Text
  occurredAt : Option Text
  period : Option Text
  extras : E
  content : Text
  sha : Text
deriving DecidableEq

structure NoteReadError where
  noteId : String
  error : String
deriving DecidableEq

inductive ReadFailure where
  | git (wsPath : Text)
  /-- the file of the note was never committed -/
  | noHistory (noteId : String)
  | unreadable (filepath : Text)
deriving DecidableEq

/-- The resolver, with the files below the directory of the workspaces and their repositories. -/
structure Store (E : Type) extends Resolver where
  /-- `Path(filepath).exists()` -/
  fileExists : Text → Bool
  readNoteFile : (filepath : Text) → Except ReadFailure (E × Text)
  /-- `Repo(ws_path)`: the walks of the repository -/
  openRepo : (wsPath : Text) → Except ReadFailure (List Bytes → Option (List WalkEntry))

structure LocatedNote where
  note : Note
  filepath : Text
  relative : Text
  fileExists : Bool
  headSha : Option Text
deriving DecidableEq

namespace Store

def locateNote (st : Store E) (n : Note) (wsPath : Text) : LocatedNote where
  note := n
  filepath := wsPath ++ '/' :: notePath n.toIndexedNote
  relative := notePath n.toIndexedNote
  fileExists := st.fileExists (wsPath ++ '/' :: notePath n.toIndexedNote)
  headSha := none

/-- `dict.get` on the heads -/
def headSha (heads : List (Text × Option Text)) (relative : Text) : Option Text := (heads.lookup relative).join

def currentHeadSha (st : Store E) (wsPath relative : Text) : Except ReadFailure (Option Text) := do
  let walk ← st.openRepo wsPath
  return headSha (headShasForPaths walk [relative]) relative

def noteData (st : Store E) (loc : LocatedNote) (sha : Option Text) : Except ReadFailure (NoteData E) :=
  match sha with
  | none => .error (.noHistory loc.note.noteId)
  | some sha => do
    let (extras, content) ← st.readNoteFile loc.filepath
    let n := loc.note
    return ⟨n.noteId, n.workspace, n.ownerId, n.title, n.folder, n.tags, n.createdAt, n.updatedAt, n.occurredAt,
      n.period, extras, content, sha⟩

def getWithContent (st : Store E) (t : NoteTarget) : Except ReadFailure (Option (NoteData E)) :=
  match st.db.get t.noteId (some t.workspace.ownerId) with
  | none => .ok none
  | some n =>
    let loc := st.locateNote n t.workspace.path
    if loc.fileExists then do
      let sha ← st.currentHeadSha t.workspace.path loc.relative
      return some (← st.noteData loc sha)
    else .ok none

/-! ## a batch -/

def stripped (noteIds : List String) : List String :=
  (noteIds.map fun raw => String.ofList (strip raw.toList)).filter (· ≠ "")

def locateMany (st : Store E) (noteIds : List String) (ownerId : String) (wsPath : Text)
    (walk : List Bytes → Option (List WalkEntry)) : List (String × LocatedNote) :=
  let located := (st.db.getMany (stripped noteIds) ownerId).foldl
    (fun d n => d.set n.noteId (st.locateNote n wsPath)) Dict.empty
  let existing := located.entries.filterMap fun e => if e.2.fileExists then some e.2.relative else none
  let heads := headShasForPaths walk existing
  located.entries.map fun e => (e.1, { e.2 with headSha := headSha heads e.2.relative })

/-- `by_workspace` -/
def byWorkspace (targets : List NoteTarget) : Dict Text (List NoteTarget) :=
  Dict.groupBy (fun t => t.workspace.path) targets

/-- The groups one after the other; `dict.update`. -/
def locateGroups (st : Store E) : List (Text × List NoteTarget) → Dict String LocatedNote →
    Except ReadFailure (Dict String LocatedNote)
  | [], located => .ok located
  | (wsPath, group) :: groups, located => do
    let walk ← st.openRepo wsPath
    let ownerId := (group.head?.map (·.workspace.ownerId)).getD ""
    let found := st.locateMany (group.map (·.noteId)) ownerId wsPath walk
    locateGroups st groups (found.foldl (fun d e => d.set e.1 e.2) located)

def notFoundText (noteId : String) : String := "Note not found: note_id=" ++ noteId

def readItem (st : Store E) (located : Dict String LocatedNote) (t : NoteTarget) :
    Except ReadFailure (NoteData E ⊕ NoteReadError) :=
  match located.get? (String.ofList (strip t.noteId.toList)) with
  | some loc =>
    if loc.fileExists then (st.noteData loc loc.headSha).map .inl
    else .ok (.inr ⟨t.noteId, notFoundText t.noteId⟩)
  | none => .ok (.inr ⟨t.noteId, notFoundText t.noteId⟩)

def getMany (st : Store E) (targets : List NoteTarget) : Except ReadFailure (List (NoteData E ⊕ NoteReadError)) := do
  let located ← st.locateGroups (byWorkspace targets).entries Dict.empty
  targets.mapM (st.readItem located)

end Store

/-! ## the tools -/

inductive ToolFailure where
  | toolError (message : String)
  /-- one of `SERVICE_ERRORS` -/
  | service (e : ReadFailure)
deriving DecidableEq

namespace Store

def requireFound {α : Type} (noteId : String) : Option α → Except ToolFailure α
  | none => .error (.toolError (notFoundText noteId))
  | some a => .ok a

/-- `get_note` by id -/
def getNote (st : Store E) (userId noteId : String) : Except ToolFailure (NoteData E) :=
  match st.note userId noteId with
  | .error _ => .error (.toolError (notFoundText noteId))
  | .ok t =>
    match st.getWithContent t with
    | .error e => .error (.service e)
    | .ok found => requireFound noteId found

def checkBatch (items : List String) (field unit : String) (maxItems : ℕ) : Except ToolFailure Unit :=
  if items = [] then .error (.toolError (field ++ " cannot be empty."))
  else if maxItems < items.length then
    .error (.toolError s!"At most {maxItems} {unit} per call (got {items.length}).")
  else .ok ()

/-- The results of the targets are taken in turn: `next(target_iter)`. -/
def interleave (noteIds : List String) : List (Except TargetFailure NoteTarget) →
    List (NoteData E ⊕ NoteReadError) → List (NoteData E ⊕ NoteReadError)
  | [], _ => []
  | .error f :: resolved, results =>
    let noteId := (f.index.bind fun index => noteIds[index]?).getD ""
    .inr ⟨noteId, notFoundText noteId⟩ :: interleave noteIds resolved results
  | .ok _ :: resolved, item :: results => item :: interleave noteIds resolved results
  | .ok _ :: _, [] => []

def readTargets (st : Store E) (targets : List NoteTarget) : Except ToolFailure (List (NoteData E ⊕ NoteReadError)) :=
  if targets = [] then .ok [] else (st.getMany targets).mapError .service

def getNotes (st : Store E) (userId : String) (noteIds : List String) :
    Except ToolFailure (List (NoteData E ⊕ NoteReadError)) := do
  checkBatch noteIds "note_ids" "note_id" 50
  let results ← st.readTargets ((st.notes userId noteIds).filterMap Except.toOption)
  return interleave noteIds (st.notes userId noteIds) results

end Store

/-! ## the shared look-up -/

section
variable {st : Store E} {userId ownerId noteId : String} {wsPath p : Text} {n : Note} {t : NoteTarget}
  {noteIds : List String} {targets : List NoteTarget} {walk : List Bytes → Option (List WalkEntry)}
  {order : Option (List WalkEntry)}

theorem lookup_entries {κ ν ω : Type} [BEq κ] [LawfulBEq κ] [DecidableEq κ] (f : ν → ω) (d : Dict κ ν) (k : κ) :
    (d.entries.map fun e => (e.1, f e.2)).lookup k = (d.get? k).map f := by
  rw [Dict.get?]
  induction d.entries with
  | nil => rfl
  | cons e es ih =>
    rw [List.map_cons, List.lookup_cons, List.find?_cons]
    by_cases h : k = e.1
    · simp [h]
    · rw [show (k == e.1) = false from beq_eq_false_iff_ne.mpr h, decide_eq_false fun he => h he.symm]
      exact ih

/-- The head of a path that was asked for is the one of its own walk. -/
theorem headSha_eq (hwalk : Walks walk order) {paths : List Text} (hp : p ∈ paths) :
    Store.headSha (headShasForPaths walk paths) p = Store.headSha (headShasForPaths walk [p]) p := by
  unfold Store.headSha headShasForPaths
  rw [lookup_entries (fun h : List HistoryEntry => h.head?.map (·.sha)),
    lookup_entries (fun h : List HistoryEntry => h.head?.map (·.sha)), fileHistories_get? hwalk (Nat.le_refl 1),
    fileHistories_get? hwalk (Nat.le_refl 1), if_pos hp, if_pos (List.mem_singleton_self p)]

/-- A note that is located on its own; the history is walked when there is a file. -/
def Store.alone (st : Store E) (walk : List Bytes → Option (List WalkEntry)) (wsPath : Text) (n : Note) : LocatedNote :=
  let loc := st.locateNote n wsPath
  { loc with headSha := if loc.fileExists then Store.headSha (headShasForPaths walk [loc.relative]) loc.relative else none }

theorem stripped_mem (hstrip : strip noteId.toList = noteId.toList) (hne : noteId ≠ "") (h : noteId ∈ noteIds) :
    noteId ∈ Store.stripped noteIds := by
  refine List.mem_filter.mpr ⟨List.mem_map.mpr ⟨noteId, h, ?_⟩, decide_eq_true hne⟩
  rw [hstrip, String.ofList_toList]

/-- `located`, before the heads. -/
def Store.rowsLocated (st : Store E) (noteIds : List String) (ownerId : String) (wsPath : Text) : Dict String LocatedNote :=
  (st.db.getMany (Store.stripped noteIds) ownerId).foldl
    (fun d n => d.set n.noteId (st.locateNote n wsPath)) Dict.empty

theorem rowsLocated_get? {loc : LocatedNote} : (st.rowsLocated noteIds ownerId wsPath).get? noteId = some loc ↔
    noteId ∈ Store.stripped noteIds ∧ ∃ n, st.db.get noteId (some ownerId) = some n ∧ loc = st.locateNote n wsPath := by
  have hone : ∀ a ∈ st.db.getMany (Store.stripped noteIds) ownerId, ∀ b ∈ st.db.getMany (Store.stripped noteIds) ownerId,
      a.noteId = b.noteId → st.locateNote a wsPath = st.locateNote b wsPath := fun a ha b hb hid => by
    rw [st.db.notes.ids.eq (Db.mem_getMany.mp ha).2.1 (Db.mem_getMany.mp hb).2.1 hid]
  rw [Store.rowsLocated, Dict.get?_foldl_set (fun n : Note => n.noteId) (fun n => st.locateNote n wsPath) _ Dict.empty hone,
    Dict.get?_empty, Option.or_none, Option.map_eq_some_iff]
  constructor
  · rintro ⟨n, hfind, rfl⟩
    have hid : n.noteId = noteId := by simpa using List.find?_some hfind
    obtain ⟨hasked, hrow, howner⟩ := Db.mem_getMany.mp (List.mem_of_find?_eq_some hfind)
    exact ⟨hid ▸ hasked, n, Db.get_owner_eq_some.mpr ⟨hrow, hid, howner⟩, rfl⟩
  · rintro ⟨hasked, n, hget, rfl⟩
    obtain ⟨hrow, hid, howner⟩ := Db.get_owner_eq_some.mp hget
    have hmem : n ∈ st.db.getMany (Store.stripped noteIds) ownerId := Db.mem_getMany.mpr ⟨hid ▸ hasked, hrow, howner⟩
    cases hfind : (st.db.getMany (Store.stripped noteIds) ownerId).find? fun n => n.noteId = noteId with
    | none => exact absurd (decide_eq_true hid) (List.find?_eq_none.mp hfind n hmem)
    | some m =>
      have hm : m.noteId = noteId := by simpa using List.find?_some hfind
      exact ⟨m, rfl, hone m (List.mem_of_find?_eq_some hfind) n hmem (hm.trans hid.symm)⟩

theorem mem_locateMany {e : String × LocatedNote} (hwalk : Walks walk order) :
    e ∈ st.locateMany noteIds ownerId wsPath walk ↔ e.1 ∈ Store.stripped noteIds ∧
      ∃ n, st.db.get e.1 (some ownerId) = some n ∧ e.2 = st.alone walk wsPath n := by
  set existing := (st.rowsLocated noteIds ownerId wsPath).entries.filterMap fun e =>
    if e.2.fileExists then some e.2.relative else none with hexisting
  -- the paths that enter the walk are those of files
  have hfile : ∀ n : Note, notePath n.toIndexedNote ∈ existing → (st.locateNote n wsPath).fileExists = true := by
    intro n hmem
    obtain ⟨⟨id, loc⟩, hloc, heq⟩ := List.mem_filterMap.mp hmem
    obtain ⟨_, m, _, rfl⟩ := rowsLocated_get?.mp (Dict.mem_entries_iff.mp hloc)
    obtain ⟨hexists, hrel⟩ := Option.ite_none_right_eq_some.mp heq
    have hrel : notePath m.toIndexedNote = notePath n.toIndexedNote := Option.some.inj hrel
    show st.fileExists (wsPath ++ '/' :: notePath n.toIndexedNote) = true
    rw [← hrel]
    exact hexists
  have halone : ∀ id n, id ∈ Store.stripped noteIds → st.db.get id (some ownerId) = some n →
      { st.locateNote n wsPath with
        headSha := Store.headSha (headShasForPaths walk existing) (st.locateNote n wsPath).relative } =
      st.alone walk wsPath n := by
    intro id n hasked hget
    have hentry : (id, st.locateNote n wsPath) ∈ (st.rowsLocated noteIds ownerId wsPath).entries :=
      Dict.mem_entries_iff.mpr (rowsLocated_get?.mpr ⟨hasked, n, hget, rfl⟩)
    unfold Store.alone
    by_cases hexists : (st.locateNote n wsPath).fileExists = true
    · have hp : (st.locateNote n wsPath).relative ∈ existing :=
        List.mem_filterMap.mpr ⟨_, hentry, if_pos hexists⟩
      simp only [if_pos hexists, headSha_eq hwalk hp]
    · have hp : (st.locateNote n wsPath).relative ∉ existing := fun hmem => hexists (hfile n hmem)
      have hnone : Store.headSha (headShasForPaths walk existing) (st.locateNote n wsPath).relative = none := by
        unfold Store.headSha headShasForPaths
        rw [lookup_entries (fun h : List HistoryEntry => h.head?.map (·.sha)),
          fileHistories_get? hwalk (Nat.le_refl 1), if_neg hp]
        rfl
      simp only [if_neg hexists, hnone]
  rw [Store.locateMany, List.mem_map]
  constructor
  · rintro ⟨⟨id, loc⟩, hloc, rfl⟩
    obtain ⟨hasked, n, hget, rfl⟩ := rowsLocated_get?.mp (Dict.mem_entries_iff.mp hloc)
    exact ⟨hasked, n, hget, halone id n hasked hget⟩
  · rintro ⟨hasked, n, hget, he⟩
    exact ⟨(e.1, st.locateNote n wsPath), Dict.mem_entries_iff.mpr (rowsLocated_get?.mpr ⟨hasked, n, hget, rfl⟩),
      Prod.ext rfl ((halone e.1 n hasked hget).trans he.symm)⟩

/-- What a group adds to the notes that are located. -/
theorem locateMany_set (hwalk : Walks walk order) (located : Dict String LocatedNote) (noteId : String) :
    ((st.locateMany noteIds ownerId wsPath walk).foldl (fun d e => d.set e.1 e.2) located).get? noteId =
      if noteId ∈ Store.stripped noteIds then
        ((st.db.get noteId (some ownerId)).map (st.alone walk wsPath)).or (located.get? noteId)
      else located.get? noteId := by
  have hone : ∀ a ∈ st.locateMany noteIds ownerId wsPath walk, ∀ b ∈ st.locateMany noteIds ownerId wsPath walk,
      a.1 = b.1 → a.2 = b.2 := by
    intro a ha b hb hid
    obtain ⟨_, n, hn, ha⟩ := (mem_locateMany hwalk).mp ha
    obtain ⟨_, m, hm, hb⟩ := (mem_locateMany hwalk).mp hb
    rw [hid, hm] at hn
    rw [ha, hb, Option.some.inj hn]
  rw [Dict.get?_foldl_set Prod.fst Prod.snd _ located hone]
  cases hfind : (st.locateMany noteIds ownerId wsPath walk).find? fun e => e.1 = noteId with
  | none =>
    have hnone := List.find?_eq_none.mp hfind
    rw [Option.map_none, Option.none_or]
    split
    · rename_i hasked
      cases hget : st.db.get noteId (some ownerId) with
      | none => rfl
      | some n =>
        exact absurd (decide_eq_true rfl) (hnone (noteId, st.alone walk wsPath n)
          ((mem_locateMany hwalk).mpr ⟨hasked, n, hget, rfl⟩))
    · rfl
  | some e =>
    obtain rfl : e.1 = noteId := by simpa using List.find?_some hfind
    obtain ⟨hasked, n, hget, he⟩ := (mem_locateMany hwalk).mp (List.mem_of_find?_eq_some hfind)
    rw [if_pos hasked, hget, Option.map_some, Option.map_some, he]

/-! ## a batch and its targets -/

/-- The repositories of the workspaces that the user may enter can be opened, and walk in one order. -/
def Opens (st : Store E) (userId : String) : Prop := ∀ name, st.db.hasAccess userId name = true →
  ∃ walk order, st.openRepo (st.workspacePath userId name) = .ok walk ∧ Walks walk order

/-- The walks of a repository that can be opened. -/
def Store.walkOf (st : Store E) (wsPath : Text) : List Bytes → Option (List WalkEntry) :=
  match st.openRepo wsPath with
  | .ok walk => walk
  | .error _ => fun _ => none

/-- The targets are what the resolver gives for ids that `strip` leaves alone. -/
structure Resolved (st : Store E) (userId : String) (targets : List NoteTarget) : Prop where
  note : ∀ t ∈ targets, st.note userId t.noteId = .ok t
  strip : ∀ t ∈ targets, strip t.noteId.toList = t.noteId.toList
  ne_nil : ∀ t ∈ targets, t.noteId ≠ ""

/-- A target is the row of its id, at the place of its workspace. -/
theorem Resolved.row (h : Resolved st userId targets) (ht : t ∈ targets) :
    ∃ n, st.db.get t.noteId (some t.workspace.ownerId) = some n ∧ t.workspace.ownerId = userId ∧
      st.db.hasAccess userId n.workspace = true ∧ t.workspace.path = st.workspacePath userId n.workspace := by
  obtain ⟨n, hget, howner, haccess, heq⟩ := note_eq_ok.mp (h.note t ht)
  obtain ⟨hrow, hid⟩ := Db.get_none_eq_some.mp hget
  refine ⟨n, ?_, by rw [heq], haccess, by rw [heq]⟩
  rw [heq]
  exact Db.get_owner_eq_some.mpr ⟨hrow, hid, howner⟩

theorem Resolved.workspace_eq (h : Resolved st userId targets) {t' : NoteTarget} (ht : t ∈ targets) (ht' : t' ∈ targets)
    (hid : t.noteId = t'.noteId) : t = t' :=
  Except.ok.inj ((h.note t ht).symm.trans (hid ▸ h.note t' ht'))

theorem Resolved.open (h : Resolved st userId targets) (hopens : Opens st userId) (ht : t ∈ targets) :
    st.openRepo t.workspace.path = .ok (st.walkOf t.workspace.path) ∧
      ∃ order, Walks (st.walkOf t.workspace.path) order := by
  obtain ⟨n, _, _, haccess, hpath⟩ := h.row ht
  obtain ⟨walk, order, hopen, hwalk⟩ := hopens n.workspace haccess
  rw [← hpath] at hopen
  have hof : st.walkOf t.workspace.path = walk := by rw [Store.walkOf, hopen]
  rw [hof]
  exact ⟨hopen, order, hwalk⟩

/-- The groups are opened, and every target of a group is located as on its own. -/
theorem locateGroups_ok (h : Resolved st userId targets) (hopens : Opens st userId)
    {groups : List (Text × List NoteTarget)}
    (hgroups : ∀ g ∈ groups, g.2 = targets.filter (fun t => t.workspace.path = g.1) ∧ g.2 ≠ [])
    (located : Dict String LocatedNote) : ∃ located', st.locateGroups groups located = .ok located' ∧
      ∀ t ∈ targets, located'.get? t.noteId =
        if t.workspace.path ∈ groups.map Prod.fst then
          (st.db.get t.noteId (some t.workspace.ownerId)).map (st.alone (st.walkOf t.workspace.path) t.workspace.path)
        else located.get? t.noteId := by
  induction groups generalizing located with
  | nil => exact ⟨located, rfl, fun t _ => (if_neg List.not_mem_nil).symm⟩
  | cons g groups ih =>
    obtain ⟨wsPath, group⟩ := g
    obtain ⟨hgroup, hne⟩ := hgroups _ List.mem_cons_self
    obtain rfl : group = targets.filter fun t => t.workspace.path = wsPath := hgroup
    obtain ⟨t₀, ht₀⟩ := List.exists_mem_of_ne_nil _ hne
    have hmem : ∀ {t}, t ∈ targets.filter (fun t => t.workspace.path = wsPath) ↔ t ∈ targets ∧ t.workspace.path = wsPath := by
      intro t
      rw [List.mem_filter, decide_eq_true_eq]
    obtain ⟨ht₀mem, ht₀path⟩ := hmem.mp ht₀
    obtain ⟨hopen, order, hwalk⟩ := h.open hopens ht₀mem
    rw [ht₀path] at hopen hwalk
    -- every target has the owner of the first one
    have howner : ((targets.filter fun t => t.workspace.path = wsPath).head?.map (·.workspace.ownerId)).getD "" = userId := by
      cases hhead : (targets.filter fun t => t.workspace.path = wsPath) with
      | nil => exact absurd hhead hne
      | cons t₁ rest =>
        obtain ⟨n, _, heq, _⟩ := h.row (hmem.mp (hhead ▸ List.mem_cons_self : t₁ ∈ _)).1
        exact heq
    obtain ⟨located', hrun, hlocated'⟩ := ih (fun g hg => hgroups g (List.mem_cons_of_mem _ hg))
      ((st.locateMany ((targets.filter fun t => t.workspace.path = wsPath).map (·.noteId)) userId wsPath
        (st.walkOf wsPath)).foldl (fun d e => d.set e.1 e.2) located)
    refine ⟨located', ?_, fun t ht => ?_⟩
    · rw [Store.locateGroups, hopen]
      show st.locateGroups groups _ = .ok located'
      rw [howner]
      exact hrun
    · rw [hlocated' t ht, List.map_cons]
      by_cases hlater : t.workspace.path ∈ groups.map Prod.fst
      · rw [if_pos hlater, if_pos (List.mem_cons_of_mem _ hlater)]
      rw [if_neg hlater, locateMany_set hwalk]
      obtain ⟨n, hget, huser, _⟩ := h.row ht
      by_cases hpath : t.workspace.path = wsPath
      · have hasked : t.noteId ∈ Store.stripped ((targets.filter fun t => t.workspace.path = wsPath).map (·.noteId)) :=
          stripped_mem (h.strip t ht) (h.ne_nil t ht) (List.mem_map_of_mem (hmem.mpr ⟨ht, hpath⟩))
        rw [if_pos hasked, if_pos (hpath ▸ List.mem_cons_self), hget, ← huser, hget, hpath]
        rfl
      · have hasked : t.noteId ∉ Store.stripped ((targets.filter fun t => t.workspace.path = wsPath).map (·.noteId)) := by
          intro hin
          obtain ⟨raw, hraw, heq⟩ := List.mem_map.mp (List.mem_filter.mp hin).1
          obtain ⟨t', ht', rfl⟩ := List.mem_map.mp hraw
          obtain ⟨ht'mem, ht'path⟩ := hmem.mp ht'
          rw [h.strip t' ht'mem, String.ofList_toList] at heq
          exact hpath ((h.workspace_eq ht'mem ht heq) ▸ ht'path)
        rw [if_neg hasked, if_neg fun hin => (List.mem_cons.mp hin).elim hpath hlater]

/-- What the batch makes of the answer for one target. -/
def Store.item (t : NoteTarget) : Option (NoteData E) → NoteData E ⊕ NoteReadError
  | some data => .inl data
  | none => .inr ⟨t.noteId, Store.notFoundText t.noteId⟩

theorem readItem_eq (h : Resolved st userId targets) (hopens : Opens st userId) (ht : t ∈ targets)
    {located : Dict String LocatedNote} (hlocated : located.get? t.noteId =
      (st.db.get t.noteId (some t.workspace.ownerId)).map (st.alone (st.walkOf t.workspace.path) t.workspace.path)) :
    st.readItem located t = (st.getWithContent t).map (Store.item t) := by
  obtain ⟨n, hget, _⟩ := h.row ht
  obtain ⟨hopen, _⟩ := h.open hopens ht
  rw [hget, Option.map_some] at hlocated
  rw [Store.readItem, h.strip t ht, String.ofList_toList, hlocated, Store.getWithContent, hget]
  dsimp only
  have hexists : (st.alone (st.walkOf t.workspace.path) t.workspace.path n).fileExists =
      (st.locateNote n t.workspace.path).fileExists := rfl
  rw [hexists]
  by_cases hfile : (st.locateNote n t.workspace.path).fileExists = true
  · rw [if_pos hfile, if_pos hfile, Store.currentHeadSha, hopen]
    have hsha : (st.alone (st.walkOf t.workspace.path) t.workspace.path n).headSha =
        Store.headSha (headShasForPaths (st.walkOf t.workspace.path) [(st.locateNote n t.workspace.path).relative])
          (st.locateNote n t.workspace.path).relative := if_pos hfile
    have hdata : st.noteData (st.alone (st.walkOf t.workspace.path) t.workspace.path n) =
        st.noteData (st.locateNote n t.workspace.path) := rfl
    rw [hsha, hdata]
    show _ = Except.map (Store.item t) (st.noteData _ _ >>= fun data => .ok (some data))
    cases st.noteData (st.locateNote n t.workspace.path) _ with
    | error e => rfl
    | ok data => rfl
  · rw [if_neg hfile, if_neg hfile]
    rfl

theorem byWorkspace_entries (targets : List NoteTarget) : ∀ g ∈ (Store.byWorkspace targets).entries,
    g.2 = targets.filter (fun t => t.workspace.path = g.1) ∧ g.2 ≠ [] := by
  rintro ⟨wsPath, group⟩ hg
  have hget := Dict.mem_entries_iff.mp hg
  rw [Store.byWorkspace, Dict.get?_groupBy] at hget
  split at hget
  · cases hget
  · rename_i hne
    exact Option.some.inj hget ▸ ⟨rfl, hne⟩

theorem byWorkspace_path (ht : t ∈ targets) : t.workspace.path ∈ (Store.byWorkspace targets).entries.map Prod.fst := by
  refine Dict.mem_keys.mpr ⟨targets.filter fun t' => t'.workspace.path = t.workspace.path, ?_⟩
  rw [Store.byWorkspace, Dict.get?_groupBy, if_neg]
  exact List.ne_nil_of_mem (List.mem_filter.mpr ⟨ht, decide_eq_true rfl⟩)

/-- **A batch reads what each target reads**, and raises what the first one that fails raises. -/
theorem getMany_eq (h : Resolved st userId targets) (hopens : Opens st userId) :
    st.getMany targets = targets.mapM fun t => (st.getWithContent t).map (Store.item t) := by
  obtain ⟨located, hrun, hlocated⟩ := locateGroups_ok h hopens (byWorkspace_entries targets) Dict.empty
  rw [Store.getMany, bind_of_ok hrun]
  refine mapM_congr fun t ht => readItem_eq h hopens ht ?_
  rw [hlocated t ht, if_pos (byWorkspace_path ht)]

/-! ## the tool -/

/-- What the batch tool makes of the answer of the single one. -/
def asItem (noteId : String) : Except ToolFailure (NoteData E) → Except ReadFailure (NoteData E ⊕ NoteReadError)
  | .ok data => .ok (.inl data)
  | .error (.toolError message) => .ok (.inr ⟨noteId, message⟩)
  | .error (.service e) => .error e

theorem asItem_of_denied {f : TargetFailure} (h : st.note userId noteId = .error f) :
    asItem noteId (st.getNote userId noteId) = .ok (.inr ⟨noteId, Store.notFoundText noteId⟩) := by
  rw [Store.getNote, h]
  rfl

theorem asItem_of_granted (h : st.note userId noteId = .ok t) :
    asItem noteId (st.getNote userId noteId) = (st.getWithContent t).map (Store.item t) := by
  obtain ⟨_, _, _, _, rfl⟩ := note_eq_ok.mp h
  rw [Store.getNote, h]
  dsimp only
  cases st.getWithContent _ with
  | error e => rfl
  | ok found => cases found <;> rfl

/-- The resolutions of some ids, the first of them at `index`. -/
def resolutions (st : Store E) (userId : String) (index : ℕ) (noteIds : List String) : List (Except TargetFailure NoteTarget) :=
  (noteIds.zipIdx index).map fun x => (st.note userId x.1).mapError (TargetFailure.at x.2)

/-- The ids from `front` on, with the targets that were granted among them. -/
theorem interleave_eq (st : Store E) (userId : String) (front rest : List String) :
    ((resolutions st userId front.length rest).filterMap Except.toOption).mapM
        (fun t => (st.getWithContent t).map (Store.item t)) >>= (fun results =>
      Except.ok (Store.interleave (front ++ rest) (resolutions st userId front.length rest) results)) =
    rest.mapM fun noteId => asItem noteId (st.getNote userId noteId) := by
  induction rest generalizing front with
  | nil => rfl
  | cons noteId rest ih =>
    have hlen : (front ++ [noteId]).length = front.length + 1 := List.length_append
    have happ : front ++ noteId :: rest = (front ++ [noteId]) ++ rest := by rw [List.append_assoc]; rfl
    have ih := ih (front ++ [noteId])
    rw [hlen, ← happ] at ih
    have hcons : resolutions st userId front.length (noteId :: rest) =
        (st.note userId noteId).mapError (TargetFailure.at front.length) ::
          resolutions st userId (front.length + 1) rest := rfl
    rw [hcons, List.mapM_cons, ← ih]
    cases hnote : st.note userId noteId with
    | error f =>
      have hid : (front ++ noteId :: rest)[front.length]? = some noteId := by
        rw [List.getElem?_append_right (Nat.le_refl _), Nat.sub_self]
        rfl
      have hinter : ∀ resolved results, Store.interleave (E := E) (front ++ noteId :: rest)
          ((Except.error f : Except TargetFailure NoteTarget).mapError (TargetFailure.at front.length) :: resolved) results =
          .inr ⟨noteId, Store.notFoundText noteId⟩ :: Store.interleave (front ++ noteId :: rest) resolved results := by
        intro resolved results
        show Store.interleave _ (.error ⟨some front.length, f.error, f.reason⟩ :: resolved) results = _
        rw [Store.interleave, Option.bind_some, hid]
        rfl
      have hskip : ∀ resolved : List (Except TargetFailure NoteTarget),
          (((Except.error f : Except TargetFailure NoteTarget).mapError (TargetFailure.at front.length)) :: resolved).filterMap
            Except.toOption = resolved.filterMap Except.toOption := fun _ => rfl
      rw [asItem_of_denied hnote, hskip]
      simp only [hinter]
      generalize ((resolutions st userId (front.length + 1) rest).filterMap Except.toOption).mapM
        (fun t => (st.getWithContent t).map (Store.item t)) = run
      cases run with
      | error e => rfl
      | ok results => rfl
    | ok t =>
      have htake : ∀ resolved : List (Except TargetFailure NoteTarget),
          (((Except.ok t : Except TargetFailure NoteTarget).mapError (TargetFailure.at front.length)) :: resolved).filterMap
            Except.toOption = t :: resolved.filterMap Except.toOption := fun _ => rfl
      rw [asItem_of_granted hnote, htake, List.mapM_cons]
      generalize ((resolutions st userId (front.length + 1) rest).filterMap Except.toOption).mapM
        (fun t => (st.getWithContent t).map (Store.item t)) = run
      cases (st.getWithContent t).map (Store.item t) with
      | error e => rfl
      | ok item =>
        cases run with
        | error e => rfl
        | ok results => rfl

/-- The targets of a batch are resolved. -/
theorem resolved_of_ids (hids : ∀ noteId ∈ noteIds, strip noteId.toList = noteId.toList ∧ noteId ≠ "") :
    Resolved st userId ((st.notes userId noteIds).filterMap Except.toOption) := by
  have hmem : ∀ t ∈ (st.notes userId noteIds).filterMap Except.toOption,
      t.noteId ∈ noteIds ∧ st.note userId t.noteId = .ok t := by
    intro t ht
    obtain ⟨result, hresult, hsome⟩ := List.mem_filterMap.mp ht
    rw [notes_eq] at hresult
    obtain ⟨⟨noteId, i⟩, hx, rfl⟩ := List.mem_map.mp hresult
    have hnote := mapError_ok (ok_of_toOption hsome)
    obtain ⟨_, _, _, _, rfl⟩ := note_eq_ok.mp hnote
    exact ⟨List.mem_of_getElem? (List.mem_zipIdx_iff_getElem?.mp hx), hnote⟩
  exact ⟨fun t ht => (hmem t ht).2, fun t ht => (hids _ (hmem t ht).1).1, fun t ht => (hids _ (hmem t ht).1).2⟩

theorem readTargets_eq (h : Resolved st userId targets) (hopens : Opens st userId) : st.readTargets targets =
    (targets.mapM fun t => (st.getWithContent t).map (Store.item t)).mapError .service := by
  unfold Store.readTargets
  split
  · rename_i hnil
    rw [hnil]
    rfl
  · rw [getMany_eq h hopens]

theorem getNotes_eq (st : Store E) (userId : String) (noteIds : List String) (hopens : Opens st userId)
    (hne : noteIds ≠ []) (hlen : noteIds.length ≤ maxBatch)
    (hids : ∀ noteId ∈ noteIds, strip noteId.toList = noteId.toList ∧ noteId ≠ "") :
    st.getNotes userId noteIds =
      (noteIds.mapM fun noteId => asItem noteId (st.getNote userId noteId)).mapError .service := by
  have hbatch : Store.checkBatch noteIds "note_ids" "note_id" 50 = .ok () := by
    rw [Store.checkBatch, if_neg hne]
    exact if_neg (Nat.not_lt.mpr hlen)
  have hall := interleave_eq st userId [] noteIds
  have hnotes : st.notes userId noteIds = resolutions st userId 0 noteIds := notes_eq userId noteIds
  rw [List.nil_append, List.length_nil, ← hnotes] at hall
  rw [Store.getNotes, bind_of_ok hbatch, ← hall, readTargets_eq (resolved_of_ids hids) hopens]
  generalize ((st.notes userId noteIds).filterMap Except.toOption).mapM
    (fun t => (st.getWithContent t).map (Store.item t)) = run
  cases run with
  | error e => rfl
  | ok results => rfl

/-- A note at the root of the workspace `w`. -/
def plainRow (noteId ownerId title : String) : Note :=
  { noteId := noteId, folder := [], title := title.toList, workspace := "w", ownerId := ownerId, tags := [],
    createdAt := [], updatedAt := [], occurredAt := none, period := none }

/-- Two users with a workspace of one name; a file that was committed. -/
def plainStore : Store Unit where
  db := ⟨⟨[plainRow "a" "u" "A", plainRow "b" "v" "B"], by decide⟩, [⟨"u", "w", "owner"⟩, ⟨"v", "w", "owner"⟩]⟩
  workspacesDir := "/d".toList
  fileExists := fun path => path = "/d/u/w/A.md".toList
  readNoteFile := fun _ => .ok ((), "text".toList)
  openRepo := fun _ => .ok fun followed => some ([⟨"1".toList, [], 0, [.inl ⟨none, some (encode "A.md".toList)⟩]⟩].filter
    fun e => followed.any fun p => touched p e)

theorem plainStore_opens (userId : String) : Opens plainStore userId :=
  fun _ _ => ⟨_, some [⟨"1".toList, [], 0, [.inl ⟨none, some (encode "A.md".toList)⟩]⟩], rfl, fun _ _ => rfl⟩

end
end Kajet.Access
