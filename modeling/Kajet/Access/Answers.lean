import Kajet.Access.Reading

/-!
# What a caller is told

The adapters turn the answers of the resolver into the answers of the routes and of the tools.  The reason
of a refusal goes to the audit log only.

* `Call`, `respond`      the dependencies of the routes, and the tools that read and prevalidate;
* `Agree`                two stores that a user cannot tell apart by what is his;
* `note_public`          what is told of a note is what the rows of the user say;
* `respond_agree`        nobody learns from an answer about what belongs to others;
* `Authorized`, `Truthful`   what an answer shows, and what a record says;
* `respond_authorized`   an answer shows the caller his own notes, and the log tells why it does not.
-/

namespace Kajet.Access
open Str Links Reindex Fallible History

variable {E : Type}

/-! ## the adapters -/

structure AuditRecord where
  action : String
  resource : String
  callerId : String
  reason : SecurityReason
  noteId : Option String
  workspace : Option String
deriving DecidableEq

/-- The reasons of `_DENIAL_REASONS` are recorded. -/
def auditDenied (f : TargetFailure) (action resource callerId : String) (noteId workspace : Option String) :
    List AuditRecord :=
  match f.reason with
  | .inl reason => [⟨action, resource, callerId, reason, noteId, workspace⟩]
  | .inr _ => []

inductive Answer (E : Type) where
  | http (status : ℕ) (detail : String)
  | tool (f : ToolFailure)
  | workspace (ws : WorkspaceTarget)
  | note (t : NoteTarget)
  | batch (ws : WorkspaceTarget) (targets : List NoteTarget)
  | data (d : NoteData E)
  | items (found : List (NoteData E ⊕ NoteReadError))
deriving DecidableEq

inductive Call where
  | restWorkspace (name action : String)
  | restNote (name noteId action workspaceAction : String)
  | mcpWorkspace (workspace action : String)
  | mcpNote (noteId action : String)
  | getNote (noteId : String)
  | getNotes (noteIds : List String)
  /-- `resolve_notes_in_one_workspace` -/
  | writeBatch (noteIds : List String)
deriving DecidableEq

def TargetError.value : TargetError → String
  | .notFound => "TARGET_NOT_FOUND"
  | .accessDenied => "TARGET_ACCESS_DENIED"
  | .invalidInput => "TARGET_INVALID_INPUT"
  | .mixedWorkspaces => "TARGET_MIXED_WORKSPACES"

/-- What a failure of a batch is told as. -/
def detail (index : Option ℕ) (error : TargetError) : String :=
  match index with
  | some i => s!"index {i}: {error.value}"
  | none => error.value

def batchText (details : List String) : String :=
  "Batch rejected before any write -- " ++ String.intercalate ", " details

namespace Store

def restWorkspace (st : Store E) (userId name action : String) : Answer E × List AuditRecord :=
  match st.workspace userId name with
  | .ok ws => (.workspace ws, [])
  | .error f => (.http 403 "ACCESS_DENIED", auditDenied f action "workspace" userId none (some name))

/-- The workspace of the address is resolved first. -/
def restNote (st : Store E) (userId name noteId action workspaceAction : String) : Answer E × List AuditRecord :=
  match st.restWorkspace userId name workspaceAction with
  | (.workspace ws, _) =>
    match st.note userId noteId with
    | .error f => (.http 404 "NOTE_NOT_FOUND", auditDenied f action "note" userId (some noteId) (some name))
    | .ok t =>
      if t.workspace.name ≠ ws.name then
        (.http 404 "NOTE_NOT_FOUND", [⟨action, "note", userId, .workspaceMismatch, some noteId, some name⟩])
      else (.note t, [])
  | refused => refused

def mcpWorkspace (st : Store E) (userId workspace action : String) : Answer E × List AuditRecord :=
  match st.workspace userId workspace with
  | .ok ws => (.workspace ws, [])
  | .error f => (.tool (.toolError ("Workspace not accessible: " ++ workspace)),
      auditDenied f action "workspace" userId none (some workspace))

def mcpNote (st : Store E) (userId noteId action : String) : Answer E × List AuditRecord :=
  match st.note userId noteId with
  | .ok t => (.note t, [])
  | .error f => (.tool (.toolError (notFoundText noteId)), auditDenied f action "note" userId (some noteId) none)

def toolAnswer {α : Type} (answer : α → Answer E) : Except ToolFailure α → Answer E
  | .ok a => answer a
  | .error f => .tool f

/-- The target of `get_note` is a dependency of the tool. -/
def readNote (st : Store E) (userId noteId : String) : Answer E × List AuditRecord :=
  (toolAnswer .data (st.getNote userId noteId), (st.mcpNote userId noteId "note.read").2)

/-- A batch that is too long is not resolved. -/
def readNotes (st : Store E) (userId : String) (noteIds : List String) : Answer E × List AuditRecord :=
  (toolAnswer .items (st.getNotes userId noteIds),
    if noteIds = [] ∨ 50 < noteIds.length then []
    else (st.notes userId noteIds).flatMap fun
      | .ok _ => []
      | .error f => auditDenied f "note.batch_read" "note" userId (f.index.map fun index => noteIds[index]?.getD "") none)

def writeBatch (st : Store E) (userId : String) (noteIds : List String) : Answer E × List AuditRecord :=
  match st.notesInOneWorkspace userId noteIds with
  | .ok (ws, targets) => (.batch ws targets, [])
  | .error failures =>
    (.tool (.toolError (batchText (failures.map fun f => detail f.index f.error))),
      failures.flatMap fun f =>
        auditDenied f "note.batch_write" "note" userId (f.index.map fun index => noteIds[index]?.getD "") none)

/-- A call of a user, or of nobody. -/
def respond (st : Store E) (user : Option String) (c : Call) : Answer E × List AuditRecord :=
  match user, c with
  | none, .restWorkspace .. | none, .restNote .. => (.http 401 "NOT_AUTHENTICATED", [])
  | none, _ => (.tool (.toolError "Authentication required."), [])
  | some u, .restWorkspace name action => st.restWorkspace u name action
  | some u, .restNote name noteId action workspaceAction => st.restNote u name noteId action workspaceAction
  | some u, .mcpWorkspace workspace action => st.mcpWorkspace u workspace action
  | some u, .mcpNote noteId action => st.mcpNote u noteId action
  | some u, .getNote noteId => st.readNote u noteId
  | some u, .getNotes noteIds => st.readNotes u noteIds
  | some u, .writeBatch noteIds => st.writeBatch u noteIds

end Store

/-! ## what a user may know -/

/-- Both stores have the same notes of the user, let him into the same workspaces, and have the same files
and repositories below his directory. -/
structure Agree (userId : String) (st st' : Store E) : Prop where
  dir : st.workspacesDir = st'.workspacesDir
  rows : st.db.notes.rows.filter (·.ownerId = userId) = st'.db.notes.rows.filter (·.ownerId = userId)
  access : ∀ name, st.db.hasAccess userId name = st'.db.hasAccess userId name
  files : ∀ name relative, st.fileExists (st.workspacePath userId name ++ '/' :: relative) =
      st'.fileExists (st.workspacePath userId name ++ '/' :: relative) ∧
    st.readNoteFile (st.workspacePath userId name ++ '/' :: relative) =
      st'.readNoteFile (st.workspacePath userId name ++ '/' :: relative)
  repos : ∀ name, st.openRepo (st.workspacePath userId name) = st'.openRepo (st.workspacePath userId name)

/-- What a failure shows. -/
def TargetFailure.shown (f : TargetFailure) : Option ℕ × TargetError := (f.index, f.error)

section
variable {st st' : Store E} {userId noteId name : String} {noteIds : List String} {t : NoteTarget} {wsPath : Text}

theorem get_owner_filter (db : Db) (userId noteId : String) : db.get noteId (some userId) =
    (db.notes.rows.filter (·.ownerId = userId)).find? (·.noteId = noteId) := by
  rw [List.find?_filter, Db.get]
  congr 1
  funext n
  simp [Bool.and_comm]

theorem getMany_filter (db : Db) (noteIds : List String) (userId : String) : db.getMany noteIds userId =
    (Queue.batched Db.inClauseChunkSize [] noteIds).flatMap fun chunk =>
      (db.notes.rows.filter (·.ownerId = userId)).filter fun n => n.noteId ∈ chunk := by
  unfold Db.getMany
  congr 1
  funext chunk
  rw [List.filter_filter]

theorem Agree.get (h : Agree userId st st') : st.db.get noteId (some userId) = st'.db.get noteId (some userId) := by
  rw [get_owner_filter, get_owner_filter, h.rows]

theorem Agree.getMany (h : Agree userId st st') : st.db.getMany noteIds userId = st'.db.getMany noteIds userId := by
  rw [getMany_filter, getMany_filter, h.rows]

theorem Agree.path (h : Agree userId st st') (name : String) :
    st.workspacePath userId name = st'.workspacePath userId name := by
  rw [Resolver.workspacePath, Resolver.workspacePath, h.dir]

theorem Agree.workspace (h : Agree userId st st') (name : String) :
    st.workspace userId name = st'.workspace userId name := by
  rw [Resolver.workspace, Resolver.workspace, h.access, h.path]

/-- What is shown of a note is what the rows of the owner say. -/
theorem note_public (r : Resolver) (userId noteId : String) : (r.note userId noteId).mapError TargetFailure.shown =
    match r.db.get noteId (some userId) with
    | none => .error (none, .notFound)
    | some n => (r.workspace userId n.workspace).map (fun ws => (⟨noteId, ws⟩ : NoteTarget)) |>.mapError
        fun _ => (none, .notFound) := by
  cases hget : r.db.get noteId (some userId) with
  | some n =>
    obtain ⟨hrow, hid, howner⟩ := Db.get_owner_eq_some.mp hget
    rw [note_of_row (Db.get_none_eq_some.mpr ⟨hrow, hid⟩) howner]
    dsimp only
    cases r.workspace userId n.workspace with
    | error f => rfl
    | ok ws => rfl
  | none =>
    rw [note_of_absent]
    · rfl
    · intro n hn howner
      obtain ⟨hrow, hid⟩ := Db.get_none_eq_some.mp hn
      exact nomatch hget.symm.trans (Db.get_owner_eq_some.mpr ⟨hrow, hid, howner⟩)

theorem Agree.note (h : Agree userId st st') (noteId : String) :
    (st.note userId noteId).mapError TargetFailure.shown = (st'.note userId noteId).mapError TargetFailure.shown := by
  rw [note_public, note_public, h.get]
  cases st'.db.get noteId (some userId) with
  | none => rfl
  | some n =>
    simp only [h.workspace]

/-! ## batches that agree -/

theorem Agree.owned (h : Agree userId st st') : st.owned userId noteIds = st'.owned userId noteIds := by
  rw [Resolver.owned, Resolver.owned, h.getMany]

theorem absent_shown (r : Resolver) (owned : Dict String Note) (noteIds : List String) :
    (r.absent owned noteIds).map TargetFailure.shown =
      (noteIds.zipIdx.filter fun x => owned.get? x.1 = none).map fun x => (some x.2, .notFound) := by
  rw [Resolver.absent, List.map_map]
  rfl

theorem Agree.batch (h : Agree userId st st') (noteIds : List String) :
    (st.notesInOneWorkspace userId noteIds).mapError (List.map TargetFailure.shown) =
      (st'.notesInOneWorkspace userId noteIds).mapError (List.map TargetFailure.shown) := by
  have habsent : (st.absent (st'.owned userId noteIds) noteIds).map TargetFailure.shown =
      (st'.absent (st'.owned userId noteIds) noteIds).map TargetFailure.shown := by
    rw [absent_shown, absent_shown]
  have hnil : st.absent (st'.owned userId noteIds) noteIds = [] ↔ st'.absent (st'.owned userId noteIds) noteIds = [] := by
    rw [← List.map_eq_nil_iff, habsent, List.map_eq_nil_iff]
  unfold Resolver.notesInOneWorkspace
  rw [h.owned]
  split_ifs
  · rfl
  · rfl
  · rfl
  · dsimp only
    by_cases hrows : st.absent (st'.owned userId noteIds) noteIds = []
    · rw [if_neg (not_not_intro hrows), if_neg (not_not_intro (hnil.mp hrows))]
      simp only [h.workspace]
    · rw [if_pos hrows, if_pos (mt hnil.mpr hrows)]
      exact congrArg Except.error habsent

theorem Agree.notes (h : Agree userId st st') (noteIds : List String) :
    (st.notes userId noteIds).map (Except.mapError TargetFailure.shown) =
      (st'.notes userId noteIds).map (Except.mapError TargetFailure.shown) := by
  have hshown : ∀ (x : Except TargetFailure NoteTarget) (i : ℕ), (x.mapError (TargetFailure.at i)).mapError
      TargetFailure.shown = (x.mapError TargetFailure.shown).mapError fun p => (some i, p.2) := by
    intro x i
    cases x <;> rfl
  rw [notes_eq, notes_eq, List.map_map, List.map_map]
  refine List.map_congr_left fun x _ => ?_
  rw [Function.comp, Function.comp, hshown, hshown, h.note]

/-- What is read depends on what is shown of the failures. -/
theorem interleave_shown {resolved resolved' : List (Except TargetFailure NoteTarget)}
    (h : resolved.map (Except.mapError TargetFailure.shown) = resolved'.map (Except.mapError TargetFailure.shown))
    (noteIds : List String) (results : List (NoteData E ⊕ NoteReadError)) :
    Store.interleave noteIds resolved results = Store.interleave noteIds resolved' results := by
  induction resolved generalizing resolved' results with
  | nil => rw [List.map_eq_nil_iff.mp h.symm]
  | cons x resolved ih =>
    obtain ⟨x', rest', rfl, hx, hrest⟩ := List.map_eq_cons_iff.mp h.symm
    cases x with
    | error f =>
      cases x' with
      | ok t => cases hx
      | error f' =>
        have hindex : f'.index = f.index := congrArg Prod.fst (Except.error.inj hx)
        rw [Store.interleave, Store.interleave, hindex, ih hrest.symm]
    | ok t =>
      cases x' with
      | error f => cases hx
      | ok t' =>
        cases results with
        | nil => rfl
        | cons item results => rw [Store.interleave, Store.interleave, ih hrest.symm]

theorem toOption_shown (x : Except TargetFailure NoteTarget) :
    x.toOption = (x.mapError TargetFailure.shown).toOption := by
  cases x <;> rfl

theorem Agree.targets (h : Agree userId st st') (noteIds : List String) :
    (st.notes userId noteIds).filterMap Except.toOption = (st'.notes userId noteIds).filterMap Except.toOption := by
  have hmap : ∀ resolved : List (Except TargetFailure NoteTarget), resolved.filterMap Except.toOption =
      (resolved.map (Except.mapError TargetFailure.shown)).filterMap Except.toOption := by
    intro resolved
    rw [List.filterMap_map]
    exact List.filterMap_congr fun x _ => toOption_shown x
  rw [hmap, hmap, h.notes]

/-! ## reading below the directory of the user -/

/-- A place below the directory of the user. -/
def Mine (st : Store E) (userId : String) (wsPath : Text) : Prop := ∃ name, wsPath = st.workspacePath userId name

theorem Agree.locateNote (h : Agree userId st st') (hmine : Mine st userId wsPath) (n : Note) :
    st.locateNote n wsPath = st'.locateNote n wsPath := by
  obtain ⟨name, rfl⟩ := hmine
  rw [Store.locateNote, Store.locateNote, (h.files name _).1]

theorem Agree.openRepo (h : Agree userId st st') (hmine : Mine st userId wsPath) :
    st.openRepo wsPath = st'.openRepo wsPath := by
  obtain ⟨name, rfl⟩ := hmine
  exact h.repos name

theorem Agree.noteData (h : Agree userId st st') (hmine : Mine st userId wsPath) {loc : LocatedNote} {relative : Text}
    (hpath : loc.filepath = wsPath ++ '/' :: relative) (sha : Option Text) :
    st.noteData loc sha = st'.noteData loc sha := by
  obtain ⟨name, rfl⟩ := hmine
  cases sha with
  | none => rfl
  | some sha => rw [Store.noteData, Store.noteData, hpath, (h.files name relative).2]

theorem Agree.getWithContent (h : Agree userId st st') (howner : t.workspace.ownerId = userId)
    (hmine : Mine st userId t.workspace.path) : st.getWithContent t = st'.getWithContent t := by
  rw [Store.getWithContent, Store.getWithContent, howner, h.get]
  cases st'.db.get t.noteId (some userId) with
  | none => rfl
  | some n =>
    dsimp only
    rw [h.locateNote hmine, Store.currentHeadSha, Store.currentHeadSha, h.openRepo hmine]
    have hdata : ∀ sha, st.noteData (st'.locateNote n t.workspace.path) sha =
        st'.noteData (st'.locateNote n t.workspace.path) sha := h.noteData hmine rfl
    simp only [hdata]

theorem foldl_set_values {κ ν : Type} [DecidableEq κ] {P : ν → Prop} {l : List (κ × ν)} {d : Dict κ ν}
    (hd : ∀ k v, d.get? k = some v → P v) (hl : ∀ e ∈ l, P e.2) {k : κ} {v : ν}
    (h : (l.foldl (fun d e => d.set e.1 e.2) d).get? k = some v) : P v := by
  induction l generalizing d with
  | nil => exact hd k v h
  | cons e l ih =>
    refine ih (fun k' v' hget => ?_) (fun e' he' => hl e' (List.mem_cons_of_mem _ he')) h
    rw [Dict.get?_set] at hget
    split at hget
    · exact Option.some.inj hget ▸ hl e List.mem_cons_self
    · exact hd k' v' hget

/-- A note that was located is below the directory of the user. -/
def Placed (st : Store E) (userId : String) (loc : LocatedNote) : Prop :=
  ∃ wsPath relative, Mine st userId wsPath ∧ loc.filepath = wsPath ++ '/' :: relative

theorem Agree.locateMany (h : Agree userId st st') (hmine : Mine st userId wsPath)
    (walk : List Bytes → Option (List WalkEntry)) :
    st.locateMany noteIds userId wsPath walk = st'.locateMany noteIds userId wsPath walk := by
  have hlocate := fun n => h.locateNote hmine n
  simp only [Store.locateMany, h.getMany, hlocate]

theorem locateMany_placed {walk : List Bytes → Option (List WalkEntry)} (hmine : Mine st userId wsPath) :
    ∀ e ∈ st.locateMany noteIds userId wsPath walk, Placed st userId e.2 := by
  intro e he
  obtain ⟨⟨id, loc⟩, hloc, rfl⟩ := List.mem_map.mp he
  obtain ⟨_, n, _, rfl⟩ := rowsLocated_get?.mp (Dict.mem_entries_iff.mp hloc)
  exact ⟨wsPath, _, hmine, rfl⟩

/-- The groups are the user's, and so is what they locate. -/
theorem Agree.locateGroups (h : Agree userId st st') {groups : List (Text × List NoteTarget)}
    (hmine : ∀ g ∈ groups, Mine st userId g.1 ∧ (g.2.head?.map (·.workspace.ownerId)).getD "" = userId)
    {located : Dict String LocatedNote} (hplaced : ∀ id loc, located.get? id = some loc → Placed st userId loc) :
    st.locateGroups groups located = st'.locateGroups groups located ∧
      ∀ located', st.locateGroups groups located = .ok located' →
        ∀ id loc, located'.get? id = some loc → Placed st userId loc := by
  induction groups generalizing located with
  | nil => exact ⟨rfl, fun located' hrun => Except.ok.inj hrun ▸ hplaced⟩
  | cons g groups ih =>
    obtain ⟨wsPath, group⟩ := g
    obtain ⟨hws, howner⟩ := hmine _ List.mem_cons_self
    rw [Store.locateGroups, Store.locateGroups, h.openRepo hws]
    cases hopen : st'.openRepo wsPath with
    | error e => exact ⟨rfl, fun located' hrun => by cases hrun⟩
    | ok walk =>
      show st.locateGroups groups _ = st'.locateGroups groups _ ∧ ∀ located', st.locateGroups groups _ = .ok located' → _
      rw [howner, ← h.locateMany hws]
      exact ih (fun g hg => hmine g (List.mem_cons_of_mem _ hg)) fun id loc hget =>
        foldl_set_values hplaced (locateMany_placed hws) hget

/-- The targets are at places of the user. -/
def AllMine (st : Store E) (userId : String) (targets : List NoteTarget) : Prop :=
  ∀ t ∈ targets, t.workspace.ownerId = userId ∧ Mine st userId t.workspace.path

theorem allMine_notes (st : Store E) (userId : String) (noteIds : List String) :
    AllMine st userId ((st.notes userId noteIds).filterMap Except.toOption) := by
  intro t ht
  obtain ⟨result, hresult, hsome⟩ := List.mem_filterMap.mp ht
  rw [notes_eq] at hresult
  obtain ⟨⟨noteId, i⟩, _, rfl⟩ := List.mem_map.mp hresult
  obtain ⟨n, _, _, _, rfl⟩ := note_eq_ok.mp (mapError_ok (ok_of_toOption hsome))
  exact ⟨rfl, n.workspace, rfl⟩

theorem Agree.readTargets (h : Agree userId st st') {targets : List NoteTarget} (hmine : AllMine st userId targets) :
    st.readTargets targets = st'.readTargets targets := by
  have hgroups : ∀ g ∈ (Store.byWorkspace targets).entries,
      Mine st userId g.1 ∧ (g.2.head?.map (·.workspace.ownerId)).getD "" = userId := by
    rintro ⟨wsPath, group⟩ hg
    obtain ⟨hgroup, hne⟩ := byWorkspace_entries targets _ hg
    obtain ⟨t, rest, hcons⟩ := List.exists_cons_of_ne_nil hne
    have ht : t ∈ targets ∧ t.workspace.path = wsPath := by
      have hmem : t ∈ targets.filter fun t => t.workspace.path = wsPath := by
        rw [← hgroup, hcons]
        exact List.mem_cons_self
      rwa [List.mem_filter, decide_eq_true_eq] at hmem
    obtain ⟨howner, hws⟩ := hmine t ht.1
    refine ⟨ht.2 ▸ hws, ?_⟩
    show (List.head? (Prod.snd (wsPath, group)) |>.map _).getD "" = userId
    rw [hcons]
    exact howner
  obtain ⟨hsame, hplaced⟩ := @Agree.locateGroups _ _ _ _ h _ hgroups Dict.empty fun id loc hget => nomatch hget
  have hmany : st.getMany targets = st'.getMany targets := by
    rw [Store.getMany, Store.getMany, ← hsame]
    cases hrun : st.locateGroups (Store.byWorkspace targets).entries Dict.empty with
    | error e => rfl
    | ok located =>
      refine mapM_congr fun t _ => ?_
      unfold Store.readItem
      split
      · rename_i loc hget
        obtain ⟨wsPath, relative, hws, hpath⟩ := hplaced located hrun _ _ hget
        rw [h.noteData hws hpath]
      · rfl
  rw [Store.readTargets, Store.readTargets, hmany]

/-! ## nobody else's notes show -/

theorem Agree.note_cases (h : Agree userId st st') (noteId : String) :
    (∃ f f', st.note userId noteId = .error f ∧ st'.note userId noteId = .error f') ∨
    ∃ t, st.note userId noteId = .ok t ∧ st'.note userId noteId = .ok t := by
  have hnote := h.note noteId
  cases hst : st.note userId noteId with
  | error f =>
    cases hst' : st'.note userId noteId with
    | error f' => exact .inl ⟨f, f', rfl, rfl⟩
    | ok t' =>
      rw [hst, hst'] at hnote
      cases hnote
  | ok t =>
    cases hst' : st'.note userId noteId with
    | error f' =>
      rw [hst, hst'] at hnote
      cases hnote
    | ok t' =>
      rw [hst, hst'] at hnote
      exact .inr ⟨t, rfl, congrArg Except.ok (Except.ok.inj hnote).symm⟩

theorem Agree.getNote (h : Agree userId st st') (noteId : String) : st.getNote userId noteId = st'.getNote userId noteId := by
  unfold Store.getNote
  obtain ⟨f, f', hst, hst'⟩ | ⟨t, hst, hst'⟩ := h.note_cases noteId
  · rw [hst, hst']
  · obtain ⟨n, _, _, _, rfl⟩ := note_eq_ok.mp hst
    rw [hst, hst']
    dsimp only
    rw [h.getWithContent (t := ⟨noteId, _⟩) rfl ⟨n.workspace, rfl⟩]

theorem Agree.getNotes (h : Agree userId st st') (noteIds : List String) :
    st.getNotes userId noteIds = st'.getNotes userId noteIds := by
  rw [Store.getNotes, Store.getNotes, h.readTargets (allMine_notes st userId noteIds), h.targets]
  have hshown := fun results => interleave_shown (E := E) (h.notes noteIds) noteIds results
  simp only [hshown]

theorem Agree.restWorkspace (h : Agree userId st st') (name action : String) :
    st.restWorkspace userId name action = st'.restWorkspace userId name action := by
  rw [Store.restWorkspace, Store.restWorkspace, h.workspace]

theorem Agree.writeBatch (h : Agree userId st st') (noteIds : List String) :
    (st.writeBatch userId noteIds).1 = (st'.writeBatch userId noteIds).1 := by
  have hbatch := h.batch noteIds
  have htext : ∀ failures : List TargetFailure, (failures.map fun f => detail f.index f.error) =
      (failures.map TargetFailure.shown).map fun p => detail p.1 p.2 := by
    intro failures
    rw [List.map_map]
    rfl
  unfold Store.writeBatch
  cases hst : st.notesInOneWorkspace userId noteIds with
  | error failures =>
    cases hst' : st'.notesInOneWorkspace userId noteIds with
    | ok granted =>
      rw [hst, hst'] at hbatch
      cases hbatch
    | error failures' =>
      rw [hst, hst'] at hbatch
      have hshown : failures.map TargetFailure.shown = failures'.map TargetFailure.shown := Except.error.inj hbatch
      dsimp only
      rw [htext, htext, hshown]
  | ok granted =>
    cases hst' : st'.notesInOneWorkspace userId noteIds with
    | error failures' =>
      rw [hst, hst'] at hbatch
      cases hbatch
    | ok granted' =>
      rw [hst, hst'] at hbatch
      obtain rfl : granted = granted' := Except.ok.inj hbatch
      rfl

/-- **An answer depends on what is the caller's only**: whether a note is there that belongs to somebody else,
or is not there at all, nobody is told. -/
theorem respond_agree (st st' : Store E) (userId : String) (c : Call) (h : Agree userId st st') :
    (st.respond (some userId) c).1 = (st'.respond (some userId) c).1 := by
  cases c with
  | restWorkspace name action => exact congrArg Prod.fst (h.restWorkspace name action)
  | restNote name noteId action workspaceAction =>
    show (st.restNote ..).1 = (st'.restNote ..).1
    rw [Store.restNote, Store.restNote, h.restWorkspace]
    obtain ⟨f, f', hst, hst'⟩ | ⟨t, hst, hst'⟩ := h.note_cases noteId
    · rw [hst, hst']
      split <;> rfl
    · rw [hst, hst']
  | mcpWorkspace workspace action =>
    show (st.mcpWorkspace ..).1 = (st'.mcpWorkspace ..).1
    rw [Store.mcpWorkspace, Store.mcpWorkspace, h.workspace]
  | mcpNote noteId action =>
    show (st.mcpNote ..).1 = (st'.mcpNote ..).1
    rw [Store.mcpNote, Store.mcpNote]
    obtain ⟨f, f', hst, hst'⟩ | ⟨t, hst, hst'⟩ := h.note_cases noteId
    · rw [hst, hst']
    · rw [hst, hst']
  | getNote noteId => exact congrArg (Store.toolAnswer .data) (h.getNote noteId)
  | getNotes noteIds => exact congrArg (Store.toolAnswer .items) (h.getNotes noteIds)
  | writeBatch noteIds => exact h.writeBatch noteIds

/-- `plainStore` without the other user. -/
def aloneStore : Store Unit :=
  { plainStore with db := ⟨⟨[plainRow "a" "u" "A"], by decide⟩, [⟨"u", "w", "owner"⟩]⟩ }

theorem aloneStore_agree : Agree "u" plainStore aloneStore where
  dir := rfl
  rows := by decide
  access := fun name => by simp [Db.hasAccess, plainStore, aloneStore, List.find?_cons]
  files := fun _ _ => ⟨rfl, rfl⟩
  repos := fun _ => rfl

/-- The note `b` is somebody else's in one store, and not there in the other. -/
theorem respond_agree_alone : (plainStore.respond (some "u") (.writeBatch ["a", "b"])).1 =
    (aloneStore.respond (some "u") (.writeBatch ["a", "b"])).1 :=
  respond_agree plainStore aloneStore "u" (.writeBatch ["a", "b"]) aloneStore_agree

/-! ## what an answer shows -/

/-- A note of the user in a workspace that he may enter. -/
structure Own (st : Store E) (userId : String) (n : Note) : Prop where
  row : n ∈ st.db.notes.rows
  owner : n.ownerId = userId
  access : st.db.hasAccess userId n.workspace = true

def Entered (st : Store E) (userId : String) (ws : WorkspaceTarget) : Prop :=
  st.db.hasAccess userId ws.name = true ∧ ws = ⟨userId, ws.name, st.workspacePath userId ws.name⟩

def Granted (st : Store E) (userId : String) (t : NoteTarget) : Prop :=
  ∃ n, Own st userId n ∧ t = ⟨n.noteId, ⟨userId, n.workspace, st.workspacePath userId n.workspace⟩⟩

/-- The row of a note of the user, with what its file has. -/
def Read (st : Store E) (userId : String) (d : NoteData E) : Prop :=
  ∃ n, Own st userId n ∧ d = ⟨n.noteId, n.workspace, userId, n.title, n.folder, n.tags, n.createdAt, n.updatedAt,
      n.occurredAt, n.period, d.extras, d.content, d.sha⟩ ∧
    st.readNoteFile (st.workspacePath userId n.workspace ++ '/' :: notePath n.toIndexedNote) = .ok (d.extras, d.content)

/-- What an answer to the call may show. -/
def Authorized (st : Store E) (userId : String) (c : Call) : Answer E → Prop
  | .http _ _ => True
  | .tool _ => True
  | .workspace ws => Entered st userId ws
  | .note t => Granted st userId t ∧ ∀ name noteId action workspaceAction,
      c = .restNote name noteId action workspaceAction → t.workspace.name = name
  | .batch ws targets => Entered st userId ws ∧ ∀ t ∈ targets, Granted st userId t ∧ t.workspace = ws
  | .data d => Read st userId d
  | .items found => ∀ d, .inl d ∈ found → Read st userId d

/-- What a record says is so. -/
def Truthful (st : Store E) (userId : String) (rec : AuditRecord) : Prop :=
  rec.callerId = userId ∧ match rec.reason with
    | .missingRow => ∃ noteId, rec.noteId = some noteId ∧ st.db.get noteId none = none
    | .wrongOwner => ∃ noteId n, rec.noteId = some noteId ∧ st.db.get noteId none = some n ∧ n.ownerId ≠ userId
    | .workspaceAccessDenied => ∃ name, st.db.hasAccess userId name = false ∧
        ∀ noteId, rec.noteId = some noteId → ∃ n, st.db.get noteId none = some n ∧ n.workspace = name
    | .workspaceMismatch => ∃ noteId n name, rec.noteId = some noteId ∧ st.db.get noteId none = some n ∧
        rec.workspace = some name ∧ n.workspace ≠ name

theorem entered_of_workspace {ws : WorkspaceTarget} (h : st.workspace userId name = .ok ws) :
    Entered st userId ws ∧ ws.name = name := by
  obtain ⟨haccess, hok⟩ | ⟨_, herr⟩ := workspace_cases st.toResolver userId name
  · obtain rfl := Except.ok.inj (h.symm.trans hok)
    exact ⟨⟨haccess, rfl⟩, rfl⟩
  · exact nomatch h.symm.trans herr

theorem granted_of_note (h : st.note userId noteId = .ok t) : Granted st userId t := by
  obtain ⟨n, hget, howner, haccess, rfl⟩ := note_eq_ok.mp h
  obtain ⟨hrow, rfl⟩ := Db.get_none_eq_some.mp hget
  exact ⟨n, ⟨hrow, howner, haccess⟩, rfl⟩

theorem read_of_getNote {d : NoteData E} (h : st.getNote userId noteId = .ok d) : Read st userId d := by
  unfold Store.getNote at h
  cases hnote : st.note userId noteId with
  | error f => rw [hnote] at h; cases h
  | ok t =>
    obtain ⟨n, hget, howner, haccess, rfl⟩ := note_eq_ok.mp hnote
    obtain ⟨hrow, rfl⟩ := Db.get_none_eq_some.mp hget
    have hmine : st.db.get n.noteId (some userId) = some n := Db.get_owner_eq_some.mpr ⟨hrow, rfl, howner⟩
    rw [hnote] at h
    dsimp only at h
    cases hread : st.getWithContent ⟨n.noteId, ⟨userId, n.workspace, st.workspacePath userId n.workspace⟩⟩ with
    | error e => rw [hread] at h; cases h
    | ok found =>
      rw [hread] at h
      cases found with
      | none => cases h
      | some d' =>
        have hd : d' = d := Except.ok.inj h
        rw [hd, Store.getWithContent, hmine] at hread
        dsimp only at hread
        split at hread
        · obtain ⟨sha, _, hread⟩ := Table.bind_ok hread
          obtain ⟨shown, hdata, hshown⟩ := Table.bind_ok hread
          rw [Option.some.inj (Except.ok.inj hshown)] at hdata
          cases sha with
          | none => cases hdata
          | some sha =>
            obtain ⟨⟨extras, content⟩, hfile, hd⟩ := Table.bind_ok hdata
            obtain rfl := Except.ok.inj hd
            refine ⟨n, ⟨hrow, howner, haccess⟩, ?_, hfile⟩
            simp only [Store.locateNote, howner]
        · cases hread

/-- A record of a note that is refused. -/
theorem truthful_of_note {f : TargetFailure} (h : st.note userId noteId = .error f) (index : Option ℕ)
    {action resource : String} {workspace : Option String} : ∀ rec ∈ auditDenied { f with index := index } action resource userId
      (some noteId) workspace, Truthful st userId rec := by
  intro rec hrec
  cases hget : st.db.get noteId none with
  | none =>
    obtain rfl := Except.error.inj (h.symm.trans (note_of_absent fun n hn => nomatch hget.symm.trans hn))
    rw [Resolver.missingReason, hget] at hrec
    obtain rfl := List.mem_singleton.mp hrec
    exact ⟨rfl, noteId, rfl, hget⟩
  | some n =>
    by_cases howner : n.ownerId = userId
    · rw [note_of_row hget howner] at h
      obtain ⟨_, hws⟩ | ⟨hdenied, hws⟩ := workspace_cases st.toResolver userId n.workspace
      · rw [hws] at h
        cases h
      · rw [hws] at h
        obtain rfl := Except.error.inj h
        obtain rfl := List.mem_singleton.mp hrec
        refine ⟨rfl, n.workspace, hdenied, fun id hid => ?_⟩
        obtain rfl := Option.some.inj hid
        exact ⟨n, hget, rfl⟩
    · have habsent : ∀ m, st.db.get noteId none = some m → m.ownerId ≠ userId := fun m hm => by
        rw [← Option.some.inj (hget.symm.trans hm)]
        exact howner
      obtain rfl := Except.error.inj (h.symm.trans (note_of_absent habsent))
      rw [Resolver.missingReason, hget] at hrec
      obtain rfl := List.mem_singleton.mp hrec
      exact ⟨rfl, noteId, n, rfl, hget, howner⟩

theorem truthful_of_workspace {f : TargetFailure} (h : st.workspace userId name = .error f) {action resource : String}
    {workspace : Option String} : ∀ rec ∈ auditDenied f action resource userId none workspace, Truthful st userId rec := by
  intro rec hrec
  obtain ⟨_, hws⟩ | ⟨hdenied, hws⟩ := workspace_cases st.toResolver userId name
  · exact nomatch h.symm.trans hws
  · obtain rfl := Except.error.inj (h.symm.trans hws)
    obtain rfl := List.mem_singleton.mp hrec
    exact ⟨rfl, name, hdenied, fun _ hid => nomatch hid⟩

/-- A record of a batch that is refused. -/
theorem truthful_of_batch {failures : List TargetFailure} (h : st.notesInOneWorkspace userId noteIds = .error failures)
    {action resource : String} : ∀ f ∈ failures, ∀ rec ∈ auditDenied f action resource userId
      (f.index.map fun index => noteIds[index]?.getD "") none, Truthful st userId rec := by
  have hwhole : ∀ f, Whole st.toResolver userId f → ∀ rec ∈ auditDenied f action resource userId
      (f.index.map fun index => noteIds[index]?.getD "") none, Truthful st userId rec := by
    rintro ⟨index, error, reason⟩ ⟨hindex, hreason⟩ rec hrec
    obtain rfl : index = none := hindex
    cases reason with
    | inr reason => cases hrec
    | inl reason =>
      obtain ⟨rfl, name, hdenied⟩ := hreason reason rfl
      obtain rfl := List.mem_singleton.mp hrec
      exact ⟨rfl, name, hdenied, fun _ hid => nomatch hid⟩
  obtain ⟨_, f, hf, heq⟩ | ⟨_, _, heq⟩ | ⟨_, _, _, heq⟩ | ⟨_, _, _, _, f, hf, heq⟩ | ⟨_, _, heq⟩ :=
    notesInOneWorkspace_cases st.toResolver userId noteIds
  · obtain rfl := Except.error.inj (h.symm.trans heq)
    exact fun g hg => List.mem_singleton.mp hg ▸ hwhole f hf
  · obtain rfl := Except.error.inj (h.symm.trans heq)
    intro f hf rec hrec
    rw [malformed_batch] at hf
    obtain ⟨x, _, hx⟩ := List.mem_filterMap.mp hf
    obtain ⟨reason, _, rfl⟩ := Option.map_eq_some_iff.mp hx
    cases hrec
  · obtain rfl := Except.error.inj (h.symm.trans heq)
    intro f hf rec hrec
    obtain ⟨⟨noteId, i⟩, hx, rfl⟩ := List.mem_map.mp hf
    obtain ⟨hx, hown⟩ := List.mem_filter.mp hx
    have hid := List.mem_zipIdx_iff_getElem?.mp hx
    have hnote := note_of_absent ((owned_eq_none (List.mem_of_getElem? hid)).mp (decide_eq_true_eq.mp hown))
    have hid : noteIds[i]? = some noteId := hid
    refine @truthful_of_note _ _ _ _ _ hnote (some i) action resource none rec ?_
    simpa only [Option.map_some, hid, Option.getD_some] using hrec
  · obtain rfl := Except.error.inj (h.symm.trans heq)
    exact fun g hg => List.mem_singleton.mp hg ▸ hwhole f hf
  · exact nomatch h.symm.trans heq

theorem truthful_of_notes {f : TargetFailure} (hf : Except.error f ∈ st.notes userId noteIds)
    {action resource : String} : ∀ rec ∈ auditDenied f action resource userId
      (f.index.map fun index => noteIds[index]?.getD "") none, Truthful st userId rec := by
  rw [notes_eq] at hf
  obtain ⟨⟨noteId, i⟩, hx, hfail⟩ := List.mem_map.mp hf
  have hid : noteIds[i]? = some noteId := List.mem_zipIdx_iff_getElem?.mp hx
  cases hnote : st.note userId noteId with
  | ok t =>
    rw [hnote] at hfail
    cases hfail
  | error f' =>
    rw [hnote] at hfail
    obtain rfl := Except.error.inj hfail
    intro rec hrec
    refine @truthful_of_note _ _ _ _ _ hnote (some i) action resource none rec ?_
    simpa only [TargetFailure.at, Option.map_some, hid, Option.getD_some] using hrec

theorem read_of_items {found : List (NoteData E ⊕ NoteReadError)} (hopens : Opens st userId)
    (hids : ∀ noteId ∈ noteIds, strip noteId.toList = noteId.toList ∧ noteId ≠ "")
    (h : st.getNotes userId noteIds = .ok found) {d : NoteData E} (hd : .inl d ∈ found) : Read st userId d := by
  have hsize : noteIds ≠ [] ∧ noteIds.length ≤ maxBatch := by
    obtain ⟨_, hcheck, _⟩ := Table.bind_ok h
    unfold Store.checkBatch at hcheck
    split at hcheck
    · cases hcheck
    · rename_i hne
      split at hcheck
      · cases hcheck
      · rename_i hlen
        exact ⟨hne, Nat.not_lt.mp hlen⟩
  rw [getNotes_eq st userId noteIds hopens hsize.1 hsize.2 hids] at h
  obtain ⟨noteId, _, hitem⟩ := mem_of_mapM_ok (mapError_ok h) hd
  cases hget : st.getNote userId noteId with
  | ok d' =>
    rw [hget] at hitem
    obtain rfl : d' = d := Sum.inl.inj (Except.ok.inj hitem)
    exact read_of_getNote hget
  | error e =>
    rw [hget] at hitem
    cases e with
    | toolError message => cases hitem
    | service e => cases hitem

end
end Kajet.Access
