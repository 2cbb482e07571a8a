import Kajet.Teardown.Store

/-!
# Deleting a workspace

`WorkspaceService.delete` wipes the tables one transaction after the other, removes the directory under
the lock of the workspace, and takes the access row last; a call that fails is made again.  A note
write holds the lock from its first read on; its index follow-up runs after it has let go.

* `Wipe`, `Kind.wipe`      the parts of the delete, which of them clears a table last;
* `Part`, `runPart`         the transactions of a note write; one may raise;
* `Op`, `workspace`         the delete and the writes of one workspace, in any order.
-/

namespace Kajet.Workspaces
open Table Str Tags Links Teardown

variable {ν : Type}

/-! ## the delete -/

inductive Wipe where
  | clearWorkspaceData
  | dangling
  | folderMeta
  | remote
  | jobs
  | reconcile
  | directory
  | workspaceMeta
  | revokeAccess
deriving DecidableEq

def Wipe.script : List Wipe :=
  [.clearWorkspaceData, .dangling, .folderMeta, .remote, .jobs, .reconcile, .directory, .workspaceMeta, .revokeAccess]

inductive Kind where
  | notes | tags | links | dangling | chunks | shares | folderMetas | dirty | jobs
deriving DecidableEq

/-- The part that clears the table for good. -/
def Kind.wipe : Kind → Wipe
  | .notes | .tags | .links | .chunks | .shares => .clearWorkspaceData
  | .dangling => .dangling
  | .folderMetas => .folderMeta
  | .dirty => .reconcile
  | .jobs => .jobs

/-- A delete in progress.  `late`: a write has added a row to a table that it had cleared. -/
structure Deleting where
  todo : List Wipe
  late : Bool
deriving DecidableEq

/-! ## note writes -/

/-- What a write does to the rows of the notes, together with its Git commit. -/
inductive Rows where
  | insert (noteIds : List String)
  | update (noteIds : List String)
  | delete (notes : List Teardown.Note)

inductive Part (ν : Type) where
  | rows (rows : Rows)
  | links (resolutions : List (String × List String × List (Text × Text))) (clearSourceIds : List String)
  | tags (generated : Text → String) (now : String) (taggedByNote : TaggedByNote)
  | mark (affectedSources : List String)
  | release
  /-- the hook after a commit: it reads the remote, then it enqueues -/
  | push
  | enqueuePush
  | index (a : Chunks.Db.Replace ν) (embeds : Bool)
  | embed (noteId : String)
  | reindex (noteIds : List String)

/-- A note write in progress. -/
structure Write (ν : Type) where
  locked : Bool
  todo : List (Part ν)

/-- What a note write has decided once it has read. -/
structure Plan (ν : Type) where
  rows : Rows
  resolutions : List (String × List String × List (Text × Text))
  clearSourceIds : List String
  generated : Text → String
  now : String
  taggedByNote : TaggedByNote
  affectedSources : List String
  /-- the notes that are indexed after the lock, and whether a profile is active -/
  indexed : List (Chunks.Db.Replace ν × Bool)
  reindexed : List String

def Plan.script (plan : Plan ν) : List (Part ν) :=
  [.rows plan.rows, .links plan.resolutions plan.clearSourceIds, .tags plan.generated plan.now plan.taggedByNote,
    .mark plan.affectedSources, .release, .push] ++ plan.indexed.map (fun x => .index x.1 x.2) ++
    [.reindex plan.reindexed]

/-! ## the state -/

structure Job where
  kind : String
  dedupKey : String
  pending : Bool
deriving DecidableEq

/-- `db` is the whole database; the folder metadata, the dirty markers and the jobs are those that name
the workspace. -/
structure State (ν : Type) where
  db : Teardown.Db ν
  folderMetas : List String
  dirty : List String
  jobs : List Job
  /-- there is a remote, and it is enabled -/
  remote : Bool
  directory : Bool
  access : Bool
  writes : List (Write ν)
  deleting : Option Deleting

namespace State
variable (s : State ν)

/-- One pending job for each kind and key. -/
def enqueue (kind dedupKey : String) : State ν :=
  if s.jobs.any fun j => j.kind = kind ∧ j.dedupKey = dedupKey ∧ j.pending then s
  else { s with jobs := s.jobs ++ [⟨kind, dedupKey, true⟩] }

def hasNote (noteId : String) : Bool := s.db.notes.any (·.id = noteId)

/-- Somebody holds the lock of the workspace. -/
def busy : Bool := s.writes.any (·.locked)

end State

/-! ## the steps -/

section
variable (σ : Scope)

/-- `none`: the transaction raises.  A note is indexed when its row has the expected generation, which is
what `current` tells; the follow-ups that this step adds come before the others. -/
def runPart (s : State ν) (ids : List String) (current : Bool) : Part ν → Option (State ν × List (Part ν))
  | .rows (.insert noteIds) =>
    if noteIds.any s.hasNote then none
    else some ({ s with db := { s.db with notes := s.db.notes ++ noteIds.map (⟨·, σ⟩) } }, [])
  | .rows (.update noteIds) => if noteIds.all s.hasNote then some (s, []) else none
  | .rows (.delete notes) => (s.db.notesInSession σ notes).map fun db => ({ s with db := db }, [])
  | .links resolutions clearSourceIds =>
    some ({ s with db := s.db.persistMany σ resolutions clearSourceIds }, [])
  | .tags generated now taggedByNote => do
    let db ← run s.db (.syncNoteTags σ generated now taggedByNote)
    let db ← db.sweepOrphanTags σ
    some ({ s with db := db }, [])
  | .mark affectedSources =>
    if affectedSources = [] then some (s, [])
    else some ({ s with dirty := s.dirty ∪ affectedSources }.enqueue "reconcile_links" "reconcile", [])
  | .release => some (s, [])
  | .push => some (s, if s.remote then [.enqueuePush] else [])
  | .enqueuePush => some (s.enqueue "push_workspace" "push", [])
  | .index a embeds =>
    if current && s.hasNote a.noteId then
      (run s.db (.replaceChunks a ids (s.db.index.chunkDims a.noteId))).map fun db =>
        ({ s with db := db }, if a.chunks ≠ [] ∧ embeds then [.embed a.noteId] else [])
    else some (s, [])
  | .embed noteId => some (s.enqueue "embed_note" noteId, [])
  | .reindex noteIds => some (noteIds.foldl (fun s noteId => s.enqueue "reindex_note" noteId) s, [])

/-- The tables to which a part adds rows of the workspace: a pair of a note and a tag, or a chunk, only
while its note is there. -/
def State.adds (s : State ν) (current : Bool) : Part ν → List Kind
  | .rows (.insert noteIds) => if noteIds = [] ∨ noteIds.any s.hasNote then [] else [.notes]
  | .rows _ | .release | .push => []
  | .links resolutions _ => (if resolutions.all (·.2.1 = []) then [] else [.links]) ++
    if resolutions.all (·.2.2 = []) then [] else [.dangling]
  | .tags _ _ taggedByNote =>
    if items taggedByNote = [] ∨ (items taggedByNote).any (fun x => !s.hasNote x.1) then [] else [.tags]
  | .mark affectedSources => if affectedSources = [] then [] else [.dirty, .jobs]
  | .index a _ => if a.chunks ≠ [] ∧ current ∧ s.hasNote a.noteId then [.chunks] else []
  | .enqueuePush | .embed _ => [.jobs]
  | .reindex noteIds => if noteIds = [] then [] else [.jobs]

/-- After an exception the lock is let go, and a commit that was made has its hook run. -/
def Part.unwind (locked : Bool) : Part ν → List (Part ν)
  | .rows _ => [.release]
  | _ => if locked then [.release, .push] else []

def Part.locks (locked : Bool) : Part ν → Bool
  | .release => false
  | _ => locked

/-- `none`: the part raises, or the directory waits for the lock. -/
def runWipe (s : State ν) : Wipe → Option (State ν)
  | .clearWorkspaceData => (s.db.workspaceInSession σ).map fun db => { s with db := db }
  | .dangling => some { s with db := s.db.deleteDanglingForWorkspace σ }
  | .folderMeta => some { s with folderMetas := [] }
  | .remote => some { s with remote := false }
  | .jobs => some { s with jobs := [] }
  | .reconcile => some { s with dirty := [] }
  | .directory => if s.directory && s.busy then none else some { s with directory := false }
  | .workspaceMeta => some s
  | .revokeAccess => some { s with access := false }

end

inductive Op (ν : Type) where
  /-- an authorised write gets the lock -/
  | acquire (plan : Plan ν)
  /-- the next part of the `k`-th write, with the ids of the chunks that it makes -/
  | work (k : ℕ) (ids : List String) (current : Bool)
  /-- the process of the `k`-th write dies -/
  | die (k : ℕ)
  | delete
  /-- the next part of the delete -/
  | wipe
  /-- the delete fails -/
  | fail

/-- The part that the `k`-th write does next. -/
def State.next (s : State ν) (k : ℕ) : Option (Part ν) := s.writes[k]?.bind (·.todo.head?)

/-- A table that the delete has cleared gets a row. -/
def Deleting.note (tables : List Kind) (d : Deleting) : Deleting :=
  { d with late := d.late || tables.any fun t => t.wipe ∉ d.todo }

def step (σ : Scope) (s : State ν) : Op ν → Option (State ν)
  | .acquire plan =>
    if s.directory && !s.busy then some { s with writes := s.writes ++ [⟨true, plan.script⟩] } else none
  | .work k ids current =>
    match s.writes[k]? with
    | none => none
    | some ⟨_, []⟩ => some { s with writes := s.writes.eraseIdx k }
    | some ⟨locked, p :: rest⟩ =>
      match runPart σ s ids current p with
      | none => some { s with writes := s.writes.set k ⟨locked, p.unwind locked⟩ }
      | some (t, more) => some { t with
          writes := s.writes.set k ⟨p.locks locked, more ++ rest⟩
          deleting := s.deleting.map (·.note (s.adds current p)) }
  | .die k => some { s with writes := s.writes.eraseIdx k }
  | .delete =>
    if s.access && s.deleting.isNone then some { s with deleting := some ⟨Wipe.script, false⟩ } else none
  | .wipe =>
    match s.deleting with
    | none => none
    | some ⟨[], _⟩ => some { s with deleting := none }
    | some ⟨w :: rest, late⟩ => (runWipe σ s w).map fun t => { t with deleting := some ⟨rest, late⟩ }
  | .fail => some { s with deleting := none }

/-- A workspace with any rows, and nothing in progress. -/
def workspace (ν : Type) (σ : Scope) : Machine (State ν) (Op ν) where
  start s := s.directory = true ∧ s.access = true ∧ s.writes = [] ∧ s.deleting = none
  next := step σ

/-- `create`: the directory, the access row and the row of the settings. -/
def State.create (s : State ν) : Option (State ν) :=
  if s.directory then none else some { s with directory := true, access := true }

end Kajet.Workspaces
