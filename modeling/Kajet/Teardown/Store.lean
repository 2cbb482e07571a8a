import Kajet.Tags.Shape
import Kajet.Chunks.Attach
import Kajet.Links.Affected

/-!
# Teardown of notes and of workspaces

A note owns rows in ten tables.  `note_in_session` deletes what belongs to one note, by its id;
`workspace_in_session` deletes what belongs to a workspace, by the workspace and the owner that the
rows repeat.

* `Db`, `Db.intact`         the tables, the foreign keys between them;
* `Db.noteInSession`, `Db.workspaceInSession`   the two teardowns;
* `Op`, `database`          the transactions of the services that write these tables, in any order.
-/

namespace Kajet

/-! The workspace and the owner that a row repeats, or that a call writes. -/

def Chunks.NoteChunk.scope (c : Chunks.NoteChunk) : Tags.Scope := ⟨c.workspace, c.ownerId⟩
def Chunks.VecRow.scope {ν : Type} (v : Chunks.VecRow ν) : Tags.Scope := ⟨v.workspace, v.ownerId⟩
def Chunks.Db.Replace.scope {ν : Type} (a : Chunks.Db.Replace ν) : Tags.Scope := ⟨a.workspace, a.ownerId⟩
def Chunks.Db.Attach.scope {ν : Type} (a : Chunks.Db.Attach ν) : Tags.Scope := ⟨a.workspace, a.ownerId⟩
def Links.NoteLink.scope (l : Links.NoteLink) : Tags.Scope := ⟨l.workspace, l.ownerId⟩
def Links.DanglingLink.scope (d : Links.DanglingLink) : Tags.Scope := ⟨d.workspace, d.ownerId⟩

namespace Teardown
open Table Str Tags Links Chunks

/-- The columns `index_generation` and `index_state` are left out: they decide whether a replacement of
the chunks is made. -/
structure Note where
  id : String
  scope : Scope
deriving DecidableEq

structure ShareLink where
  token : String
  noteId : String
  scope : Scope
  createdAt : String
  revokedAt : Option String
  previewDescription : Bool
deriving DecidableEq

structure Visit where
  id : ℕ
  kind : String
  token : String
  ip : Option String
  userAgent : Option String
  createdAt : String
deriving DecidableEq

structure Db (ν : Type) where
  notes : List Note
  chunks : List NoteChunk
  fts : List FtsRow
  vectors : List (VecRow ν)
  tagging : Tags.Db
  shares : List ShareLink
  visits : List Visit
  links : List NoteLink
  dangling : List DanglingLink
deriving DecidableEq

namespace Db
variable {ν : Type} (db : Db ν)

def notesOf (scope : Scope) : List Note := db.notes.filter (·.scope = scope)

/-- The tables of the index. -/
def index : Chunks.Db ν := ⟨db.notes.map fun n => ⟨n.id, 1, .stale⟩, db.chunks, db.fts, db.vectors⟩

def setIndex (index : Chunks.Db ν) : Db ν :=
  { db with chunks := index.chunks, fts := index.fts, vectors := index.vectors }

/-- Every foreign key finds its row. -/
def intact : Prop :=
  (∀ l ∈ db.tagging.noteTags, (∃ n ∈ db.notes, n.id = l.noteId) ∧ ∃ t ∈ db.tagging.tags, t.id = l.tagId) ∧
  (∀ t ∈ db.tagging.tags, ∀ id ∈ t.parentId, ∃ u ∈ db.tagging.tags, u.id = id) ∧
  (∀ c ∈ db.chunks, ∃ n ∈ db.notes, n.id = c.noteId) ∧
  (∀ s ∈ db.shares, ∃ n ∈ db.notes, n.id = s.noteId) ∧
  ∀ v ∈ db.visits, ∃ s ∈ db.shares, s.token = v.token

instance : Decidable db.intact := inferInstanceAs (Decidable (_ ∧ _ ∧ _ ∧ _ ∧ _))

/-- A statement that leaves a foreign key without its row raises, and the transaction is rolled back. -/
def checked : Option (Db ν) := if db.intact then some db else none

/-! ## by note -/

def deleteNoteTags (noteId : String) : Db ν := { db with tagging := db.tagging.deleteNoteTags [noteId] }

def deleteChunks (noteId : String) : Db ν :=
  db.setIndex (db.index.deleteChunks noteId (db.index.chunkDims noteId))

def deleteVisitsForNote (noteId : String) : Db ν :=
  { db with visits := deleteWhere (fun v => db.shares.any fun s => s.noteId = noteId ∧ s.token = v.token) db.visits }

def deleteSharesForNote (noteId : String) : Db ν :=
  { db with shares := deleteWhere (fun s => s.noteId = noteId) db.shares }

def deleteNote (note : Note) : Db ν :=
  { db with notes := deleteWhere (fun n => n.id = note.id ∧ n.scope.ownerId = note.scope.ownerId) db.notes }

def deleteLinksFrom (noteId : String) : Db ν :=
  { db with links := deleteWhere (fun l => l.sourceNoteId = noteId) db.links }

def deleteLinksTo (noteId : String) : Db ν :=
  { db with links := deleteWhere (fun l => l.targetNoteId = noteId) db.links }

def deleteDanglingForSource (noteId : String) : Db ν :=
  { db with dangling := deleteWhere (fun d => d.sourceNoteId = noteId) db.dangling }

def noteInSession (note : Note) : Option (Db ν) := do
  let db ← ((((db.deleteNoteTags note.id).deleteChunks note.id).deleteVisitsForNote note.id).deleteSharesForNote
    note.id).checked
  let db ← (db.deleteNote note).checked
  some (((db.deleteLinksFrom note.id).deleteLinksTo note.id).deleteDanglingForSource note.id)

def sweepOrphanTags (scope : Scope) : Option (Db ν) := do
  let tagging ← db.tagging.sweepOrphanTags scope
  { db with tagging := tagging }.checked

/-- The notes one after the other, and one sweep. -/
def notesInSession (scope : Scope) (notes : List Note) : Option (Db ν) := do
  let db ← notes.foldlM noteInSession db
  db.sweepOrphanTags scope

/-! ## by workspace -/

def deleteWorkspaceTags (scope : Scope) : Db ν := { db with tagging := db.tagging.deleteWorkspaceTags scope }

/-- `delete_for_workspace_in_session` of the chunks -/
def deleteChunksForWorkspace (scope : Scope) : Db ν :=
  let mine := db.chunks.filter (·.scope = scope)
  let dims := (mine.filterMap (·.dim)).dedup
  { db with
    vectors := deleteWhere (fun v => v.dim ∈ dims ∧ v.scope = scope) db.vectors
    fts := deleteWhere (fun f => mine.any (·.id = f.chunkId)) db.fts
    chunks := deleteWhere (fun c => c.scope = scope) db.chunks }

def deleteVisitsForWorkspace (scope : Scope) : Db ν :=
  { db with visits := deleteWhere (fun v => db.shares.any fun s => s.scope = scope ∧ s.token = v.token) db.visits }

def deleteSharesForWorkspace (scope : Scope) : Db ν :=
  { db with shares := deleteWhere (fun s => s.scope = scope) db.shares }

def deleteNotesForWorkspace (scope : Scope) : Db ν :=
  { db with notes := deleteWhere (fun n => n.scope = scope) db.notes }

def deleteWorkspaceLinks (scope : Scope) : Db ν :=
  { db with links := deleteWhere (fun l => l.scope = scope) db.links }

def deleteDanglingForWorkspace (scope : Scope) : Db ν :=
  { db with dangling := deleteWhere (fun d => d.scope = scope) db.dangling }

def workspaceInSession (scope : Scope) : Option (Db ν) := do
  let db ← (db.deleteWorkspaceTags scope).checked
  let db ← (((db.deleteChunksForWorkspace scope).deleteVisitsForWorkspace scope).deleteSharesForWorkspace
    scope).checked
  let db ← (db.deleteNotesForWorkspace scope).checked
  some ((db.deleteWorkspaceLinks scope).deleteDanglingForWorkspace scope)

/-! ## writes -/

/-- One source of `persist_many`. -/
def replaceForSource (scope : Scope) (x : String × List String × List (Text × Text)) : Db ν :=
  { db with
    links := deleteWhere (fun l => l.sourceNoteId = x.1) db.links ++
      x.2.1.map fun targetId => ⟨x.1, targetId, scope.workspace, scope.ownerId⟩
    dangling := deleteWhere (fun d => d.sourceNoteId = x.1) db.dangling ++
      x.2.2.map fun p => ⟨scope.workspace, scope.ownerId, x.1, p.1, p.2⟩ }

def clearSource (sourceId : String) : Db ν := (db.deleteLinksFrom sourceId).deleteDanglingForSource sourceId

/-- Each source with the ids of its targets and its broken pairs; then the sources without links. -/
def persistMany (scope : Scope) (resolutions : List (String × List String × List (Text × Text)))
    (clearSourceIds : List String) : Db ν :=
  clearSourceIds.foldl clearSource (resolutions.foldl (fun db x => db.replaceForSource scope x) db)

end Db

/-! ## the machine -/

inductive Op (ν : Type) where
  | insertNote (note : Note)
  | syncNoteTags (scope : Scope) (generated : Text → String) (now : String) (taggedByNote : TaggedByNote)
  | sweepOrphanTags (scope : Scope)
  | persistLinks (scope : Scope) (resolutions : List (String × List String × List (Text × Text)))
      (clearSourceIds : List String)
  /-- the writes of `replace_chunks` and `attach_vectors`, after what they have read -/
  | replaceChunks (a : Db.Replace ν) (ids : List String) (dims : List ℕ)
  | attachVectors (a : Db.Attach ν) (rows : List (String × ℕ)) (dims : List ℕ)
  | createShare (token noteId : String) (scope : Scope) (now : String) (previewDescription : Bool)
  | revoke (ownerId noteId token now : String)
  | setPreviewDescription (ownerId noteId token : String) (value : Bool)
  | recordVisit (visit : Visit)
  | sweepVisits (cutoff : String)
  | deleteNotes (scope : Scope) (notes : List Note)
  | clearWorkspaceData (scope : Scope)

section
variable {ν : Type}

/-- The share link that an owner can still change. -/
def ShareLink.mine (ownerId noteId token : String) (s : ShareLink) : Bool :=
  s.token = token ∧ s.scope.ownerId = ownerId ∧ s.noteId = noteId ∧ s.revokedAt = none

/-- `none`: the transaction raises. -/
def run (db : Db ν) : Op ν → Option (Db ν)
  | .insertNote note =>
    if db.notes.any (·.id = note.id) then none else some { db with notes := db.notes ++ [note] }
  | .syncNoteTags scope generated now taggedByNote =>
    match db.tagging.syncNoteTags scope generated now taggedByNote with
    | .error _ => none
    | .ok tagging => { db with tagging := tagging }.checked
  | .sweepOrphanTags scope => db.sweepOrphanTags scope
  | .persistLinks scope resolutions clearSourceIds => some (db.persistMany scope resolutions clearSourceIds)
  | .replaceChunks a ids dims =>
    match db.index.replaceWith a ids dims with
    | .error _ => none
    | .ok index => some (db.setIndex index)
  | .attachVectors a rows dims =>
    match db.index.attachWith a rows dims with
    | .error _ => none
    | .ok index => some (db.setIndex index)
  | .createShare token noteId scope now previewDescription =>
    if db.shares.any (·.token = token) then none
    else { db with shares := db.shares ++ [(⟨token, noteId, scope, now, none, previewDescription⟩ : ShareLink)] }.checked
  | .revoke ownerId noteId token now => some { db with
      shares := updateWhere (ShareLink.mine ownerId noteId token) (fun s => { s with revokedAt := some now }) db.shares }
  | .setPreviewDescription ownerId noteId token value => some { db with
      shares := updateWhere (ShareLink.mine ownerId noteId token) (fun s => { s with previewDescription := value })
        db.shares }
  | .recordVisit visit =>
    if db.visits.any (·.id = visit.id) then none else { db with visits := db.visits ++ [visit] }.checked
  | .sweepVisits cutoff => some { db with visits := deleteWhere (fun v => v.createdAt < cutoff) db.visits }
  | .deleteNotes scope notes => db.notesInSession scope notes
  | .clearWorkspaceData scope => db.workspaceInSession scope

/-- Tags are normalized and the notes are the keys of a dictionary; the ids of chunks are random, one
for each of them. -/
def Op.possible (db : Db ν) : Op ν → Prop
  | .syncNoteTags _ _ _ taggedByNote => Admissible taggedByNote
  | .replaceChunks a ids _ => ids.length = a.chunks.length ∧ (ids ++ db.chunks.map (·.id)).Nodup ∧ a.check = .ok ()
  | _ => True

instance [DecidableEq ν] (db : Db ν) : (op : Op ν) → Decidable (op.possible db)
  | .syncNoteTags .. | .replaceChunks .. => inferInstanceAs (Decidable (_ ∧ _))
  | .insertNote _ | .sweepOrphanTags _ | .persistLinks .. | .attachVectors .. | .createShare .. => isTrue trivial
  | .revoke .. | .setPreviewDescription .. | .recordVisit _ | .sweepVisits _ | .deleteNotes .. => isTrue trivial
  | .clearWorkspaceData _ => isTrue trivial

def Db.empty : Db ν := ⟨[], [], [], [], ⟨[], []⟩, [], [], [], []⟩

def database (ν : Type) [DecidableEq ν] : Machine (Db ν) (Op ν) where
  start db := db = Db.empty
  next db op := if op.possible db then some ((run db op).getD db) else none

end
end Teardown
end Kajet
