import Kajet.Lib.Table

/-!
# Notes, chunks, the full-text rows and the vectors

The vectors live in one table per dimension; a row of `note_chunks` says in `dim` which of them holds
its vector.  A vector is keyed by the integer key of its chunk row, which SQLite takes anew from the
largest one in the table: a key is used again once its row is gone.

* `Db.chunkDims`, `Db.deleteVectors`   `_delete_vectors_for_note_in_session`, its read and its deletes;
* `Db.writeChunks`                     the loop of `replace_chunks_in_session`;
* `Db.replaceWith`, `Db.replaceChecked`   the replacement, and the one that begins with the
                                       conditional update of the note;
* `Db.attachWith`                      the writes of `attach_vectors`.

A function returns the exception that rolls its transaction back.
-/

namespace Kajet.Chunks
open Table

structure Chunk where
  ordinal : ℕ
  headerPath : List String
  content : String
  charStart : ℕ
  charEnd : ℕ
deriving DecidableEq

inductive IndexState where
  | stale
  | indexed
deriving DecidableEq

structure Note where
  id : String
  indexGeneration : ℕ
  indexState : IndexState
deriving DecidableEq

structure NoteChunk where
  chunkRowid : ℕ
  id : String
  noteId : String
  workspace : String
  ownerId : String
  chunk : Chunk
  dim : Option ℕ
deriving DecidableEq

/-- A row of `notes_fts`. -/
structure FtsRow where
  chunkId : String
  noteId : String
  workspace : String
  title : String
  headerPath : List String
  content : String
deriving DecidableEq

/-- A row of `note_chunks_vec_{dim}`. -/
structure VecRow (ν : Type) where
  dim : ℕ
  chunkRowid : ℕ
  embedding : List ν
  workspace : String
  identity : String
  ownerId : String
  noteId : String
  chunkId : String
deriving DecidableEq

structure Db (ν : Type) where
  notes : List Note
  chunks : List NoteChunk
  fts : List FtsRow
  vectors : List (VecRow ν)
deriving DecidableEq

structure IndexIdentity where
  key : String
  dim : ℕ
deriving DecidableEq

inductive Raised where
  | valueError (message : String)
  | keyError
  | integrityError
  | operationalError
deriving DecidableEq

namespace Db
variable {ν : Type} (db : Db ν)

/-! ## rows of a note -/

def chunksOf (noteId : String) : List NoteChunk := db.chunks.filter (·.noteId = noteId)
def vectorsOf (noteId : String) : List (VecRow ν) := db.vectors.filter (·.noteId = noteId)

/-- `SELECT DISTINCT dim … WHERE note_id = … AND dim IS NOT NULL` -/
def chunkDims (noteId : String) : List ℕ := ((db.chunksOf noteId).filterMap (·.dim)).dedup

/-- `SELECT id, chunk_rowid … WHERE note_id = …` -/
def chunkRows (noteId : String) : List (String × ℕ) :=
  (db.chunksOf noteId).map fun c => (c.id, c.chunkRowid)

/-- The next integer key. -/
def nextRowid : ℕ := (db.chunks.map (·.chunkRowid)).foldl max 0 + 1

/-! ## deletes -/

/-- One `DELETE … WHERE note_id = …` for each of the dimensions. -/
def deleteVectors (noteId : String) (dims : List ℕ) : Db ν :=
  { db with vectors := deleteWhere (fun v => v.dim ∈ dims ∧ v.noteId = noteId) db.vectors }

/-- `delete_chunks_in_session` after its read of the dimensions. -/
def deleteChunks (noteId : String) (dims : List ℕ) : Db ν :=
  { db.deleteVectors noteId dims with
    fts := deleteWhere (fun f => f.noteId = noteId) db.fts
    chunks := deleteWhere (fun c => c.noteId = noteId) db.chunks }

/-- `note_in_session`: it has the write lock when it reads the dimensions. -/
def deleteNote (noteId : String) : Db ν :=
  { db.deleteChunks noteId (db.chunkDims noteId) with
    notes := deleteWhere (fun n => n.id = noteId) db.notes }

/-! ## writes -/

/-- The arguments of `replace_chunks`; `ids` are the ids generated for the chunks. -/
structure Replace (ν : Type) where
  noteId : String
  workspace : String
  ownerId : String
  title : String
  chunks : List Chunk
  embeddings : Option (List (List ν))
  identity : Option IndexIdentity
deriving DecidableEq

/-- vec0 takes a vector of the length of its column, under a new key. -/
def insertVector (identity : IndexIdentity) (chunkRowid : ℕ)
    (workspace ownerId noteId chunkId : String) (vector : List ν) : Except Raised (Db ν) :=
  if identity.dim = 0 then .error (.valueError "dim must be a positive int")
  else if vector.length ≠ identity.dim then .error .operationalError
  else if db.vectors.any (fun v => v.dim = identity.dim ∧ v.chunkRowid = chunkRowid) then
    .error .operationalError
  else .ok { db with
    vectors := ⟨identity.dim, chunkRowid, vector, workspace, identity.key, ownerId, noteId, chunkId⟩ ::
      db.vectors }

/-- The identity counts when the call vectorises. -/
def Replace.vectorised (a : Replace ν) : Option IndexIdentity := a.embeddings.bind fun _ => a.identity

/-- `row` of one turn of the loop. -/
def newChunk (a : Replace ν) (chunkId : String) (chunk : Chunk) : NoteChunk :=
  ⟨db.nextRowid, chunkId, a.noteId, a.workspace, a.ownerId, chunk, a.vectorised.map (·.dim)⟩

/-- One turn: the chunk row, its vector, its full-text row. -/
def writeChunk (a : Replace ν) (chunkId : String) (chunk : Chunk) (vector : Option (List ν)) :
    Except Raised (Db ν) := do
  let row := db.newChunk a chunkId chunk
  if db.notes.all (·.id ≠ a.noteId) then .error .integrityError
  else do
    let stored : Db ν := { db with chunks := row :: db.chunks }
    let db' ← (match a.vectorised, vector with
      | some identity, some vector =>
        stored.insertVector identity row.chunkRowid a.workspace a.ownerId a.noteId chunkId vector
      | _, _ => .ok stored)
    .ok { db' with
      fts := ⟨chunkId, a.noteId, a.workspace, a.title, chunk.headerPath, chunk.content⟩ :: db'.fts }

/-- The loop, with the generated ids and the vectors of the chunks. -/
def writeChunks (a : Replace ν) : List (String × Chunk × Option (List ν)) → Db ν → Except Raised (Db ν)
  | [], db => .ok db
  | (chunkId, chunk, vector) :: rest, db => do
    let db' ← db.writeChunk a chunkId chunk vector
    writeChunks a rest db'

/-- `update(Note).where(id = …).values(index_state = …)` -/
def setState (noteId : String) (state : IndexState) : Db ν :=
  { db with
    notes := updateWhere (fun n => n.id = noteId) (fun n => { n with indexState := state }) db.notes }

/-- `update(NoteChunk).where(note_id = …).values(dim = …)` -/
def setDim (noteId : String) (dim : ℕ) : Db ν :=
  { db with
    chunks := updateWhere (fun c => c.noteId = noteId) (fun c => { c with dim := some dim }) db.chunks }

/-- The chunks with their ids and vectors. -/
def Replace.items (a : Replace ν) (ids : List String) : List (String × Chunk × Option (List ν)) :=
  match a.embeddings with
  | none => (ids.zip a.chunks).map fun x => (x.1, x.2, none)
  | some vectors => (ids.zip (a.chunks.zip vectors)).map fun x => (x.1, x.2.1, some x.2.2)

/-- What `replace_chunks_in_session` checks first. -/
def Replace.check (a : Replace ν) : Except Raised Unit :=
  match a.embeddings, a.identity with
  | none, _ => .ok ()
  | some _, none => .error (.valueError "identity is required when embeddings are provided")
  | some vectors, some _ =>
    if vectors.length ≠ a.chunks.length then .error (.valueError "embeddings must match chunks")
    else .ok ()

/-- The replacement, once the dimensions are read. -/
def replaceWith (a : Replace ν) (ids : List String) (dims : List ℕ) : Except Raised (Db ν) := do
  let db' ← writeChunks a (a.items ids) (db.deleteChunks a.noteId dims)
  .ok (db'.setState a.noteId (if a.embeddings.isSome then .indexed else .stale))

/-- The conditional update takes the write lock; everything after it is the same transaction. -/
def replaceChecked (a : Replace ν) (ids : List String) (expectedGeneration : ℕ) :
    Except Raised (Bool × Db ν) := do
  a.check
  if db.notes.any (fun n => n.id = a.noteId ∧ n.indexGeneration = expectedGeneration) then do
    let claimed := { db with
      notes := updateWhere (fun n => n.id = a.noteId ∧ n.indexGeneration = expectedGeneration)
        (fun n => { n with indexState := .stale }) db.notes }
    let db' ← claimed.replaceWith a ids (claimed.chunkDims a.noteId)
    .ok (true, db')
  else .ok (false, db)

/-- The arguments of `attach_vectors`. -/
structure Attach (ν : Type) where
  noteId : String
  workspace : String
  ownerId : String
  identity : IndexIdentity
  vectors : List (String × List ν)
deriving DecidableEq

/-- The stored chunk ids are those of the given vectors. -/
def Attach.covers (a : Attach ν) (rows : List (String × ℕ)) : Prop :=
  rows ≠ [] ∧ rows.map Prod.fst ⊆ a.vectors.map Prod.fst ∧ a.vectors.map Prod.fst ⊆ rows.map Prod.fst

instance (a : Attach ν) (rows : List (String × ℕ)) : Decidable (a.covers rows) :=
  inferInstanceAs (Decidable (_ ∧ _ ∧ _))

/-- The vectors go in under the chunk ids and integer keys that were read. -/
def insertVectors (a : Attach ν) : List (String × ℕ) → Db ν → Except Raised (Db ν)
  | [], db => .ok db
  | (chunkId, rowid) :: rest, db =>
    match a.vectors.lookup chunkId with
    | none => .error .keyError
    | some vector => do
      let db' ← db.insertVector a.identity rowid a.workspace a.ownerId a.noteId chunkId vector
      insertVectors a rest db'

def attachWith (a : Attach ν) (rows : List (String × ℕ)) (dims : List ℕ) : Except Raised (Db ν) := do
  let db' ← insertVectors a rows (db.deleteVectors a.noteId dims)
  .ok ((db'.setDim a.noteId a.identity.dim).setState a.noteId .indexed)

end Db
end Kajet.Chunks
