import Kajet.Chunks.Attach

/-!
# Indexing: inline, by job, and not at all

An operation writes rows and files under the workspace lock; what it does about the index comes after.
`save` and `update` chunk their note inline, the batch operations ask for a `reindex_note` job of every
note and swallow an error of that request.

* `Doc`, `World`    titles and bodies beside the chunk store, the deferred calls, the two queues, the
                    running `reindex_note` handlers;
* `Action`, `indexing`  the machine; its store part takes the steps of `store`;
* `Fresh`, `HasJob` the two ways in which an indexed note may be;
* `Spared`          an index request fails, or is not reached, for notes only that do not need it.

`chunkMarkdown` is a parameter: a content and a title give the chunks.
-/

namespace Kajet.Chunks
open Table Machine Db

/-- What the file of the note says; `content` is `none` if no file is at the path of the row. -/
structure Doc where
  noteId : String
  title : String
  content : Option String
deriving DecidableEq

/-- `defer_index_note` and `defer_index_many`: past the workspace lock. -/
inductive Deferred where
  | indexNote (noteId title content : String) (expectedGeneration : ℕ)
  | indexMany (notes : List String)
deriving DecidableEq

/-- A `ReindexNoteHandler`: claimed, with its row, with its file. -/
inductive Running where
  | started (noteId : String)
  | row (noteId : String) (generation : ℕ) (title : String)
  | file (noteId : String) (generation : ℕ) (title content : String)
deriving DecidableEq

def Deferred.noteIds : Deferred → List String
  | .indexNote noteId _ _ _ => [noteId]
  | .indexMany notes => notes

def Running.noteId : Running → String
  | .started noteId | .row noteId _ _ | .file noteId _ _ _ => noteId

def Call.noteId {ν : Type} : Call ν → String
  | .attachDims a _ | .attachWrite a _ _ => a.noteId
  | .replaceWrite a _ => a.noteId

structure World (ν : Type) where
  store : State ν
  docs : List Doc
  deferred : List Deferred
  /-- the pending `reindex_note` jobs: one for each note, by their dedup key -/
  reindex : List String
  embeds : List String
  running : List Running
deriving DecidableEq

inductive Action (ν : Type) where
  | save (noteId title content : String)
  | saveMany (items : List (String × String × String))
  | update (noteId title content : String)
  /-- the notes with their new bodies -/
  | editMany (items : List (String × String))
  | renameTag (items : List (String × String))
  | rewriteBacklinks (items : List (String × String))
  /-- new files, notes whose frontmatter has drifted with the title it has now, the other ones, rows
  without a file -/
  | reconcile (inserted : List Doc) (drifted : List (String × String)) (unchanged missing : List String)
  /-- the `k`-th deferred call; what it enqueues may fail -/
  | finish (k : ℕ) (ids : List String) (enqueued : Bool)
  /-- the operation has raised on its way to the `k`-th deferred call -/
  | abandon (k : ℕ)
  | claim (noteId : String)
  | readRow (k : ℕ)
  | readFile (k : ℕ)
  | write (k : ℕ) (ids : List String) (resolved : Bool)
  /-- the `k`-th handler has raised -/
  | retry (k : ℕ)
  | embed (noteId : String) (identity : IndexIdentity) (vectors : List (String × List ν))
  | attach (k : ℕ)
  | retryEmbed (k : ℕ)

section
variable {ν : Type}

namespace World

def empty : World ν := ⟨State.empty, [], [], [], [], []⟩

/-- Transactions on the chunk store. -/
def exec (w : World ν) (ops : List (Op ν)) : Option (World ν) :=
  ((Chunks.store ν).exec w.store ops).map fun s => { w with store := s }

def noteRow (w : World ν) (noteId : String) : Option Note := row Note.id w.store.db.notes noteId

def doc (w : World ν) (noteId : String) : Option Doc := row Doc.noteId w.docs noteId

def putDocs (w : World ν) (docs : List Doc) : World ν :=
  { w with docs := docs ++ deleteWhere (fun d => d.noteId ∈ docs.map Doc.noteId) w.docs }

def defer (w : World ν) (call : Deferred) : World ν := { w with deferred := call :: w.deferred }

def dropDeferred (w : World ν) (k : ℕ) : World ν := { w with deferred := w.deferred.eraseIdx k }

def start (w : World ν) (r : Running) : World ν := { w with running := r :: w.running }

def dropRunning (w : World ν) (k : ℕ) : World ν := { w with running := w.running.eraseIdx k }

/-- `enqueue_many`: a pending job is kept. -/
def enqueue (w : World ν) (notes : List String) : World ν := { w with reindex := notes ∪ w.reindex }

def enqueueEmbed (w : World ν) (noteId : String) : World ν :=
  { w with embeds := w.embeds.insert noteId }

/-! ## rows and files -/

/-- The id is new, or is that of a row that has gone without ever having had a file. -/
def insertable (w : World ν) (d : Doc) : Prop :=
  ∀ x ∈ w.docs, x.noteId = d.noteId → x.content = none ∧ d.content = none

instance (w : World ν) (d : Doc) : Decidable (w.insertable d) :=
  inferInstanceAs (Decidable (∀ x ∈ w.docs, _ → _))

def insertNotes (w : World ν) (docs : List Doc) : Option (World ν) :=
  if ∀ d ∈ docs, w.insertable d then
    (w.exec (docs.map fun d => .insertNote d.noteId)).map fun w => w.putDocs docs
  else none

/-- The note has a row, and a file exactly if it is to have one. -/
def writable (w : World ν) (d : Doc) : Prop :=
  (w.noteRow d.noteId).isSome ∧ ∃ x ∈ w.docs, x.noteId = d.noteId ∧ x.content.isSome = d.content.isSome

instance (w : World ν) (d : Doc) : Decidable (w.writable d) := inferInstanceAs (Decidable (_ ∧ _))

/-- `update_in_session` with `bump_index_generation` for each of the notes. -/
def updateNotes (w : World ν) (docs : List Doc) : Option (World ν) :=
  if (∀ d ∈ docs, w.writable d) ∧ (docs.map Doc.noteId).Nodup then
    (w.exec (docs.map fun d => .bumpGeneration d.noteId)).map fun w => w.putDocs docs
  else none

def withContent (w : World ν) (x : String × String) : Option Doc :=
  (w.doc x.1).map fun d => { d with content := some x.2 }

def withTitle (w : World ν) (x : String × String) : Option Doc :=
  (w.doc x.1).map fun d => { d with title := x.2 }

/-- New bodies. -/
def editNotes (w : World ν) (items : List (String × String)) : Option (World ν) :=
  (items.mapM w.withContent).bind w.updateNotes

/-- The row is in scope, and its file is not at its path. -/
def missing (w : World ν) (noteId : String) : Prop := ∃ d ∈ w.docs, d.noteId = noteId ∧ d.content = none

instance (w : World ν) (noteId : String) : Decidable (w.missing noteId) :=
  inferInstanceAs (Decidable (∃ d ∈ w.docs, _))

def removeNotes (w : World ν) (notes : List String) : Option (World ν) :=
  if ∀ noteId ∈ notes, w.missing noteId then w.exec (notes.map .deleteNote) else none

end World

section
variable (chunkMarkdown : String → String → List Chunk) (workspace ownerId : String)

/-- The arguments of `replace_chunks` for the content. -/
def replaceArgs (noteId title content : String) : Replace ν :=
  ⟨noteId, workspace, ownerId, title, chunkMarkdown content title, none, none⟩

/-- Chunks go in for the expected generation; an `embed_note` job follows if there are any. -/
def World.index (w : World ν) (noteId title content : String) (expectedGeneration : ℕ)
    (ids : List String) (embed : Bool) : Option (World ν) :=
  (w.exec [.replaceChecked (replaceArgs chunkMarkdown workspace ownerId noteId title content) ids
    expectedGeneration]).map fun w' =>
      if embed ∧ chunkMarkdown content title ≠ [] ∧
          w.store.db.notes.any (fun n => n.id = noteId ∧ n.indexGeneration = expectedGeneration) then
        w'.enqueueEmbed noteId
      else w'

/-- The handler skips a note without a row or without a file. -/
def World.readRow (w : World ν) (k : ℕ) (noteId : String) : World ν :=
  match w.noteRow noteId, w.doc noteId with
  | some n, some d => (w.dropRunning k).start (.row noteId n.indexGeneration d.title)
  | _, _ => w.dropRunning k

def World.readFile (w : World ν) (k : ℕ) (noteId : String) (generation : ℕ) (title : String) :
    World ν :=
  match (w.doc noteId).bind (·.content) with
  | some content => (w.dropRunning k).start (.file noteId generation title content)
  | none => w.dropRunning k

def stepWorld (w : World ν) : Action ν → Option (World ν)
  | .save noteId title content =>
    (w.insertNotes [⟨noteId, title, some content⟩]).map (·.defer (.indexNote noteId title content 1))
  | .saveMany items =>
    (w.insertNotes (items.map fun x => ⟨x.1, x.2.1, some x.2.2⟩)).map
      (·.defer (.indexMany (items.map (·.1))))
  | .update noteId title content =>
    (w.noteRow noteId).bind fun n =>
      (w.updateNotes [⟨noteId, title, some content⟩]).map
        (·.defer (.indexNote noteId title content (n.indexGeneration + 1)))
  | .editMany items | .renameTag items =>
    (w.editNotes items).map (·.defer (.indexMany (items.map (·.1))))
  | .rewriteBacklinks items => (w.editNotes items).map (·.enqueue (items.map (·.1)))
  | .reconcile inserted drifted unchanged missing => do
    let w1 ← w.removeNotes missing
    let w2 ← w1.insertNotes inserted
    let w3 ← (drifted.mapM w2.withTitle).bind w2.updateNotes
    some (w3.defer (.indexMany (inserted.map Doc.noteId ++ drifted.map (·.1) ++ unchanged)))
  | .finish k ids enqueued =>
    match w.deferred[k]? with
    | none => none
    | some (.indexNote noteId title content generation) =>
      (w.dropDeferred k).index chunkMarkdown workspace ownerId noteId title content generation ids
        enqueued
    | some (.indexMany notes) =>
      some (if enqueued then (w.dropDeferred k).enqueue notes else w.dropDeferred k)
  | .abandon k => (w.deferred[k]?).map fun _ => w.dropDeferred k
  | .claim noteId =>
    if noteId ∈ w.reindex then
      some { w with reindex := w.reindex.erase noteId, running := .started noteId :: w.running }
    else none
  | .readRow k =>
    match w.running[k]? with
    | some (.started noteId) => some (w.readRow k noteId)
    | _ => none
  | .readFile k =>
    match w.running[k]? with
    | some (.row noteId generation title) => some (w.readFile k noteId generation title)
    | _ => none
  | .write k ids resolved =>
    match w.running[k]? with
    | some (.file noteId generation title content) =>
      (w.dropRunning k).index chunkMarkdown workspace ownerId noteId title content generation ids
        resolved
    | _ => none
  | .retry k => (w.running[k]?).map fun r => (w.dropRunning k).enqueue [r.noteId]
  | .embed noteId identity vectors =>
    if noteId ∈ w.embeds then
      ({ w with embeds := w.embeds.erase noteId }).exec
        [.attachVectors ⟨noteId, workspace, ownerId, identity, vectors⟩]
    else none
  | .attach k => w.exec [.run k []]
  | .retryEmbed k =>
    (w.store.calls[k]?).bind fun call => (w.exec [.abandon k]).map (·.enqueueEmbed call.noteId)

def indexing : Machine (World ν) (Action ν) where
  start w := w = World.empty
  next := stepWorld chunkMarkdown workspace ownerId

end

/-! ## the statement -/

/-- The stored chunks of the note. -/
def Db.texts (db : Db ν) (noteId : String) : List Chunk := (db.chunksOf noteId).map (·.chunk)

/-- The stored chunks are those of the file and the title. -/
def Fresh (chunkMarkdown : String → String → List Chunk) (w : World ν) (noteId : String) : Prop :=
  ∃ d ∈ w.docs, d.noteId = noteId ∧
    ∃ content ∈ d.content, (w.store.db.texts noteId).Perm (chunkMarkdown content d.title)

def HasJob (w : World ν) (noteId : String) : Prop :=
  noteId ∈ w.reindex ∨ ∃ r ∈ w.running, r.noteId = noteId

/-- No chunk, no mark, no worker that would set it. -/
def Blank (w : World ν) (noteId : String) : Prop :=
  w.store.db.texts noteId = [] ∧ (∀ n ∈ w.store.db.notes, n.id = noteId → n.indexState = .stale) ∧
    ∀ call ∈ w.store.calls, call.noteId ≠ noteId

/-- The note needs no index request. -/
def Spare (chunkMarkdown : String → String → List Chunk) (w : World ν) (noteId : String) : Prop :=
  Fresh chunkMarkdown w noteId ∨ noteId ∈ w.reindex ∨ Blank w noteId

instance (chunkMarkdown : String → String → List Chunk) (w : World ν) (noteId : String) :
    Decidable (Fresh chunkMarkdown w noteId) := inferInstanceAs (Decidable (∃ d ∈ w.docs, _ ∧ _))

instance (w : World ν) (noteId : String) : Decidable (HasJob w noteId) :=
  inferInstanceAs (Decidable (_ ∨ _))

instance (w : World ν) (noteId : String) : Decidable (Blank w noteId) :=
  inferInstanceAs (Decidable (_ ∧ _ ∧ _))

instance (chunkMarkdown : String → String → List Chunk) (w : World ν) (noteId : String) :
    Decidable (Spare chunkMarkdown w noteId) := inferInstanceAs (Decidable (_ ∨ _ ∨ _))

/-- An enqueue of `index_many` that fails, or a deferred call that is not reached, is not needed. -/
def Spared (chunkMarkdown : String → String → List Chunk) (w : World ν) : Action ν → Prop
  | .finish k _ false =>
    match w.deferred[k]? with
    | some (.indexMany notes) => ∀ noteId ∈ notes, Spare chunkMarkdown w noteId
    | _ => True
  | .abandon k =>
    match w.deferred[k]? with
    | some call => ∀ noteId ∈ call.noteIds, Spare chunkMarkdown w noteId
    | none => True
  | _ => True

instance (chunkMarkdown : String → String → List Chunk) (w : World ν) :
    (a : Action ν) → Decidable (Spared chunkMarkdown w a)
  | .finish k _ false => by
    unfold Spared
    dsimp only
    split <;> infer_instance
  | .abandon k => by
    unfold Spared
    dsimp only
    split <;> infer_instance
  | .finish _ _ true | .save .. | .saveMany _ | .update .. | .editMany _ | .renameTag _
  | .rewriteBacklinks _ | .reconcile .. | .claim _ | .readRow _ | .readFile _ | .write .. | .retry _
  | .embed .. | .attach _ | .retryEmbed _ => isTrue trivial

end
end Kajet.Chunks
