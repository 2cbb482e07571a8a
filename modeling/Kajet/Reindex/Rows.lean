import Kajet.Lib.Table
import Kajet.Reindex.Scan

/-!
# Reconciling the rows with the scan

`reconcilePaths` compares the present files with the rows of the workspace and removes, inserts and
updates rows in one transaction; `reindex` does it for every path on the disk and in the rows.  The
tags, links and chunks that are derived afterwards do not come back into the rows; they are left out.

* `Notes`              the table, with its primary key;
* `Env.plan`           what is missing, new, changed; the deletion guard;
* `reconcilePaths`, `reindex`.
-/

namespace Kajet.Reindex
open Str Rank Table Links Frontmatter

structure Note extends IndexedNote where
  workspace : String
  ownerId : String
  tags : List Text
  createdAt : Text
  updatedAt : Text
  occurredAt : Option Text
  period : Option Text
deriving DecidableEq

structure Notes where
  rows : List Note
  ids : Keyed (fun n : Note => n.noteId) rows

namespace Notes

def insert (t : Notes) (n : Note) : Except ReindexError Notes :=
  if h : ∀ x ∈ t.rows, x.noteId ≠ n.noteId then .ok ⟨t.rows ++ [n], t.ids.append h⟩
  else .error (.duplicateNote n.noteId)

def delete (t : Notes) (p : Note → Bool) : Notes := ⟨deleteWhere p t.rows, t.ids.deleteWhere⟩

/-- The row of an id gets the fields of `new`; its workspace and owner stay. -/
def update (t : Notes) (new : Note) : Notes :=
  ⟨updateWhere (fun n => n.noteId = new.noteId) (fun n => { new with
      noteId := n.noteId, workspace := n.workspace, ownerId := n.ownerId }) t.rows,
    t.ids.updateWhere fun _ => rfl⟩

end Notes

structure State where
  notes : Notes
  files : Files

structure ReconcileReport where
  inserted : List Key
  updated : List Key
  removed : List String
  unchanged : Nat
  duplicateIds : List Key
  unreadablePaths : List Text
  adopted : List String
deriving DecidableEq

/-! ## comparing -/

section
variable (env : Env)

/-- `list_paths` -/
def Env.indexed (t : Notes) : List Note :=
  t.rows.filter fun n => n.workspace = env.workspace ∧ n.ownerId = env.ownerId

/-- `existing_by_id.get(note_id)`: the ids of the rows are strings. -/
def Env.existing (t : Notes) (pf : PresentFile) : Option Note :=
  t.rows.find? fun n => .str n.noteId.toList = pf.id.key.getD .null ∧ n.ownerId = env.ownerId

def identityChanged (existing : Note) (pf : PresentFile) : Bool :=
  existing.folder ≠ pf.folder || pf.title.asStr ≠ some existing.title

def drifted (existing : Note) (pf : PresentFile) : Bool :=
  let temporal := pf.temporal.temporalOr existing.occurredAt existing.period
  identityChanged existing pf || existing.tags ≠ pf.tags || existing.createdAt ≠ pf.createdAt ||
    existing.updatedAt ≠ pf.updatedAt || existing.occurredAt ≠ temporal.1 ||
    existing.period ≠ temporal.2

def Env.missing (t : Notes) (paths unreadable : List Text) (present : List (Key × PresentFile)) :
    List Note :=
  ((env.indexed t).filter fun n => notePath n.toIndexedNote ∈ paths ∧
    notePath n.toIndexedNote ∉ unreadable).filter fun n =>
      .str n.noteId.toList ∉ present.map (·.1)

def reconcileMaxDelete (missing total : Nat) : Bool := 5 ≤ missing && total < 5 * missing

/-- A new title joins a `set`, which is then a parameter of a query. -/
def Env.checkTitle (pf : PresentFile) : Except ReindexError Unit :=
  if pf.title.key = none then .error (.unhashable pf.relative)
  else if env.stored pf.title = none then .error (.notStored pf.relative)
  else .ok ()

inductive Change where
  | inserted
  | updated (existing : Note)
  | unchanged

/-- What becomes of a present file. -/
def Env.change (t : Notes) (pf : PresentFile) : Except ReindexError Change :=
  match env.existing t pf with
  | none => (env.checkTitle pf).map fun _ => .inserted
  | some existing =>
    if identityChanged existing pf then (env.checkTitle pf).map fun _ => .updated existing
    else if drifted existing pf then .ok (.updated existing)
    else .ok .unchanged

/-- `get_many` takes the ids as parameters. -/
def Env.checkIds (present : List (Key × PresentFile)) : Except ReindexError Unit :=
  match present.find? fun x => env.stored x.2.id = none with
  | some x => .error (.notStored x.2.relative)
  | none => .ok ()

/-! ## writing -/

/-- `new_note_row` -/
def Env.newNote (pf : PresentFile) (noteId title : Text) : Note where
  noteId := String.ofList noteId
  folder := pf.folder
  title := title
  workspace := env.workspace
  ownerId := env.ownerId
  tags := pf.tags
  createdAt := pf.createdAt
  updatedAt := pf.updatedAt
  occurredAt := pf.temporal.occurredAt
  period := pf.temporal.period

/-- `update_in_session` -/
def driftedNote (existing : Note) (pf : PresentFile) (title : Text) : Note :=
  let temporal := pf.temporal.temporalOr existing.occurredAt existing.period
  { existing with
    folder := pf.folder, title := title, tags := pf.tags
    createdAt := pf.createdAt, updatedAt := pf.updatedAt
    occurredAt := temporal.1, period := temporal.2 }

/-- The inserts of the transaction. -/
def Env.insertFile (t : Notes) (x : PresentFile × Change) : Except ReindexError Notes :=
  match x.2, env.stored x.1.id, env.stored x.1.title with
  | .inserted, some noteId, some title => t.insert (env.newNote x.1 noteId title)
  | .inserted, _, _ => .error (.notStored x.1.relative)
  | _, _, _ => .ok t

/-- The updates. -/
def Env.updateFile (t : Notes) (x : PresentFile × Change) : Except ReindexError Notes :=
  match x.2, env.stored x.1.title with
  | .updated existing, some title => .ok (t.update (driftedNote existing x.1 title))
  | .updated _, none => .error (.notStored x.1.relative)
  | _, _ => .ok t

def Env.writeRows (t : Notes) (missing : List Note) (changes : List (PresentFile × Change)) :
    Except ReindexError Notes := do
  let t ← changes.foldlM env.insertFile (t.delete fun n => n.noteId ∈ missing.map (·.noteId))
  changes.foldlM env.updateFile t

def reported (p : Change → Bool) (present : List (Key × PresentFile)) (changes : List (PresentFile × Change)) :
    List Key :=
  ((present.zip changes).filter fun x => p x.2.2).map (·.1.1)

def Change.isInserted : Change → Bool
  | .inserted => true
  | _ => false

def Change.isUpdated : Change → Bool
  | .updated _ => true
  | _ => false

def Env.reconcilePaths (s : State) (paths : List Text) : Except ReindexError (State × ReconcileReport) := do
  let scan ← env.scan s.files paths
  let (files, present) ← env.adopt s.files scan
  let missing := env.missing s.notes paths scan.unreadablePaths present
  let total := (env.indexed s.notes).length
  let _ ← (if reconcileMaxDelete missing.length total then
      .error (.deletionGuard missing.length total) else .ok () : Except ReindexError Unit)
  let _ ← env.checkIds present
  let changes ← present.mapM fun x => (env.change s.notes x.2).map (x.2, ·)
  let notes ← env.writeRows s.notes missing changes
  return (⟨notes, files⟩, {
    inserted := reported (·.isInserted) present changes
    updated := reported (·.isUpdated) present changes
    removed := sortedSet (missing.map (·.noteId))
    unchanged := (changes.filter fun x => !x.2.isInserted && !x.2.isUpdated).length
    duplicateIds := scan.duplicateIds
    unreadablePaths := scan.unreadablePaths
    adopted := scan.candidates.map fun c => env.newNoteId c.relative })

/-- Every path that is on the disk or that a row claims. -/
def Env.reindexPaths (s : State) : List Text :=
  s.files.map (·.path) ++ (env.indexed s.notes).map fun n => notePath n.toIndexedNote

def Env.reindex (s : State) : Except ReindexError (State × ReconcileReport) :=
  env.reconcilePaths s (env.reindexPaths s)

end
end Kajet.Reindex
