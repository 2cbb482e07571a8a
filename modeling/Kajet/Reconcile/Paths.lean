import Kajet.Lib.Table
import Kajet.Links.Affected
import Kajet.Reconcile.Scan
import Mathlib.Data.Finset.Sort

/-!
# `reconcile_paths` on the database

The scan is compared with the rows of the workspace (`plan`); the rows are then removed, inserted
and updated in one transaction (`writeRows`), and the tags and links of the present notes rebuilt in
two more (`syncNoteTagsMany`, `persistMany`).

* `Db`              the five tables;
* `Env.plan`        what is missing, new, changed; the deletion guard;
* `reconcilePaths`.
-/

namespace Kajet.Reconcile
open Str Rank Table Links

structure Note extends IndexedNote where
  workspace : String
  ownerId : String
  tags : List Text
  createdAt : String
  updatedAt : String
  occurredAt : Option String
  period : Option String
  indexGeneration : Nat
deriving DecidableEq

structure NoteTag where
  noteId : String
  tagId : String
  source : String
deriving DecidableEq

structure Tag where
  id : String
  workspace : String
  ownerId : String
  path : Text
  name : Text
  parentId : Option String
deriving DecidableEq

structure Db where
  notes : List Note
  noteTags : List NoteTag
  tags : List Tag
  links : List NoteLink
  dangling : List DanglingLink
deriving DecidableEq

inductive ReconcileError where
  /-- the commit of the adopted files failed -/
  | adoption (error : String)
  /-- the deletion would empty too much of the workspace -/
  | deletionGuard (missing total : Nat)
  /-- `IntegrityError` on the primary key of `notes` -/
  | duplicateNote (noteId : String)
deriving DecidableEq

structure ReconcileReport where
  inserted : List String
  updated : List String
  removed : List String
  unchanged : Nat
  duplicateIds : List String
  unreadablePaths : List Text
  adopted : List String
deriving DecidableEq

/-- The report, the database afterwards, and the sources to mark. -/
structure Outcome where
  db : Db
  report : ReconcileReport
  affected : Finset String

/-! ## reading -/

def Db.listPaths (db : Db) (workspace ownerId : String) : List IndexedNote :=
  (db.notes.filter fun n => n.workspace = workspace ∧ n.ownerId = ownerId).map (·.toIndexedNote)

def Db.getMany (db : Db) (noteIds : List String) (ownerId : String) : List Note :=
  db.notes.filter fun n => n.noteId ∈ noteIds ∧ n.ownerId = ownerId

def reconcileMaxDelete (missing total : Nat) : Bool := 5 ≤ missing && total < 5 * missing

/-- What has to be done, from the scan and the rows before. -/
structure Plan where
  present : List (String × PresentFile)
  missingIds : List String
  missingNotes : List Note
  inserted : List (String × PresentFile)
  updated : List (Note × PresentFile)
  unchanged : Nat
  changedTitles : List Text

def identityChanged (existing : Note) (pf : PresentFile) : Bool :=
  existing.folder ≠ pf.folder || existing.title ≠ pf.title

def drifted (existing : Note) (pf : PresentFile) : Bool :=
  let temporal := pf.fm.temporalOr existing.occurredAt existing.period
  identityChanged existing pf || existing.tags ≠ pf.tags || existing.createdAt ≠ pf.createdAt ||
    existing.updatedAt ≠ pf.updatedAt || existing.occurredAt ≠ temporal.1 ||
    existing.period ≠ temporal.2

def Env.missingIds (env : Env) (db : Db) (paths : List Text) : List String :=
  let missingScope := paths.filter (· ∉ (env.scan paths).unreadablePaths)
  let scopedRows := (db.listPaths env.workspace env.ownerId).filter fun n => notePath n ∈ missingScope
  (scopedRows.map (·.noteId)).filter (· ∉ (env.present paths).map (·.1))

def Env.plan (env : Env) (db : Db) (paths : List Text) : Except ReconcileError Plan :=
  let present := env.present paths
  let missingIds := env.missingIds db paths
  let total := (db.listPaths env.workspace env.ownerId).length
  match (env.scan paths).candidates, env.adoptionError with
  | _ :: _, some error => .error (.adoption error)
  | _, _ =>
    if reconcileMaxDelete missingIds.length total then .error (.deletionGuard missingIds.length total)
    else
      let missingNotes := db.getMany missingIds env.ownerId
      let existing := db.getMany (present.map (·.1)) env.ownerId
      let known := present.filterMap fun x => (row (·.noteId) existing x.1).map (·, x.2)
      let inserted := present.filter fun x => (row (·.noteId) existing x.1).isNone
      let updated := known.filter fun x => drifted x.1 x.2
      let moved := updated.filter fun x => identityChanged x.1 x.2
      .ok {
        present, missingIds, missingNotes, inserted, updated
        unchanged := known.length - updated.length
        changedTitles := missingNotes.map (·.title) ++ inserted.map (·.2.title) ++
          moved.flatMap fun x => [x.1.title, x.2.title] }

def Env.affected (env : Env) (db : Db) (p : Plan) : Finset String :=
  (backlinksMany db.links
      (targetIdsForTitles (db.listPaths env.workspace env.ownerId) p.changedTitles) env.workspace ∪
    sourcesForTitles db.dangling env.ownerId env.workspace p.changedTitles) \
      (p.present.map (·.1) ++ p.missingIds).toFinset

/-! ## the rows of the notes -/

/-- `NoteTeardown.note_in_session` -/
def noteInSession (db : Db) (n : Note) : Db where
  notes := deleteWhere (fun m => m.noteId = n.noteId ∧ m.ownerId = n.ownerId) db.notes
  noteTags := deleteWhere (fun t => t.noteId = n.noteId) db.noteTags
  tags := db.tags
  links := deleteWhere (fun l => l.targetNoteId = n.noteId)
    (deleteWhere (fun l => l.sourceNoteId = n.noteId) db.links)
  dangling := deleteWhere (fun d => d.sourceNoteId = n.noteId) db.dangling

/-- One pass of `sweep_orphan_tags_in_session`: the tags without notes and without children. -/
def sweepPass (workspace ownerId : String) (noteTags : List NoteTag) (tags : List Tag) : List Tag :=
  let own := tags.filter fun t => t.workspace = workspace ∧ t.ownerId = ownerId
  let referenced := noteTags.map (·.tagId)
  let parents := own.filterMap (·.parentId)
  deleteWhere (fun t => t.workspace = workspace ∧ t.ownerId = ownerId ∧ t.id ∉ referenced ∧
    t.id ∉ parents) tags

/-- The sweep: a pass that deletes nothing is the last one, so as many passes as there are tags are
enough. -/
def sweepOrphanTags (workspace ownerId : String) (db : Db) : Db :=
  { db with tags := (sweepPass workspace ownerId db.noteTags)^[db.tags.length] db.tags }

def Env.newNote (env : Env) (x : String × PresentFile) : Note where
  noteId := x.1
  folder := x.2.folder
  title := x.2.title
  workspace := env.workspace
  ownerId := env.ownerId
  tags := x.2.tags
  createdAt := x.2.createdAt
  updatedAt := x.2.updatedAt
  occurredAt := x.2.fm.occurredAt
  period := x.2.fm.period
  indexGeneration := 1

def insertInSession (db : Db) (n : Note) : Except ReconcileError Db :=
  if n.noteId ∈ db.notes.map (·.noteId) then .error (.duplicateNote n.noteId)
  else .ok { db with notes := db.notes ++ [n] }

/-- `update_in_session`; `existing` is the row that was read. -/
def Env.updateInSession (env : Env) (db : Db) (x : Note × PresentFile) : Db :=
  let temporal := x.2.fm.temporalOr x.1.occurredAt x.1.period
  { db with
    notes := updateWhere (fun n => n.noteId = x.1.noteId ∧ n.ownerId = env.ownerId)
      (fun n => { n with
        folder := x.2.folder, title := x.2.title, tags := x.2.tags
        createdAt := x.2.createdAt, updatedAt := x.2.updatedAt
        occurredAt := temporal.1, period := temporal.2
        indexGeneration := n.indexGeneration + 1 }) db.notes }

def Env.removeMissing (env : Env) (db : Db) (missingNotes : List Note) : Db :=
  if missingNotes = [] then db
  else sweepOrphanTags env.workspace env.ownerId (missingNotes.foldl noteInSession db)

/-- The first transaction. -/
def Env.writeRows (env : Env) (db : Db) (p : Plan) : Except ReconcileError Db := do
  let db ← (p.inserted.map env.newNote).foldlM insertInSession (env.removeMissing db p.missingNotes)
  return p.updated.foldl env.updateInSession db

/-! ## the tags and the links -/

/-- `"a/b/c"` gives `["a", "a/b", "a/b/c"]`. -/
def ancestors (path : Text) : List Text :=
  let segs := pathSegments path
  (List.range segs.length).map fun i => join '/' (segs.take (i + 1))

/-- One step of `_ensure_tag`: the tags and the id of the last ancestor. -/
def Env.ensureAncestor (env : Env) (s : List Tag × Option String) (path : Text) :
    List Tag × Option String :=
  match s.1.find? fun t => t.workspace = env.workspace ∧ t.ownerId = env.ownerId ∧ t.path = path with
  | some t => (s.1, some t.id)
  | none => (s.1 ++ [⟨env.newTagId path, env.workspace, env.ownerId, path,
      (rpartition '/' path).2, s.2⟩], some (env.newTagId path))

/-- `_ensure_tag` -/
def Env.ensureTag (env : Env) (tags : List Tag) (path : Text) : List Tag × String :=
  let s := (ancestors path).foldl env.ensureAncestor (tags, none)
  (s.1, s.2.getD "")

def Env.addNoteTag (env : Env) (noteId : String) (db : Db) (x : Text × String) : Db :=
  let ensured := env.ensureTag db.tags x.1
  { db with tags := ensured.1, noteTags := db.noteTags ++ [⟨noteId, ensured.2, x.2⟩] }

/-- `sync_note_tags_many` -/
def Env.syncNoteTagsMany (env : Env) (db : Db) (tagged : List (String × List (Text × String))) : Db :=
  if tagged = [] then db else
    let cleared := { db with
      noteTags := deleteWhere (fun t => t.noteId ∈ tagged.map (·.1)) db.noteTags }
    sweepOrphanTags env.workspace env.ownerId
      (tagged.foldl (fun db x => x.2.foldl (env.addNoteTag x.1) db) cleared)

/-- The rows of one source are replaced. -/
def Env.replaceSource (env : Env) (db : Db) (x : String × LinkResolution) : Db :=
  let dangling := x.2.brokenPairs.map fun p =>
    (⟨env.workspace, env.ownerId, x.1, p.1, p.2⟩ : DanglingLink)
  { db with
    links := replaceLinks db.links x.1 env.workspace env.ownerId x.2.resolvedIds
    dangling := deleteWhere (fun d => d.sourceNoteId = x.1) db.dangling ++ dangling }

def Env.persistMany (env : Env) (db : Db) (resolutions : List (String × LinkResolution)) : Db :=
  resolutions.foldl env.replaceSource db

def Env.resolve (env : Env) (db : Db) (pf : PresentFile) : LinkResolution :=
  resolveLinks env.casefold env.extractWikilinks (db.listPaths env.workspace env.ownerId)
    ((db.notes.filter fun n => n.ownerId = env.ownerId).map (·.noteId)) pf.content pf.folder

def Env.reconcilePaths (env : Env) (db : Db) (paths : List Text) : Except ReconcileError Outcome := do
  let p ← env.plan db paths
  let rows ← env.writeRows db p
  let tagged := p.present.map fun x => (x.1, env.tagged x.2.tags x.2.content)
  let resolutions := p.present.map fun x => (x.1, env.resolve rows x.2)
  return {
    db := env.persistMany (env.syncNoteTagsMany rows tagged) resolutions
    affected := env.affected db p
    report := {
      inserted := p.inserted.map (·.1)
      updated := p.updated.map (·.1.noteId)
      removed := sortedSet p.missingIds
      unchanged := p.unchanged
      duplicateIds := (env.scan paths).duplicateIds
      unreadablePaths := (env.scan paths).unreadablePaths
      adopted := (List.range (env.scan paths).candidates.length).map env.newNoteId } }

end Kajet.Reconcile
