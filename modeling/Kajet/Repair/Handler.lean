import Kajet.Lib.Machine
import Kajet.Links.Dirty
import Kajet.Links.Index
import Mathlib.Data.Finset.Filter

/-!
# The link repair and the foreground writes

One workspace: its note rows and files, the stored links of every source, the dirty markers; one
foreground write at a time (commit, then its own links, then its marks) and one run of
`ReconcileLinksHandler`, interleaved.

* `Site`          what does not change: the owner's other notes, `casefold`, the Markdown parser;
* `World.commit`  the four kinds of writes, as what their transaction leaves (`Commit`);
* `World.load`, `World.persist`, `World.verify`   the steps of a pass of the handler;
* `repair`        the machine.
-/

namespace Kajet.Repair
open Str Table Links Machine

structure Site where
  ownerId : String
  workspace : String
  /-- the ids of the owner's notes in other workspaces -/
  elsewhere : List String
  casefold : Text → Text
  extractWikilinks : Text → List Text

def Site.key (site : Site) (s : String) : MarkerKey := ⟨site.ownerId, site.workspace, s⟩

structure NoteRow extends IndexedNote where
  updatedAt : String
deriving DecidableEq

def paths (notes : List NoteRow) : List IndexedNote := notes.map (·.toIndexedNote)

/-- The stored rows of a source in `note_links` and `dangling_links`. -/
structure Rows where
  targets : Finset String
  dangling : List (Text × Text)
deriving DecidableEq

def Rows.empty : Rows := ⟨∅, []⟩

/-- The rows that `snapshot.resolve` gives while the workspace holds `notes`: the path links come
from the snapshot, the `[[note:ID]]` links from the database. -/
def Site.rowsAt (site : Site) (snapshot : List IndexedNote) (notes : List NoteRow)
    (content folder : Text) : Rows :=
  let r := resolveLinks site.casefold site.extractWikilinks snapshot
    (notes.map (·.noteId) ++ site.elsewhere) content folder
  ⟨r.resolvedIds, r.brokenPairs⟩

/-- The rows that a source should have. -/
def Site.rows (site : Site) (notes : List NoteRow) (content folder : Text) : Rows :=
  site.rowsAt (paths notes) notes content folder

/-! ## the state -/

/-- `_SourceState`; its path is a function of the row. -/
structure SourceState where
  note : Option NoteRow
  content : Option Text
deriving DecidableEq

def SourceState.revision (st : SourceState) : Option (Text × Text × String × Option Text) :=
  st.note.map fun n => (n.folder, n.title, n.updatedAt, st.content)

/-- Where the foreground write is. -/
inductive Writer where
  | free
  | committed (own : List (String × Rows)) (marks : List String)
  | persisted (marks : List String)

/-- The locals of the handler in its loop; `passes` counts the present pass. -/
structure Pass where
  generations : List (String × Nat)
  snapshot : List IndexedNote
  pending : List String
  states : String → SourceState
  passes : Nat
  acknowledged : List (String × Nat)

/-- Where the handler's run is. -/
inductive Phase where
  | waiting
  | listed (generations : List (String × Nat)) (sources : List String)
  | indexed (generations : List (String × Nat)) (sources : List String) (snapshot : List IndexedNote)
  | loaded (p : Pass)
  | persisted (p : Pass)
  | leftover (p : Pass)
  | finishing (generations acknowledged : List (String × Nat))
  | done

structure World where
  notes : List NoteRow
  /-- the body of a note's file, if the file is there -/
  file : String → Option Text
  stored : String → Rows
  dirty : List Marker
  writer : Writer
  handler : Phase

/-! ## the foreground writes -/

/-- A note's new row and body. -/
abbrev Draft := NoteRow × Text

inductive Write where
  /-- `saw` is the snapshot that the links are resolved against. -/
  | create (saw : List IndexedNote) (drafts : List Draft) (affected : List String)
  | update (items : List Draft) (affected : List String)
  | move (folders : List (String × Text)) (affected : List String)
  | delete (noteIds : List String) (affected : List String)

/-- What the write's transaction leaves, and what the write does afterwards. -/
structure Commit where
  notes : List NoteRow
  file : String → Option Text
  stored : String → Rows
  own : List (String × Rows)
  marks : List String

/-- The bodies of the drafts, written to their files. -/
def writeFiles (drafts : List Draft) (file : String → Option Text) (s : String) : Option Text :=
  ((drafts.find? fun d => d.1.noteId = s).map (·.2)).or (file s)

def World.create (w : World) (site : Site) (saw : List IndexedNote) (drafts : List Draft)
    (affected : List String) : Option Commit :=
  let ids := drafts.map (·.1.noteId)
  if ids.Nodup ∧ ∀ i ∈ ids, i ≠ "" ∧ i ∉ w.notes.map (·.noteId) ∧ i ∉ site.elsewhere then
    some {
      notes := w.notes ++ drafts.map (·.1)
      file := writeFiles drafts w.file
      stored := w.stored
      own := drafts.map fun d => (d.1.noteId, site.rowsAt saw w.notes d.2 d.1.folder)
      marks := affected }
  else none

/-- `update` has one item and may change the note's identity, `edit_many` has several. -/
def World.update (w : World) (site : Site) (items : List Draft) (affected : List String) :
    Option Commit :=
  let ids := items.map (·.1.noteId)
  if ids.Nodup ∧ ∀ i ∈ ids, i ∈ w.notes.map (·.noteId) ∧ (w.file i).isSome then
    let row := fun n : NoteRow => ((items.find? fun d => d.1.noteId = n.noteId).map (·.1)).getD n
    let identityChanged := w.notes.filter fun n => n.title ≠ (row n).title ∨ n.folder ≠ (row n).folder
    some {
      notes := w.notes.map row
      file := writeFiles items w.file
      stored := w.stored
      own := items.map fun d => (d.1.noteId, site.rows w.notes d.2 d.1.folder)
      marks := identityChanged.map (·.noteId) ++ affected }
  else none

/-- `move` has one folder, `move_folder` one for every note under the folder. -/
def World.move (w : World) (folders : List (String × Text)) (affected : List String) :
    Option Commit :=
  if ∀ x ∈ folders, x.1 ∈ w.notes.map (·.noteId) then
    some {
      notes := w.notes.map fun n => { n with folder := (folders.lookup n.noteId).getD n.folder }
      file := w.file
      stored := w.stored
      own := []
      marks := folders.map (·.1) ++ affected }
  else none

/-- The teardown deletes the links from and to the notes and their dangling rows. -/
def World.delete (w : World) (noteIds affected : List String) : Option Commit :=
  if ∀ i ∈ noteIds, i ∈ w.notes.map (·.noteId) then
    some {
      notes := deleteWhere (fun n => n.noteId ∈ noteIds) w.notes
      file := fun s => if s ∈ noteIds then none else w.file s
      stored := fun s => if s ∈ noteIds then .empty else
        { w.stored s with targets := (w.stored s).targets.filter (· ∉ noteIds) }
      own := []
      marks := affected.filter (· ∉ noteIds) }
  else none

def World.commit (w : World) (site : Site) : Write → Option Commit
  | .create saw drafts affected => w.create site saw drafts affected
  | .update items affected => w.update site items affected
  | .move folders affected => w.move folders affected
  | .delete noteIds affected => w.delete noteIds affected

/-- `mark_and_enqueue`: its markers. -/
def World.markSources (w : World) (site : Site) (sources : List String) : List Marker :=
  markAll w.dirty (markKeys site.ownerId site.workspace sources)

/-! ## the handler -/

def maxStabilityPasses : Nat := 3

def World.loadState (w : World) (s : String) : SourceState :=
  match w.notes.find? fun n => n.noteId = s with
  | none => ⟨none, none⟩
  | some n => ⟨some n, w.file s⟩

/-- `_persist_states`: a source without a row or a file loses its rows. -/
def World.persist (w : World) (site : Site) (p : Pass) (s : String) : Rows :=
  if s ∈ p.pending then
    match p.states s with
    | ⟨some n, some content⟩ => site.rowsAt p.snapshot w.notes content n.folder
    | _ => .empty
  else w.stored s

/-- The re-read at the end of a pass, and what the loop does next. -/
def World.verify (w : World) (p : Pass) : Phase :=
  let changed := p.pending.filter fun s => (w.loadState s).revision ≠ (p.states s).revision
  let stable := p.generations.filter fun x => x.1 ∈ p.pending ∧ x.1 ∉ changed
  let p' := { p with
    pending := changed, states := w.loadState, acknowledged := p.acknowledged ++ stable }
  if changed = [] then .finishing p.generations p'.acknowledged
  else if p.passes < maxStabilityPasses then .loaded { p' with passes := p.passes + 1 }
  else .leftover p'

inductive Op where
  | commit (write : Write)
  | persistOwn
  | mark
  /-- `extra` are sources with dangling rows, which a job without the targeted mode adds. -/
  | listDirty (extra : List String)
  | snapshot
  | load
  | persist
  | verify
  | requeue
  | acknowledge

def World.step (site : Site) (w : World) : Op → Option World
  | .commit write =>
    match w.writer with
    | .free => (w.commit site write).map fun c =>
      { w with notes := c.notes, file := c.file, stored := c.stored, writer := .committed c.own c.marks }
    | _ => none
  | .persistOwn =>
    match w.writer with
    | .committed own marks =>
      some { w with stored := fun s => (own.lookup s).getD (w.stored s), writer := .persisted marks }
    | _ => none
  | .mark =>
    match w.writer with
    | .persisted marks => some { w with dirty := w.markSources site marks, writer := .free }
    | _ => none
  | .listDirty extra =>
    match w.handler with
    | .waiting =>
      if ∀ s ∈ extra, (w.stored s).dangling ≠ [] then
        let generations := listDirty w.dirty site.ownerId site.workspace
        let sources := generations.map (·.1) ++ extra
        some { w with handler := if sources = [] then .done else .listed generations sources }
      else none
    | _ => none
  | .snapshot =>
    match w.handler with
    | .listed generations sources =>
      some { w with handler := .indexed generations sources (paths w.notes) }
    | _ => none
  | .load =>
    match w.handler with
    | .indexed generations sources snapshot =>
      some { w with handler := .loaded ⟨generations, snapshot, sources, w.loadState, 1, []⟩ }
    | _ => none
  | .persist =>
    match w.handler with
    | .loaded p => some { w with stored := w.persist site p, handler := .persisted p }
    | _ => none
  | .verify =>
    match w.handler with
    | .persisted p => some { w with handler := w.verify p }
    | _ => none
  | .requeue =>
    match w.handler with
    | .leftover p => some { w with
        dirty := w.markSources site p.pending
        handler := .finishing p.generations p.acknowledged }
    | _ => none
  | .acknowledge =>
    match w.handler with
    | .finishing _ acknowledged => some { w with
        dirty := Links.acknowledge w.dirty site.ownerId site.workspace acknowledged
        handler := .done }
    | _ => none

/-- The sources whose stored rows are not the resolution of their body have a marker. -/
def Converged (site : Site) (w : World) : Prop :=
  ∀ n ∈ w.notes, ∀ content ∈ w.file n.noteId,
    w.stored n.noteId = site.rows w.notes content n.folder ∨
      (gen w.dirty (site.key n.noteId)).isSome

/-- Ids are not empty and unique among the owner's notes. -/
structure IdsOk (site : Site) (notes : List NoteRow) : Prop where
  keyed : Keyed (fun n : NoteRow => n.noteId) notes
  ne : ∀ n ∈ notes, n.noteId ≠ ""
  here : ∀ n ∈ notes, n.noteId ∉ site.elsewhere

/-- Nobody is at work, and the graph has converged. -/
structure Start (site : Site) (w : World) : Prop where
  ids : IdsOk site w.notes
  markers : Keyed Marker.key w.dirty
  writer : w.writer = .free
  handler : w.handler = .waiting
  converged : Converged site w

def repair (site : Site) : Machine World Op where
  start := Start site
  next := World.step site

end Kajet.Repair
