import Kajet.Dates.Edit
import Kajet.Lib.Machine

/-!
# The workspace of dated notes

* `Draft`, `save`, `saveMany`   new notes;
* `Edit`, `prepare`             the calls that read and write notes, up to the commit;
* `Op`, `run`, `workspace`      all of them, with reconciles and hand edits of the files.
-/

namespace Kajet.Dates
open Str Rank Table Links Frontmatter Reindex

variable (v : Services) (s : State)

/-! ## new notes -/

structure NewNote where
  title : Text
  content : Text
  tags : List Text
  folder : Text
  occurredAt : Yaml
  period : Yaml

/-- `_NoteDraft` -/
structure Draft where
  row : Note
  fm : NoteFrontmatter
  content : Text

/-- `_NoteDraft.build` -/
def Services.draft (now : Text) (noteId : String) (new : NewNote) : Except Refusal Draft := do
  let folder ← (match normalizeFolder new.folder with
    | some folder => .ok folder
    | none => .error .invalidFolder : Except Refusal Text)
  let dates ← (normalizeTemporal new.occurredAt new.period).mapError .temporal
  let tags := v.tagsOf new.tags
  let temporal ← (Temporal.make dates.1 dates.2 false false).mapError .temporal
  let row : Note := {
    noteId := noteId, title := new.title, folder := folder, workspace := v.workspace, ownerId := v.ownerId
    tags := tags, createdAt := now, updatedAt := now, occurredAt := dates.1, period := dates.2 }
  let fm : NoteFrontmatter := {
    id := .str noteId.toList, title := .str new.title, tags := tags.map .str
    createdAt := .str now, updatedAt := .str now, temporal := temporal }
  return ⟨row, fm, new.content⟩

/-- `_write`: the rows are inserted, the files written. -/
def insertAll (drafts : List Draft) : Except Refusal State :=
  ((drafts.foldlM (fun (t : Notes) d => t.insert d.row) s.notes).mapError .failed).map fun notes => {
    notes := notes
    files := drafts.foldl (fun files d => files.put (pathOf d.row) (.post d.fm.written d.content)) s.files }

def Services.save (now : Text) (noteId : String) (new : NewNote) (linked : Bool) : Except Refusal State := do
  let draft ← v.draft now noteId new
  let _ ← refuse (v.pathConflict s draft.row || fileExists s draft.row) (.pathTaken noteId)
  let _ ← refuse (!linked) .rejected
  insertAll s [draft]

/-- `_admit_batch_item` over the batch: the admitted drafts. -/
def Services.admit (now : Text) : List Draft → List (String × NewNote) → List Draft
  | accepted, [] => accepted
  | accepted, (noteId, new) :: items =>
    match v.draft now noteId { new with title := strip new.title } with
    | .error _ => Services.admit now accepted items
    | .ok draft =>
      if draft.row.title = [] || v.pathConflict s draft.row || fileExists s draft.row ||
          accepted.any fun d => v.pathKey (pathOf d.row) = v.pathKey (pathOf draft.row) ||
            (d.row.folder = draft.row.folder && d.row.title = draft.row.title) then
        Services.admit now accepted items
      else Services.admit now (accepted ++ [draft]) items

def Services.saveMany (now : Text) (items : List (String × NewNote)) (linked : Draft → Bool) : Except Refusal State :=
  insertAll s (( v.admit s now [] items).filter linked)

/-! ## edits -/

inductive Edit where
  | update (a : UpdateArgs)
  | editMany (items : List EditItem) (now : Text)
  | changeTags (noteId : String) (change : TagChange) (now : Text)
  | renameTag (noteIds : List String) (old new now : Text)
  | rewriteBacklinks (noteIds : List String) (rewrite : Note → Text → Option Text)
  | backfill (items : List BackfillItem)

/-- `get_many` -/
def Services.getMany (noteIds : List String) : List Note :=
  s.notes.rows.filter fun n => n.noteId ∈ noteIds && n.ownerId = v.ownerId

/-- The notes that the call writes. -/
def Services.prepare : Edit → Except Refusal (List Prepared)
  | .update a => (v.prepareUpdate s a).map ([·])
  | .editMany items now => do
    let _ ← refuse items.isEmpty .rejected
    let ps ← v.prepareEdits s now [] items
    let _ ← refuse (ps.any (·.isNone)) .rejected
    return ps.filterMap id
  | .changeTags noteId change now => (v.prepareTags s now noteId change).map (·.toList)
  | .renameTag noteIds old new now =>
    ((v.getMany s noteIds).mapM (v.prepareRenameTag s now old new)).map (·.filterMap id)
  | .rewriteBacklinks noteIds rewrite =>
    ((v.getMany s noteIds).mapM (prepareBacklink s rewrite)).map (·.filterMap id)
  | .backfill items => do
    let _ ← refuse (items.isEmpty || items.any (·.noteId = "") || !(items.map (·.noteId)).Nodup) .rejected
    items.mapM (v.prepareBackfill s)

def Services.move (noteId : String) (folder : Text) : Except Refusal State := do
  let note ← v.get s noteId
  let folder ← (match normalizeFolder folder with
    | some folder => .ok folder
    | none => .error .invalidFolder : Except Refusal Text)
  if folder = note.folder then return s
  else
    let row := { note with folder := folder }
    match s.files.read (pathOf note) with
    | none => .error (.fileNotFound noteId)
    | some document =>
      if v.pathConflict s row || (pathOf row ≠ pathOf note && fileExists s row) then .error (.pathTaken noteId)
      else return { notes := s.notes.update row, files := (s.files.remove (pathOf note)).put (pathOf row) document }

/-! ## the machine -/

inductive Op where
  | save (noteId : String) (new : NewNote) (linked : Bool) (now : Text)
  | saveMany (items : List (String × NewNote)) (linked : Draft → Bool) (now : Text)
  | edit (e : Edit)
  | move (noteId : String) (folder : Text)
  | reconcilePaths (paths : List Text)
  /-- the files by hand -/
  | handEdit (files : Files)

def Services.run : Op → Except Refusal State
  | .save noteId new linked now => v.save s now noteId new linked
  | .saveMany items linked now => v.saveMany s now items linked
  | .edit e => (v.prepare s e).map (writeAll s)
  | .move noteId folder => v.move s noteId folder
  | .reconcilePaths paths => ((v.reconcilePaths s paths).mapError .failed).map (·.1)
  | .handEdit files => .ok { s with files := files }

theorem nothing_stored : UniqueOn (fun n : Note => some n.noteId) [] := .nil

def State.empty : State := ⟨⟨[], nothing_stored⟩, []⟩

/-- A call that raises leaves the state as it was. -/
def workspace (v : Services) : Machine State Op where
  start s := s = State.empty
  next s op := (v.run s op).toOption

end Kajet.Dates
