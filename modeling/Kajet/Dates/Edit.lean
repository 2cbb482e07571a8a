import Kajet.Reindex.Rows
import Kajet.Tags.Table

/-!
# Reading a note, changing it, writing it back

Every edit reads the row and the file of a note and writes both.  Which dates it writes is decided in
each of them: given ones, the file's own, or the file's filled up from the row (`temporalOr`).

* `DateArgs`, `resolve`      the dates of a call;
* `Prepared`                 a note that was read, and what is to be written;
* `prepareUpdate`, `prepareEdit`, `prepareTags`, `prepareRenameTag`, `prepareBacklink`,
  `prepareBackfill`          the edits, up to the commit;
* `State.write`              the commit of one.
-/

namespace Kajet.Dates
open Str Rank Links Frontmatter Reindex

/-- What a caller gets instead of a write. -/
inductive Refusal where
  | noteNotFound (noteId : String)
  | fileNotFound (noteId : String)
  | unreadable (noteId : String)
  | stale (noteId : String)
  | invalidFolder
  | pathTaken (noteId : String)
  /-- the body edit, the links or an item of the batch was rejected -/
  | rejected
  | temporal (e : TemporalError)
  /-- a tag of the file that is no text, a generated id that is taken, or a reconcile that failed -/
  | failed (e : ReindexError)
deriving DecidableEq

structure Services extends Env where
  /-- `path_conflict_key` -/
  pathKey : Text → Text
  /-- `rewrite_inline_tags` -/
  rewriteInlineTags : Text → (Text → Option Text) → Text
  /-- `_TEMPORAL_TOKEN.findall` -/
  temporalTokens : Text → List Text
  /-- `_folder_conflicts_with_period` -/
  folderConflicts : Text → Text → Bool

def refuse (p : Bool) (e : Refusal) : Except Refusal Unit := if p then .error e else .ok ()

/-! ## dates of a call -/

/-- `none` is an argument that was not given. -/
structure DateArgs where
  occurredAt : Option Yaml
  period : Option Yaml
  clear : Bool

/-- No date was given. -/
def DateArgs.unchanged (d : DateArgs) : Bool := !d.clear && d.occurredAt.isNone && d.period.isNone

/-- `resolve_temporal_fields` -/
def DateArgs.resolve (d : DateArgs) (fallback : Option Text × Option Text) :
    Except TemporalError (Option Text × Option Text) :=
  if d.clear && (d.occurredAt.isSome || d.period.isSome) then .error .clear
  else if d.clear then .ok (none, none)
  else match d.occurredAt, d.period with
  | some occurredAt, some period => normalizeTemporal occurredAt period
  | some occurredAt, none => normalizeTemporal occurredAt .null
  | none, some period => normalizeTemporal .null period
  | none, none => .ok fallback

/-- The dates of a frontmatter are replaced; `__post_init__` checks them. -/
def replaced (t : Temporal) (dates : Option Text × Option Text) : Except Refusal Temporal :=
  (Temporal.make dates.1 dates.2 t.occurredAtDropped t.periodDropped).mapError .temporal

/-! ## a note that was read -/

structure Prepared where
  note : Note
  /-- the frontmatter as it was read -/
  found : NoteFrontmatter
  /-- what is written: the row, the file's frontmatter and its body -/
  row : Note
  fm : NoteFrontmatter
  content : Text

/-- The dates of the file, and the row's where the file's did not parse. -/
def Prepared.merged (p : Prepared) : Option Text × Option Text :=
  p.found.temporal.temporalOr p.note.occurredAt p.note.period

def pathOf (n : Note) : Text := notePath n.toIndexedNote

variable (v : Services) (s : State)

/-- `crud_repo.get` -/
def Services.get (noteId : String) : Except Refusal Note :=
  match s.notes.rows.find? fun n => n.noteId = noteId && n.ownerId = v.ownerId with
  | some n => .ok n
  | none => .error (.noteNotFound noteId)

/-- `read_note_file_raw` -/
def readNoteFile (n : Note) : Except Refusal (NoteFrontmatter × Text) :=
  match s.files.read (pathOf n) with
  | none => .error (.fileNotFound n.noteId)
  | some .unreadable => .error (.unreadable n.noteId)
  | some (.post m content) => .ok (parseFrontmatter m, content)

/-- `locate_note(...).file_exists` -/
def fileExists (n : Note) : Bool := (s.files.read (pathOf n)).isSome

/-- `normalize_tags` of given tags. -/
def Services.tagsOf (raw : List Text) : List Text := insertionOrder (raw.filterMap v.normalizeTag)

/-- `normalize_tags` of a file's tags. -/
def Services.fileTags (n : Note) (fm : NoteFrontmatter) : Except Refusal (List Text) :=
  (v.normalizeTags (pathOf n) fm.tags).mapError .failed

/-- `note_path_conflict` -/
def Services.pathConflict (n : Note) : Bool :=
  (v.indexed s.notes).any fun x => x.noteId ≠ n.noteId && v.pathKey (pathOf x) = v.pathKey (pathOf n)

/-! ## the edits -/

structure UpdateArgs where
  noteId : String
  title : Option Text
  tags : Option (List Text)
  folder : Option Text
  dates : DateArgs
  /-- `expected_sha` is the file's -/
  fresh : Bool
  /-- the body edit and the check of its links -/
  edit : Text → Option Text
  now : Text

/-- `normalize_folder(folder)`, or the folder of the note. -/
def UpdateArgs.newFolder (a : UpdateArgs) (note : Note) : Except Refusal Text :=
  match a.folder with
  | none => .ok note.folder
  | some folder =>
    match normalizeFolder folder with
    | some folder => .ok folder
    | none => .error .invalidFolder

def edited (edit : Text → Option Text) (content : Text) : Except Refusal Text :=
  match edit content with
  | some content => .ok content
  | none => .error .rejected

/-- The frontmatter of the note after an edit. -/
def stamped (found : NoteFrontmatter) (row : Note) (now : Text) (temporal : Temporal) : NoteFrontmatter :=
  { found with
    id := .str row.noteId.toList
    title := .str row.title
    tags := row.tags.map .str
    createdAt := .str row.createdAt
    updatedAt := .str now
    temporal := temporal }

def Services.prepareUpdate (a : UpdateArgs) : Except Refusal Prepared := do
  let note ← v.get s a.noteId
  let folder ← a.newFolder note
  let dates ← (a.dates.resolve (note.occurredAt, note.period)).mapError .temporal
  let row : Note := { note with
    title := a.title.getD note.title
    folder := folder
    tags := (a.tags.map v.tagsOf).getD note.tags
    updatedAt := a.now }
  let _ ← refuse (!fileExists s note) (.fileNotFound note.noteId)
  let _ ← refuse (!a.fresh) (.stale note.noteId)
  let _ ← refuse (pathOf row ≠ pathOf note && v.pathConflict s row) (.pathTaken note.noteId)
  let file ← readNoteFile s note
  let dates := if a.dates.unchanged then file.1.temporal.temporalOr dates.1 dates.2 else dates
  let content ← edited a.edit file.2
  let temporal ← replaced file.1.temporal dates
  let row := { row with occurredAt := dates.1, period := dates.2 }
  -- the file itself is renamed through a temporary name
  let _ ← refuse (pathOf row ≠ pathOf note && fileExists s row) (.pathTaken note.noteId)
  return ⟨note, file.1, row, stamped file.1 row a.now temporal, content⟩

structure EditItem where
  noteId : String
  tags : Option (List Text)
  dates : DateArgs
  fresh : Bool
  /-- an `overwrite` without content or extras -/
  bare : Bool
  edit : Text → Option Text

/-- One item of `edit_many`; `none` is an item that is reported as an error. -/
def Services.prepareEdit (now : Text) (seen : List String) (item : EditItem) :
    Except Refusal (Option Prepared) :=
  match v.get s item.noteId with
  | .error _ => .ok none
  | .ok note =>
    if item.noteId = "" || item.noteId ∈ seen || !fileExists s note || !item.fresh then .ok none
    else do
      let file ← readNoteFile s note
      if item.bare && item.tags.isNone && item.dates.unchanged then return none
      else match item.edit file.2 with
      | none => return none
      | some content =>
        let tags ← (match item.tags with
          | some tags => .ok (v.tagsOf tags)
          | none => v.fileTags note file.1 : Except Refusal (List Text))
        match item.dates.resolve (file.1.temporal.temporalOr note.occurredAt note.period) with
        | .error _ => return none
        | .ok dates =>
          let temporal ← replaced file.1.temporal dates
          let row := { note with
            tags := tags
            updatedAt := now, occurredAt := dates.1, period := dates.2 }
          return some ⟨note, file.1, row, stamped file.1 row now temporal, content⟩

/-- The items in order; an error that is raised ends the batch. -/
def Services.prepareEdits (now : Text) : List String → List EditItem → Except Refusal (List (Option Prepared))
  | _, [] => .ok []
  | seen, item :: items => do
    let p ← v.prepareEdit s now seen item
    let ps ← Services.prepareEdits now (item.noteId :: seen) items
    return p :: ps

inductive TagChange where
  | add (tags : List Text)
  | remove (tags : List Text)
  | set (tags : List Text) (fresh : Bool)

/-- `mutate` -/
def Services.mutate (current : List Text) : TagChange → List Text
  | .add tags => insertionOrder (current ++ v.tagsOf tags)
  | .remove tags => current.filter (· ∉ v.tagsOf tags)
  | .set tags _ => v.tagsOf tags

def TagChange.stale : TagChange → Bool
  | .set _ fresh => !fresh
  | _ => false

/-- `_apply_tag_change`; `none` when the list stays as it is. -/
def Services.prepareTags (now : Text) (noteId : String) (change : TagChange) :
    Except Refusal (Option Prepared) := do
  let note ← v.get s noteId
  let _ ← refuse (!fileExists s note) (.fileNotFound noteId)
  let _ ← refuse change.stale (.stale noteId)
  let file ← readNoteFile s note
  let current ← v.fileTags note file.1
  let tags := v.mutate current change
  if tags = current then return none
  else
    let dates := file.1.temporal.temporalOr note.occurredAt note.period
    let temporal ← replaced file.1.temporal dates
    let row := { note with tags := tags, updatedAt := now, occurredAt := dates.1, period := dates.2 }
    return some ⟨note, file.1, row, stamped file.1 row now temporal, file.2⟩

/-- A note of `rename_tag`: the dates are the file's own, in the row as well. -/
def Services.prepareRenameTag (now old new : Text) (note : Note) : Except Refusal (Option Prepared) :=
  if fileExists s note then do
    let file ← readNoteFile s note
    let oldTags ← v.fileTags note file.1
    let tags := insertionOrder (oldTags.map fun tag => (Tags.remapPath tag old new).getD tag)
    let body := v.rewriteInlineTags file.2 fun tag => Tags.remapPath tag old new
    if tags ≠ oldTags ∨ body ≠ file.2 then
      let row := { note with
        tags := tags, updatedAt := now
        occurredAt := file.1.temporal.occurredAt, period := file.1.temporal.period }
      return some ⟨note, file.1, row, stamped file.1 row now file.1.temporal, body⟩
    else return none
  else .ok none

/-- A source of `rewrite_backlinks`: the row keeps its dates.  `rewrite` has no value when no link of the
body changes. -/
def prepareBacklink (rewrite : Note → Text → Option Text) (note : Note) : Except Refusal (Option Prepared) :=
  if fileExists s note then do
    let file ← readNoteFile s note
    match rewrite note file.2 with
    | none => return none
    | some body =>
      let temporal ← replaced file.1.temporal (file.1.temporal.temporalOr note.occurredAt note.period)
      let fm := { file.1 with id := .str note.noteId.toList, title := .str note.title, temporal := temporal }
      return some ⟨note, file.1, note, fm, body⟩
  else .ok none

/-! ## temporal backfill -/

inductive Field where
  | occurredAt
  | period
deriving DecidableEq

structure BackfillItem where
  noteId : String
  title : Text
  folder : Text
  field : Field
  value : Text
  /-- the file is as it was previewed -/
  fresh : Bool

/-- `_folder_year_components` -/
def folderYears (folder : Text) : List Text :=
  (split '/' folder).filter fun part => part.length = 4 && part.all Char.isDigit

/-- `_classify_temporal_note`: the field and the value of a candidate. -/
def Services.classify (n : Note) : Option (Field × Text) :=
  if n.occurredAt.isSome || n.period.isSome then none
  else match v.temporalTokens n.title with
  | [token] =>
    match parsePeriodKey token with
    | none => none
    | some key =>
      if v.folderConflicts n.folder key then none
      else if isoYear key && strip n.title ≠ token && key ∉ folderYears n.folder then none
      else some (if isoDate key then .occurredAt else .period, key)
  | _ => none

/-- `apply_temporal_backfill`, up to the commit of an item. -/
def Services.prepareBackfill (item : BackfillItem) : Except Refusal Prepared := do
  let note ← (v.get s item.noteId).mapError fun _ => .stale item.noteId
  let _ ← refuse (!fileExists s note || !item.fresh) (.stale item.noteId)
  let _ ← refuse (v.classify note ≠ some (item.field, item.value) || note.title ≠ item.title ||
    note.folder ≠ item.folder) (.stale item.noteId)
  let file ← readNoteFile s note
  let dates := if item.field = .occurredAt then (some item.value, none) else (none, some item.value)
  let temporal ← replaced file.1.temporal dates
  let row := { note with occurredAt := dates.1, period := dates.2 }
  return ⟨note, file.1, row, { file.1 with temporal := temporal }, file.2⟩

/-! ## the commit -/

/-- The row and the file of one note. -/
def write (s : State) (p : Prepared) : State where
  notes := s.notes.update p.row
  files := (s.files.remove (pathOf p.note)).put (pathOf p.row) (.post p.fm.written p.content)

/-- `commit_rows_then_tree` -/
def writeAll (s : State) (ps : List Prepared) : State := ps.foldl write s

end Kajet.Dates
