import Kajet.Paths.Folder

/-!
# The operations on the notes of a workspace and their files

The rows (`Rows`) hold the identities of the notes; the files are at the paths that these name.
Every operation checks first and then changes rows and files; one that fails changes nothing.
The checks of dates, extras and commit shas only refuse a call and are left out.

* `save`, `saveMany`, `update`, `editMany`, `move`, `moveFolder`, `changeTags`, `renameTag`,
  `delete`, `deleteMany`   the operations;
* `vault`                  the machine of their runs.
-/

namespace Kajet.Paths
open Str Table Links

/-! ## rows -/

/-- The `notes` table of a workspace; the id is its primary key. -/
structure Rows where
  notes : List IndexedNote
  ids : Keyed IndexedNote.noteId notes

namespace Rows

def insert (rows : Rows) (n : IndexedNote) : Option Rows :=
  if h : ∀ x ∈ rows.notes, x.noteId ≠ n.noteId then some ⟨rows.notes ++ [n], rows.ids.append h⟩
  else none

def insertAll : List IndexedNote → Rows → Option Rows
  | [], rows => some rows
  | n :: notes, rows => (rows.insert n).bind (insertAll notes)

def setIdentity (rows : Rows) (new : IndexedNote) : Rows :=
  ⟨Links.setIdentity new.noteId new.folder new.title rows.notes,
    rows.ids.updateWhere fun _ => rfl⟩

def moveUnder (rows : Rows) (src dst : Text) : Rows :=
  ⟨updateWhere (underFolder src) (remap src dst) rows.notes, rows.ids.updateWhere fun _ => rfl⟩

def delete (rows : Rows) (noteIds : List String) : Rows :=
  ⟨deleteWhere (fun n => n.noteId ∈ noteIds) rows.notes, rows.ids.deleteWhere⟩

end Rows

structure Vault where
  rows : Rows
  disk : Disk

inductive VaultError where
  /-- the note, its new folder or title, or its links are refused -/
  | identity (e : MoveError)
  | disk (e : DiskError)
  | fileNotFound (noteId : String)
  /-- the primary key of `notes` -/
  | duplicateId
  | titleRequired
  | duplicateInBatch (title folder : Text)
  | emptyBatch
  | duplicateNote
  | folderNotFound (folder : Text)
  /-- `relative_to` of a note that `LIKE` found in another letter case -/
  | notUnder (path : Text)

/-- What the operations take from elsewhere: see `LinkEnv`; the tags, and the rewriting of one body. -/
structure VaultEnv extends LinkEnv where
  normalizeTags : List Text → List Text
  rewriteInlineTags : (Text → Option Text) → Text → Text
  /-- The body of a source with its links to the moved notes rewritten, if there are any. -/
  rewriteBody : List IndexedNote → List NoteMove → IndexedNote → Text → Option Text

abbrev Vault.notes (v : Vault) : List IndexedNote := v.rows.notes

def Vault.note (v : Vault) (noteId : String) : Except VaultError IndexedNote :=
  match row IndexedNote.noteId v.notes noteId with
  | some n => .ok n
  | none => .error (.identity (.noteNotFound noteId))

/-- The note's file is read. -/
def Vault.fileOf (v : Vault) (n : IndexedNote) : Except VaultError NoteFile :=
  match v.disk.file (notePath n) with
  | some f => .ok f
  | none => .error (.fileNotFound n.noteId)

/-- The frontmatter that every write of a note's file leaves. -/
def stamp (n : IndexedNote) (tags : List Text) (content : Text) : NoteFile :=
  ⟨notePath n, some n.noteId, some n.title, tags, content⟩

def Vault.writeFiles (v : Vault) (fs : List NoteFile) : Except VaultError Vault := do
  let disk ← (Disk.writeAll fs v.disk).mapError .disk
  return { v with disk := disk }

/-- The tags and the body of the selected notes, where `change` gives new ones. -/
def Vault.changeFiles (v : Vault) (p : IndexedNote → Bool)
    (change : IndexedNote → NoteFile → Option (List Text × Text)) : Except VaultError Vault :=
  v.writeFiles ((v.notes.filter p).filterMap fun n => do
    let f ← v.disk.file (notePath n)
    let (tags, content) ← change n f
    return stamp n tags content)

/-! ## the operations -/

structure NewNote where
  title : Text
  content : Text
  tags : List Text
  folder : Text

/-- `_NoteDraft` -/
structure Draft where
  note : IndexedNote
  tags : List Text
  content : Text

def Draft.file (d : Draft) : NoteFile := stamp d.note d.tags d.content

structure EditItem where
  noteId : String
  edit : Text → Option Text
  tags : Option (List Text)

section
variable (env : VaultEnv) (v : Vault)

/-- `WorkspaceLinks.validate` -/
def VaultEnv.validate (notes : List IndexedNote) (content folder : Text) : Except VaultError Unit :=
  let broken := (resolveContentLinks env.casefold env.extractWikilinks notes content folder).broken
  if broken ≠ [] ∧ env.linkValidation then .error (.identity (.brokenWikilinks broken)) else .ok ()

def VaultEnv.build (noteId : String) (new : NewNote) : Except VaultError Draft := do
  let folder ← (normalizedFolder new.folder).mapError .identity
  return ⟨⟨noteId, folder, new.title⟩, env.normalizeTags new.tags, new.content⟩

/-- No row has the path, and there is nothing on the disk. -/
def ensurePathFree (draft : Draft) : Option IndexedNote → Except VaultError Unit
  | some conflict => .error (.identity (.pathConflict draft.note.title conflict))
  | none =>
    if v.disk.has (notePath draft.note) then .error (.disk (.fileExists (notePath draft.note)))
    else .ok ()

/-- `_write` -/
def Vault.add (drafts : List Draft) : Except VaultError Vault :=
  match v.rows.insertAll (drafts.map (·.note)) with
  | none => .error .duplicateId
  | some rows => Vault.writeFiles { v with rows := rows } (drafts.map (·.file))

def VaultEnv.save (noteId : String) (new : NewNote) : Except VaultError Vault := do
  let draft ← env.build noteId new
  let _ ← ensurePathFree v draft (env.notePathConflict v.notes draft.note)
  let _ ← env.validate v.notes draft.content draft.note.folder
  v.add [draft]

/-- The notes by the key of their path; the last one of a key counts. -/
def VaultEnv.buildPathIndex (notes : List IndexedNote) : List (Text × IndexedNote) :=
  (notes.map fun n => (env.pathConflictKey n, n)).reverse

/-- `_admit_batch_item` -/
def VaultEnv.admitItem (accepted : List (Text × Text)) (pathIndex : List (Text × IndexedNote))
    (noteId : String) (new : NewNote) : Except VaultError Draft := do
  let title := strip new.title
  let _ ← (if title = [] then .error .titleRequired else .ok () : Except VaultError Unit)
  let draft ← env.build noteId { new with title := title }
  let _ ← (if (draft.note.folder, title) ∈ accepted then
      .error (.duplicateInBatch title draft.note.folder) else .ok () : Except VaultError Unit)
  let _ ← ensurePathFree v draft (pathIndex.lookup (env.pathConflictKey draft.note))
  return draft

/-- Phase 1 of `save_many`. -/
def VaultEnv.admit : List (String × NewNote) → List (Text × Text) → List (Text × IndexedNote) →
    List (Except VaultError Draft)
  | [], _, _ => []
  | (noteId, new) :: items, accepted, pathIndex =>
    match env.admitItem v accepted pathIndex noteId new with
    | .error e => .error e :: VaultEnv.admit items accepted pathIndex
    | .ok draft => .ok draft :: VaultEnv.admit items ((draft.note.folder, draft.note.title) :: accepted)
        ((env.pathConflictKey draft.note, draft.note) :: pathIndex)

/-- The admitted drafts. -/
def admitted (items : List (Except VaultError Draft)) : List Draft :=
  items.filterMap Except.toOption

/-- Phase 2: a link to a draft that is dropped later still resolves. -/
def VaultEnv.resolveBatch (drafts : List (Except VaultError Draft)) : List (Except VaultError Draft) :=
  let notes := v.notes ++ (admitted drafts).map (·.note)
  drafts.map fun item => item >>= fun draft =>
    (env.validate notes draft.content draft.note.folder).map fun _ => draft

/-- Each item has its id or its error. -/
def VaultEnv.saveMany (items : List (String × NewNote)) :
    Except VaultError (Vault × List (Except VaultError String)) :=
  let valid := env.resolveBatch v ( env.admit v items [] (env.buildPathIndex v.notes))
  let results := valid.map (Except.map fun draft => draft.note.noteId)
  match admitted valid with
  | [] => .ok (v, results)
  | draft :: drafts => (v.add (draft :: drafts)).map (·, results)

/-- `rewrite_backlinks`: the sources are those of the stored links. -/
def VaultEnv.rewriteBacklinks (before : List IndexedNote) (moves : List NoteMove)
    (sourceIds : List String) : Except VaultError Vault :=
  v.changeFiles (fun n => n.noteId ∈ sourceIds) fun n f =>
    (env.rewriteBody before moves n f.content).map fun body => (f.tags, body)

/-- `tags` are the normalised tags of the call, or those of the row. -/
def VaultEnv.update (noteId : String) (title folder : Option Text) (tags : List Text)
    (edit : Text → Option Text) (sourceIds : List String) : Except VaultError Vault := do
  let note ← v.note noteId
  let newFolder ← (folderOr note.folder folder).mapError .identity
  let new : IndexedNote := { note with folder := newFolder, title := title.getD note.title }
  let file ← v.fileOf note
  let pathChanged := decide (notePath note ≠ notePath new)
  let _ ← (if pathChanged then env.checkPath v.notes new else .ok ()).mapError VaultError.identity
  let content ← (edit file.content).elim (.error (.identity .invalidEdit)) .ok
  let _ ← env.validate v.notes content newFolder
  let disk ← (if pathChanged then v.disk.relocate (notePath note) (stamp new tags content)
    else v.disk.write (stamp new tags content)).mapError VaultError.disk
  let updated : Vault := ⟨v.rows.setIdentity new, disk⟩
  if pathChanged then env.rewriteBacklinks updated v.notes [⟨note, new⟩] sourceIds
  else return updated

/-- One validated item, ready to be written. -/
def VaultEnv.prepareEdit (item : EditItem) : Except VaultError NoteFile := do
  let note ← v.note item.noteId
  let file ← v.fileOf note
  let content ← (item.edit file.content).elim (.error (.identity .invalidEdit)) .ok
  let _ ← env.validate v.notes content note.folder
  return stamp note (env.normalizeTags (item.tags.getD file.tags)) content

/-- The rows keep their folders and titles. -/
def VaultEnv.editMany (items : List EditItem) : Except VaultError Vault := do
  let _ ← (if items = [] then .error .emptyBatch else .ok () : Except VaultError Unit)
  let _ ← (if (items.map (·.noteId)).Nodup then .ok () else .error .duplicateNote :
    Except VaultError Unit)
  let files ← items.mapM (env.prepareEdit v)
  v.writeFiles files

def VaultEnv.move (noteId : String) (folder : Text) (sourceIds : List String) :
    Except VaultError Vault := do
  let note ← v.note noteId
  let newFolder ← (normalizedFolder folder).mapError .identity
  if newFolder = note.folder then return v
  else
    let new : IndexedNote := { note with folder := newFolder }
    let file ← v.fileOf note
    let _ ← (env.checkPath v.notes new).mapError VaultError.identity
    let disk ← (v.disk.relocate (notePath note) { file with path := notePath new }).mapError
      VaultError.disk
    let moved ← env.rewriteBacklinks ⟨v.rows.setIdentity new, disk⟩ v.notes [⟨note, new⟩] sourceIds
    return { moved with disk := Disk.pruneEmptyParents (Disk.folderDirs note.folder) moved.disk }

/-- `tmp` is the name that `token_hex` gives to the temporary directory. -/
def VaultEnv.moveFolder (src dst tmp : Text) (sourceIds : List String) : Except VaultError Vault := do
  let src ← (normalizedFolder src).mapError VaultError.identity
  let dst ← (normalizedFolder dst).mapError VaultError.identity
  if src = [] then .error (.identity .rootFolder)
  else if dst = src then return v
  else if inTree src dst then .error (.identity .intoItself)
  else
    let notes := v.notes.filter (underFolder src)
    if notes = [] ∧ v.disk.has src = false then .error (.folderNotFound src)
    else if moveFolderMaxNotes < notes.length then .error (.identity (.tooManyNotes notes.length))
    else
      let moved := notes.map (remap src dst)
      let taken := (v.notes.filter fun n => n.noteId ∉ notes.map (·.noteId)).map env.pathConflictKey
      match env.folderConflicts taken moved [] with
      | _ :: _ => .error (.identity (.destinationConflicts (env.folderConflicts taken moved [])))
      | [] =>
        match notes.find? fun n => inTree src (notePath n) = false with
        | some n => .error (.notUnder (notePath n))
        | none => do
          let targets := notes.map fun n => (notePath n, notePath (remap src dst n))
          let disk ← (v.disk.moveTree src dst tmp targets).mapError VaultError.disk
          let after ← env.rewriteBacklinks ⟨v.rows.moveUnder src dst, disk⟩ v.notes
            (notes.map fun n => ⟨n, remap src dst n⟩) sourceIds
          return { after with disk := after.disk.removeEmptyTree src }

/-- `_apply_tag_change` -/
def VaultEnv.changeTags (noteId : String) (mutate : List Text → Text → List Text) :
    Except VaultError Vault := do
  let note ← v.note noteId
  let file ← v.fileOf note
  let current := env.normalizeTags file.tags
  let new := mutate current file.content
  if new = current then return v else v.writeFiles [stamp note new file.content]

/-- `rename_tag` once its checks passed; `source_ids` carry the tag or one below it. -/
def VaultEnv.renameTag (old new : Text) (sourceIds : List String) : Except VaultError Vault :=
  v.changeFiles (fun n => n.noteId ∈ sourceIds) fun _ f =>
    let oldTags := env.normalizeTags f.tags
    let newTags := Rank.insertionOrder (oldTags.map fun t => (Tags.remapPath t old new).getD t)
    let newBody := env.rewriteInlineTags (Tags.remapPath · old new) f.content
    if newTags ≠ oldTags ∨ newBody ≠ f.content then some (newTags, newBody) else none

/-- The file may be missing. -/
def Vault.delete (noteId : String) : Except VaultError Vault := do
  let note ← v.note noteId
  return ⟨v.rows.delete [noteId], v.disk.unlink (notePath note)⟩

def Vault.deleteMany (noteIds : List String) : Except VaultError Vault := do
  let _ ← (if noteIds = [] then .error .emptyBatch else .ok () : Except VaultError Unit)
  let _ ← (if noteIds.Nodup then .ok () else .error .duplicateNote : Except VaultError Unit)
  let located ← noteIds.mapM fun noteId => do
    let note ← v.note noteId
    let _ ← v.fileOf note
    return note
  return ⟨v.rows.delete noteIds, located.foldl (fun d n => d.unlink (notePath n)) v.disk⟩

end

/-! ## the runs -/

inductive VaultOp where
  | save (noteId : String) (new : NewNote)
  | saveMany (items : List (String × NewNote))
  | update (noteId : String) (title folder : Option Text) (tags : List Text)
      (edit : Text → Option Text) (sourceIds : List String)
  | editMany (items : List EditItem)
  | move (noteId : String) (folder : Text) (sourceIds : List String)
  | moveFolder (src dst tmp : Text) (sourceIds : List String)
  | changeTags (noteId : String) (mutate : List Text → Text → List Text)
  | renameTag (old new : Text) (sourceIds : List String)
  | delete (noteId : String)
  | deleteMany (noteIds : List String)

def VaultEnv.run (env : VaultEnv) (v : Vault) : VaultOp → Except VaultError Vault
  | .save noteId new => env.save v noteId new
  | .saveMany items => (env.saveMany v items).map (·.1)
  | .update noteId title folder tags edit sourceIds =>
    env.update v noteId title folder tags edit sourceIds
  | .editMany items => env.editMany v items
  | .move noteId folder sourceIds => env.move v noteId folder sourceIds
  | .moveFolder src dst tmp sourceIds => env.moveFolder v src dst tmp sourceIds
  | .changeTags noteId mutate => env.changeTags v noteId mutate
  | .renameTag old new sourceIds => env.renameTag v old new sourceIds
  | .delete noteId => v.delete noteId
  | .deleteMany noteIds => v.deleteMany noteIds

def Vault.empty : Vault := ⟨⟨[], UniqueOn.nil⟩, ⟨[], []⟩⟩

/-- The runs of successful operations on a workspace that starts empty. -/
def vault (env : VaultEnv) : Machine Vault VaultOp where
  start v := v = Vault.empty
  next v op := (env.run v op).toOption

end Kajet.Paths
