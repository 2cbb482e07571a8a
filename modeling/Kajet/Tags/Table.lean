import Kajet.Lib.Machine
import Kajet.Lib.Table
import Kajet.Lib.Prune
import Kajet.Links.Index

/-!
# Tags

The tags of a workspace and owner form a tree: a row for every path that a note carries and for every
path above it.  A sync writes the rows that its notes need and then sweeps the ones that nobody needs
any more; a rename writes its notes in several transactions and sweeps once.

* `ancestors`, `upper`, `remapPath`, `tagged`   tag paths;
* `Db.ensureTag`, `Db.syncNoteTags`             rows on demand;
* `Db.sweepOrphanTags`                          the loop of anti-joins;
* `Op`, `tagging`                               the machine, `Shape` what its states look like.
-/

namespace Kajet.Tags
open Str Table Links Machine

/-! ## paths -/

/-- `normalize` gives nothing else: segments, joined by slashes. -/
def Normal (path : Text) : Prop := pathSegments path ≠ [] ∧ join '/' (pathSegments path) = path

instance (path : Text) : Decidable (Normal path) := inferInstanceAs (Decidable (_ ∧ _))

/-- Top-down, with the path itself. -/
def ancestors (path : Text) : List Text :=
  (List.range (pathSegments path).length).map fun i => join '/' ((pathSegments path).take (i + 1))

/-- The path without its last segment. -/
def upper (path : Text) : Option Text :=
  match (pathSegments path).dropLast with
  | [] => none
  | segments => some (join '/' segments)

/-- `old` becomes `new` within the path. -/
def remapPath (path old new : Text) : Option Text :=
  if path = old then some new
  else if (old ++ ['/']).isPrefixOf path then some (new ++ path.drop old.length)
  else none

/-- Frontmatter wins over the same inline tag. -/
def tagged (fmTags inline : List Text) : List (Text × String) :=
  fmTags.eraseDups.map (·, "frontmatter") ++
    (inline.eraseDups.filter (· ∉ fmTags)).map (·, "inline")

/-! ## rows -/

structure Scope where
  workspace : String
  ownerId : String
deriving DecidableEq

structure Tag where
  id : String
  scope : Scope
  path : Text
  name : Text
  parentId : Option String
  createdAt : String
deriving DecidableEq

structure NoteTag where
  noteId : String
  tagId : String
  source : String
deriving DecidableEq

structure Db where
  tags : List Tag
  noteTags : List NoteTag
deriving DecidableEq

inductive Raised where
  | integrityError
deriving DecidableEq

/-- The chain of `_ensure_tag`, from the ancestor above on; `generated` has the ids that `generate`
returns for the rows that are not there yet. -/
def ensureChain (scope : Scope) (generated : Text → String) (now : String) :
    Option String → List Text → List Tag → Except Raised (List Tag × Option String)
  | parentId, [], tags => .ok (tags, parentId)
  | parentId, ancestor :: rest, tags =>
    match tags.find? (fun t => t.scope = scope ∧ t.path = ancestor) with
    | some t => ensureChain scope generated now (some t.id) rest tags
    | none =>
      if tags.any (·.id = generated ancestor) then .error .integrityError
      else ensureChain scope generated now (some (generated ancestor)) rest
        (tags ++ [⟨generated ancestor, scope, ancestor, (rpartition '/' ancestor).2, parentId, now⟩])

def ensureTag (scope : Scope) (generated : Text → String) (now : String) (tags : List Tag) (path : Text) :
    Except Raised (List Tag × String) := do
  let r ← ensureChain scope generated now none (ancestors path) tags
  .ok (r.1, r.2.getD "")

/-- The loop of `sync_note_tags_many_in_session`, with the memo of the paths it has ensured. -/
structure Sync where
  tags : List Tag
  noteTags : List NoteTag
  tagIds : List (Text × String)

namespace Sync

/-- `tag_ids[path]` -/
def resolve (acc : Sync) (scope : Scope) (generated : Text → String) (now : String) (path : Text) :
    Except Raised (Sync × String) :=
  match acc.tagIds.lookup path with
  | some tagId => .ok (acc, tagId)
  | none => do
    let r ← ensureTag scope generated now acc.tags path
    .ok ({ acc with tags := r.1, tagIds := (path, r.2) :: acc.tagIds }, r.2)

/-- One pair of one note; the primary key of `note_tags` is the note and the tag. -/
def add (scope : Scope) (generated : Text → String) (now : String) (acc : Sync)
    (x : String × Text × String) : Except Raised Sync := do
  let r ← acc.resolve scope generated now x.2.1
  if r.1.noteTags.any (fun l => l.noteId = x.1 ∧ l.tagId = r.2) then .error .integrityError
  else .ok { r.1 with noteTags := r.1.noteTags ++ [⟨x.1, r.2, x.2.2⟩] }

end Sync

/-- What the notes are to carry: `tagged_by_note`. -/
abbrev TaggedByNote := List (String × List (Text × String))

/-- Note, path, source: one turn each. -/
def items (taggedByNote : TaggedByNote) : List (String × Text × String) :=
  taggedByNote.flatMap fun x => x.2.map fun y => (x.1, y)

namespace Db

def tagsOf (db : Db) (scope : Scope) : List Tag := db.tags.filter (·.scope = scope)

/-- `delete_note_tags_in_session` for each of the notes. -/
def deleteNoteTags (db : Db) (notes : List String) : Db :=
  { db with noteTags := deleteWhere (fun l => l.noteId ∈ notes) db.noteTags }

def syncNoteTags (db : Db) (scope : Scope) (generated : Text → String) (now : String)
    (taggedByNote : TaggedByNote) : Except Raised Db := do
  let acc ← (items taggedByNote).foldlM (Sync.add scope generated now)
    ⟨db.tags, (db.deleteNoteTags (taggedByNote.map Prod.fst)).noteTags, []⟩
  .ok ⟨acc.tags, acc.noteTags⟩

/-- A pass of the sweep leaves the row alone: another scope, a note carries it, a row is below it. -/
def spared (noteTags : List NoteTag) (scope : Scope) (tags : List Tag) (t : Tag) : Bool :=
  t.scope ≠ scope ∨
    (noteTags.any fun l => l.tagId = t.id ∧ tags.any fun u => u.id = l.tagId ∧ u.scope = scope) ∨
    tags.any fun u => u.scope = scope ∧ u.parentId = some t.id

/-- `none` if the loop does not end. -/
def sweepOrphanTags (db : Db) (scope : Scope) : Option Db :=
  (Prune.loop (spared db.noteTags scope) (db.tags.length + 1) db.tags).map fun tags => { db with tags := tags }

def deleteWorkspaceTags (db : Db) (scope : Scope) : Db where
  tags := deleteWhere (fun t => t.scope = scope) db.tags
  noteTags := deleteWhere (fun l => db.tags.any fun t => t.scope = scope ∧ t.id = l.tagId) db.noteTags

/-! ## what the notes carry -/

/-- A pair of a note, with the scope of its tag. -/
structure Carried where
  noteId : String
  scope : Scope
  path : Text
  source : String
deriving DecidableEq

def carriedOf (tags : List Tag) (l : NoteTag) : Option Carried :=
  (row Tag.id tags l.tagId).map fun t => ⟨l.noteId, t.scope, t.path, l.source⟩

def carried (db : Db) : List Carried := db.noteTags.filterMap (carriedOf db.tags)

/-- The pairs of the note. -/
def pairs (db : Db) (noteId : String) : List (Text × String) :=
  (db.carried.filter (·.noteId = noteId)).map fun c => (c.path, c.source)

end Db

/-! ## the machine -/

/-- `synced`: the pairs last synced for each note.  `unswept`: a rename has written in the scope and
has not swept it. -/
structure State where
  db : Db
  synced : TaggedByNote
  unswept : List Scope
deriving DecidableEq

inductive Op where
  | syncNoteTagsMany (scope : Scope) (generated : Text → String) (now : String)
      (taggedByNote : TaggedByNote)
  /-- the teardown of notes, with the sweep at its end -/
  | deleteNoteTags (scope : Scope) (notes : List String)
  /-- one transaction of `rename_tag`: the notes with their tags before and with the inline tags of
  their new bodies -/
  | renameChunk (scope : Scope) (old new : Text) (generated : Text → String) (now : String)
      (notes : List (String × List Text × List Text))
  /-- its last one -/
  | sweepOrphanTags (scope : Scope)
  | deleteWorkspaceTags (scope : Scope)

/-- The pairs of a renamed note. -/
def renamed (old new : Text) (notes : List (String × List Text × List Text)) : TaggedByNote :=
  notes.map fun x => (x.1, tagged (x.2.1.map fun t => (remapPath t old new).getD t) x.2.2)

namespace State

def empty : State := ⟨⟨[], []⟩, [], []⟩

def forget (s : State) (notes : List String) : TaggedByNote := s.synced.filter (·.1 ∉ notes)

def lastSynced (s : State) (noteId : String) : List (Text × String) := (s.synced.lookup noteId).getD []

/-- The notes that carry a tag of the scope. -/
def notesOf (s : State) (scope : Scope) : List String :=
  (s.db.carried.filter (·.scope = scope)).map (·.noteId)

end State

/-- The paths are normalized, the notes are the keys of a dictionary. -/
def Admissible (taggedByNote : TaggedByNote) : Prop :=
  (taggedByNote.map Prod.fst).Nodup ∧ ∀ x ∈ items taggedByNote, Normal x.2.1

instance (taggedByNote : TaggedByNote) : Decidable (Admissible taggedByNote) :=
  inferInstanceAs (Decidable (_ ∧ _))

/-- A call that raises is rolled back. -/
def step (s : State) : Op → Option State
  | .syncNoteTagsMany scope generated now taggedByNote =>
    if Admissible taggedByNote then
      if taggedByNote = [] then some s
      else match s.db.syncNoteTags scope generated now taggedByNote with
        | .error _ => some s
        | .ok db => (db.sweepOrphanTags scope).map fun db =>
          ⟨db, taggedByNote ++ s.forget (taggedByNote.map Prod.fst), s.unswept.filter (· ≠ scope)⟩
    else none
  | .deleteNoteTags scope notes =>
    ((s.db.deleteNoteTags notes).sweepOrphanTags scope).map fun db =>
      ⟨db, s.forget notes, s.unswept.filter (· ≠ scope)⟩
  | .renameChunk scope old new generated now notes =>
    if Normal old ∧ Normal new ∧ (notes.map Prod.fst).Nodup ∧
        ∀ x ∈ notes, ∀ path ∈ x.2.1 ++ x.2.2, Normal path then
      match s.db.syncNoteTags scope generated now (renamed old new notes) with
      | .error _ => some s
      | .ok db => some ⟨db, renamed old new notes ++ s.forget (notes.map Prod.fst), scope :: s.unswept⟩
    else none
  | .sweepOrphanTags scope =>
    (s.db.sweepOrphanTags scope).map fun db => ⟨db, s.synced, s.unswept.filter (· ≠ scope)⟩
  | .deleteWorkspaceTags scope =>
    some ⟨s.db.deleteWorkspaceTags scope, s.forget (s.notesOf scope), s.unswept⟩

def tagging : Machine State Op where
  start s := s = State.empty
  next := step

/-! ## the statement -/

/-- The rows of the scope: one for each path above one that a note carries, below the row of the path
without the last segment. -/
structure Shape (db : Db) (scope : Scope) : Prop where
  one : ((db.tagsOf scope).map (·.path)).Nodup
  closure : ∀ path, path ∈ (db.tagsOf scope).map (·.path) ↔
    ∃ c ∈ db.carried, c.scope = scope ∧ path ∈ ancestors c.path
  parent : ∀ t ∈ db.tagsOf scope, match upper t.path with
    | none => t.parentId = none
    | some path => ∃ u ∈ db.tagsOf scope, u.path = path ∧ t.parentId = some u.id

/-- Whoever rewrites the tags of a note does so in the scope of the tags that the note has. -/
def OwnScope (s : State) : Op → Prop
  | .syncNoteTagsMany scope _ _ taggedByNote =>
    ∀ c ∈ s.db.carried, c.noteId ∈ taggedByNote.map Prod.fst → c.scope = scope
  | .deleteNoteTags scope notes => ∀ c ∈ s.db.carried, c.noteId ∈ notes → c.scope = scope
  | .renameChunk scope _ _ _ _ notes => ∀ c ∈ s.db.carried, c.noteId ∈ notes.map Prod.fst → c.scope = scope
  | _ => True

instance (s : State) : (op : Op) → Decidable (OwnScope s op)
  | .syncNoteTagsMany scope _ _ taggedByNote =>
    inferInstanceAs (Decidable (∀ c ∈ s.db.carried, c.noteId ∈ taggedByNote.map Prod.fst → c.scope = scope))
  | .deleteNoteTags scope notes =>
    inferInstanceAs (Decidable (∀ c ∈ s.db.carried, c.noteId ∈ notes → c.scope = scope))
  | .renameChunk scope _ _ _ _ notes =>
    inferInstanceAs (Decidable (∀ c ∈ s.db.carried, c.noteId ∈ notes.map Prod.fst → c.scope = scope))
  | .sweepOrphanTags _ | .deleteWorkspaceTags _ => isTrue trivial

end Kajet.Tags
