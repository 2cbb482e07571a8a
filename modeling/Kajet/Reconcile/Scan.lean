import Kajet.Links.Index

/-!
# The disk scan of a reconcile

`reconcile_paths` first reads the files at the given paths: a file with an id is present under that
id (the first one in path order wins), a file without one is adopted under a generated id, a file
that does not parse is left alone.

* `Env`        the workspace, its files, the generated ids, and the code that is not modelled:
               `casefold`, `lower`, `\w`, the Markdown parser;
* `scan`       the files by kind; `present` adds the adopted ones.
-/

namespace Kajet.Reconcile
open Str Rank Links

structure NoteFrontmatter where
  id : Option String
  title : Option Text
  tags : List Text
  createdAt : Option String
  updatedAt : Option String
  occurredAt : Option String
  period : Option String
  /-- `temporal_dropped` -/
  occurredAtDropped : Bool
  periodDropped : Bool

/-- The file's value, or the row's where the file's had to be dropped. -/
def NoteFrontmatter.temporalOr (m : NoteFrontmatter) (dbOccurredAt dbPeriod : Option String) :
    Option String × Option String :=
  (if m.occurredAtDropped then dbOccurredAt else m.occurredAt,
    if m.periodDropped then dbPeriod else m.period)

inductive DiskFile where
  | unreadable
  | note (fm : NoteFrontmatter) (content : Text)

structure Env where
  workspace : String
  ownerId : String
  disk : Text → Option DiskFile
  /-- the ids that `generate` gives to the adopted files -/
  newNoteId : Nat → String
  /-- the id that `generate` gives to the tag of a path -/
  newTagId : Text → String
  /-- why the commit of the adopted files fails, if it does -/
  adoptionError : Option String
  casefold : Text → Text
  extractWikilinks : Text → List Text
  lower : Text → Text
  isWord : Char → Bool
  extractInlineTags : Text → List Text

/-! ## tags -/

/-- `normalize` -/
def Env.normalizeTag (env : Env) (raw : Text) : Option Text :=
  match pathSegments (strip ((strip raw).dropWhile (· = '#'))) with
  | [] => none
  | segs =>
    let path := env.lower (join '/' segs)
    if ∀ seg ∈ split '/' path, seg ≠ [] ∧ ∀ c ∈ seg, env.isWord c ∨ c = '-' then some path else none

def Env.normalizeTags (env : Env) (raw : List Text) : List Text :=
  insertionOrder (raw.filterMap env.normalizeTag)

/-- Frontmatter wins over the same inline tag. -/
def Env.tagged (env : Env) (fmTags : List Text) (content : Text) : List (Text × String) :=
  let inline := (insertionOrder (env.extractInlineTags content)).filter (· ∉ fmTags)
  (insertionOrder fmTags).map (·, "frontmatter") ++ inline.map (·, "inline")

/-! ## the scan -/

/-- One on-disk file that was parsed. -/
structure PresentFile where
  noteId : String
  title : Text
  tags : List Text
  createdAt : String
  updatedAt : String
  content : Text
  folder : Text
  relative : Text
  fm : NoteFrontmatter

def noteFolder (relative : Text) : Text := (rpartition '/' relative).1

def Env.presentFile (env : Env) (noteId : String) (fm : NoteFrontmatter) (content relative : Text) :
    PresentFile where
  noteId := noteId
  title := fm.title.getD []
  tags := env.normalizeTags fm.tags
  createdAt := fm.createdAt.getD ""
  updatedAt := fm.updatedAt.getD ""
  content := content
  folder := noteFolder relative
  relative := relative
  fm := fm

structure AdoptionCandidate where
  relative : Text
  fm : NoteFrontmatter
  content : Text

structure Scan where
  present : List (String × PresentFile)
  duplicateIds : List String
  unreadablePaths : List Text
  candidates : List AdoptionCandidate

def Env.scanFile (env : Env) (s : Scan) (relative : Text) : Scan :=
  match env.disk relative with
  | none => s
  | some .unreadable => { s with unreadablePaths := s.unreadablePaths ++ [relative] }
  | some (.note fm content) =>
    match fm.id with
    | none | some "" => { s with candidates := s.candidates ++ [⟨relative, fm, content⟩] }
    | some id =>
      if id ∈ s.present.map (·.1) then { s with duplicateIds := s.duplicateIds ++ [id] }
      else { s with present := s.present ++ [(id, env.presentFile id fm content relative)] }

def Env.scan (env : Env) (paths : List Text) : Scan :=
  (sortedSet paths).foldl env.scanFile ⟨[], [], [], []⟩

/-- `d[k] = v` -/
def dictSet {β : Type} (d : List (String × β)) (k : String) (v : β) : List (String × β) :=
  if k ∈ d.map (·.1) then d.map fun x => if x.1 = k then (k, v) else x else d ++ [(k, v)]

/-- The adopted files join the present ones under their generated ids. -/
def Env.adopt (env : Env) (s : Scan) : List (String × PresentFile) :=
  s.candidates.zipIdx.foldl
    (fun present x => dictSet present (env.newNoteId x.2)
      (env.presentFile (env.newNoteId x.2) x.1.fm x.1.content x.1.relative)) s.present

/-- The files that the reconcile writes rows for, by id. -/
def Env.present (env : Env) (paths : List Text) : List (String × PresentFile) :=
  env.adopt (env.scan paths)

end Kajet.Reconcile
