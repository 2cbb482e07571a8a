import Kajet.Frontmatter.Document
import Kajet.Lib.Rank
import Kajet.Links.Index

/-!
# The scan of a reconcile, over hand-written frontmatter

As in `Kajet.Reconcile.Scan`, but with the values that the YAML really gives: ids and titles of any
type, lists of anything as tags.  Only the reading of a file is guarded; what is done with its
fields afterwards raises where Python raises.

* `Env`        the workspace and the code that is not modelled;
* `Env.scan`   the files by kind; `Env.adopt` writes the generated ids.
-/

namespace Kajet.Reindex
open Str Rank Links Frontmatter

structure Env where
  workspace : String
  ownerId : String
  /-- the id that `generate` gives to the file at a path when it is adopted -/
  newNoteId : Text → String
  /-- why the commit of the adopted files fails, if it does -/
  adoptionError : Option String
  /-- `normalize` of a tag that is a string -/
  normalizeTag : Text → Option Text
  /-- `str(value)` -/
  str : Yaml → Text
  str_str : ∀ t, str (.str t) = t
  /-- what a text column holds once the value is stored, if the driver takes it -/
  stored : Yaml → Option Text
  stored_str : ∀ t, stored (.str t) = some t

inductive ReindexError where
  /-- `TypeError` of a list or mapping in a `dict` or `set` -/
  | unhashable (path : Text)
  /-- `AttributeError`: a tag that is no string has no `strip` -/
  | tagNotText (path : Text)
  /-- the commit of the adopted files failed -/
  | adoption (error : String)
  /-- the deletion would empty too much of the workspace -/
  | deletionGuard (missing total : Nat)
  /-- the driver does not store the value -/
  | notStored (path : Text)
  /-- `IntegrityError` on the primary key of `notes` -/
  | duplicateNote (noteId : String)
deriving DecidableEq

/-- One on-disk file that was parsed. -/
structure PresentFile where
  id : Yaml
  title : Yaml
  tags : List Text
  createdAt : Text
  updatedAt : Text
  folder : Text
  relative : Text
  temporal : Temporal

structure AdoptionCandidate where
  relative : Text
  fm : NoteFrontmatter
  content : Text

structure Scan where
  present : List (Key × PresentFile)
  duplicateIds : List Key
  unreadablePaths : List Text
  candidates : List AdoptionCandidate

def noteFolder (relative : Text) : Text := (rpartition '/' relative).1

/-- `normalize_tags` -/
def Env.normalizeTags (env : Env) (relative : Text) (tags : List Yaml) : Except ReindexError (List Text) :=
  match tags.mapM Yaml.asStr with
  | none => .error (.tagNotText relative)
  | some raw => .ok (insertionOrder (raw.filterMap env.normalizeTag))

def Env.presentFile (env : Env) (id : Yaml) (fm : NoteFrontmatter) (relative : Text) :
    Except ReindexError PresentFile :=
  (env.normalizeTags relative fm.tags).map fun tags =>
    { id := id
      title := fm.title.orEmpty
      tags := tags
      createdAt := env.str fm.createdAt.orEmpty
      updatedAt := env.str fm.updatedAt.orEmpty
      folder := noteFolder relative
      relative := relative
      temporal := fm.temporal }

def Env.scanFile (env : Env) (files : Files) (s : Scan) (relative : Text) : Except ReindexError Scan :=
  match files.read relative with
  | none => .ok s
  | some .unreadable => .ok { s with unreadablePaths := s.unreadablePaths ++ [relative] }
  | some (.post m content) =>
    let fm := parseFrontmatter m
    if fm.id.truthy = false then .ok { s with candidates := s.candidates ++ [⟨relative, fm, content⟩] }
    else match fm.id.key with
    | none => .error (.unhashable relative)
    | some key =>
      if key ∈ s.present.map (·.1) then .ok { s with duplicateIds := s.duplicateIds ++ [key] }
      else (env.presentFile fm.id fm relative).map fun pf => { s with present := s.present ++ [(key, pf)] }

def Env.scan (env : Env) (files : Files) (paths : List Text) : Except ReindexError Scan :=
  (sortedSet paths).foldlM (env.scanFile files) ⟨[], [], [], []⟩

/-! ## adoption -/

def Env.newId (env : Env) (relative : Text) : Text := (env.newNoteId relative).toList

/-- The files after the generated ids were written. -/
def Env.adoptFiles (env : Env) (files : Files) (candidates : List AdoptionCandidate) : Files :=
  candidates.foldl (fun files c =>
    files.put c.relative (.post { c.fm with id := .str (env.newId c.relative) }.written c.content)) files

/-- `d[k] = v` -/
def setKey {β : Type} (d : List (Key × β)) (k : Key) (v : β) : List (Key × β) :=
  if k ∈ d.map (·.1) then d.map fun x => if x.1 = k then (k, v) else x else d ++ [(k, v)]

/-- The adopted files join the present ones under their generated ids. -/
def Env.adoptPresent (env : Env) (present : List (Key × PresentFile))
    (candidates : List AdoptionCandidate) : Except ReindexError (List (Key × PresentFile)) :=
  candidates.foldlM (fun present c =>
    (env.presentFile (.str (env.newId c.relative)) c.fm c.relative).map
      (setKey present (.str (env.newId c.relative)))) present

/-- The files afterwards, and those that rows are written for, by id. -/
def Env.adopt (env : Env) (files : Files) (s : Scan) :
    Except ReindexError (Files × List (Key × PresentFile)) :=
  match s.candidates, env.adoptionError with
  | _ :: _, some error => .error (.adoption error)
  | candidates, _ =>
    (env.adoptPresent s.present candidates).map (env.adoptFiles files candidates, ·)

end Kajet.Reindex
