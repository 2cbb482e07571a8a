import Kajet.Frontmatter.Temporal

/-!
# Note files: reading and writing the frontmatter

`Metadata` is what the YAML of a file says (an absent key reads as null; the other keys, the extras,
are left out).  `parseFrontmatter` is the one reader, `NoteFrontmatter.written` what a write leaves.

* `parse_written`   what was written is read back, nothing dropped;
* `Files`           the note files of a workspace, by their paths.
-/

namespace Kajet.Frontmatter
open Str Table

structure Metadata where
  id : Yaml
  title : Yaml
  tags : Yaml
  createdAt : Yaml
  updatedAt : Yaml
  occurredAt : Yaml
  period : Yaml

structure NoteFrontmatter where
  id : Yaml
  title : Yaml
  tags : List Yaml
  createdAt : Yaml
  updatedAt : Yaml
  temporal : Temporal

/-- Only a list is a valid `tags` value. -/
def listOf : Yaml → List Yaml
  | .seq items => items
  | _ => []

def parseFrontmatter (m : Metadata) : NoteFrontmatter where
  id := m.id
  title := m.title
  tags := listOf m.tags
  createdAt := m.createdAt
  updatedAt := m.updatedAt
  temporal := parseTemporal m.occurredAt m.period

/-- `write_note_file` -/
def NoteFrontmatter.written (fm : NoteFrontmatter) : Metadata where
  id := fm.id
  title := fm.title
  tags := .seq fm.tags
  createdAt := fm.createdAt
  updatedAt := fm.updatedAt
  occurredAt := ofField fm.temporal.occurredAt
  period := ofField fm.temporal.period

/-- The same fields; what was dropped is no longer in the file. -/
def Temporal.settled (t : Temporal) : Temporal := { t with occurredAtDropped := false, periodDropped := false }

theorem parseTemporal_ofField (t : Temporal) :
    parseTemporal (ofField t.occurredAt) (ofField t.period) = t.settled := by
  have hmake : Temporal.make (parseSoft (.ok t.occurredAt)).1 (parseSoft (.ok t.period)).1
      (parseSoft (.ok t.occurredAt)).2 (parseSoft (.ok t.period)).2 = .ok t.settled := by
    show Temporal.make t.occurredAt t.period false false = _
    unfold Temporal.make
    split
    · rename_i e he
      rw [t.valid] at he
      cases he
    · rename_i r hr
      rw [t.valid] at hr
      cases hr
      rw [dif_pos rfl]
      rfl
  unfold parseTemporal
  dsimp only
  rw [t.canonical.occurredAt, t.canonical.period, hmake]

theorem parse_written (fm : NoteFrontmatter) :
    parseFrontmatter fm.written = { fm with temporal := fm.temporal.settled } := by
  rw [parseFrontmatter, NoteFrontmatter.written, parseTemporal_ofField]
  rfl

/-! ## the files -/

inductive Document where
  /-- the YAML does not parse, or the file cannot be read -/
  | unreadable
  | post (m : Metadata) (content : Text)

structure File where
  path : Text
  document : Document

abbrev Files := List File

namespace Files

def read (files : Files) (path : Text) : Option Document := (row File.path files path).map (·.document)

def put (files : Files) (path : Text) (document : Document) : Files :=
  ⟨path, document⟩ :: deleteWhere (fun f => f.path = path) files

def remove (files : Files) (path : Text) : Files := deleteWhere (fun f => f.path = path) files

variable {files : Files} {path p : Text} {document : Document}

theorem read_remove : (files.remove path).read p = if p = path then none else files.read p := by
  show Option.map _ (row File.path (deleteWhere _ files) p) = _
  rw [row, deleteWhere, List.find?_filter]
  split
  · rename_i h
    rw [List.find?_eq_none.mpr]
    · rfl
    · intro f _ hf
      simp [h] at hf
  · rename_i h
    refine congrArg (fun q => Option.map File.document (List.find? q files)) (funext fun f => ?_)
    by_cases hf : f.path = p
    · simp [hf, h]
    · simp [hf]

theorem read_put : (files.put path document).read p = if p = path then some document else files.read p := by
  show Option.map _ (row File.path (_ :: _) p) = _
  rw [row, List.find?_cons]
  split
  · rename_i h
    rw [if_pos (of_decide_eq_true h).symm]
    rfl
  · rename_i h
    have hne : p ≠ path := fun heq => of_decide_eq_false h heq.symm
    show Option.map _ (row File.path (deleteWhere _ files) p) = _
    rw [if_neg hne]
    exact read_remove.trans (if_neg hne)

end Files
end Kajet.Frontmatter
