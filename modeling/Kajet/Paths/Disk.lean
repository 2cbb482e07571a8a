import Kajet.Lib.Table
import Kajet.Links.Index

/-!
# The files of a workspace

A file has its path below the workspace; the directories are there by themselves, so that an empty
one stays.  A path that a directory has, or that runs through a file, is an `OSError`.

* `Disk.write`, `Disk.relocate`, `Disk.moveTree`   one file written, one moved, a directory moved;
* `file_write`, `file_relocate`, `file_moveTree`   what is read afterwards.
-/

namespace Kajet.Paths
open Str Table Links

/-- `tags` and `content` are what the operations write along; dates and extras are left out. -/
structure NoteFile where
  path : Text
  noteId : Option String
  title : Option Text
  tags : List Text
  content : Text
deriving DecidableEq

structure Disk where
  files : List NoteFile
  dirs : List Text
deriving DecidableEq

inductive DiskError where
  /-- `FileExistsError` -/
  | fileExists (path : Text)
  /-- a directory has the path, or a file is on the way to it -/
  | osError (path : Text)
deriving DecidableEq

/-- The directories on the way to a path, the topmost first. -/
def parents (path : Text) : List Text :=
  let segments := pathSegments path
  (List.range (segments.length - 1)).map fun i => join '/' (segments.take (i + 1))

def inTree (dir path : Text) : Bool := (dir ++ ['/']).isPrefixOf path

namespace Disk

def file (d : Disk) (path : Text) : Option NoteFile := row NoteFile.path d.files path

def isDir (d : Disk) (path : Text) : Bool :=
  path ∈ d.dirs || d.files.any fun f => inTree path f.path

/-- `Path.exists` -/
def has (d : Disk) (path : Text) : Bool := (d.file path).isSome || d.isDir path

def makeParents (d : Disk) (path : Text) : Except DiskError Disk :=
  match d.files.find? fun f => inTree f.path path with
  | some f => .error (.osError f.path)
  | none => .ok { d with dirs := d.dirs ++ (parents path).filter (· ∉ d.dirs) }

/-- `write_note_file` -/
def write (d : Disk) (f : NoteFile) : Except DiskError Disk := do
  let d ← d.makeParents f.path
  if d.isDir f.path then .error (.osError f.path)
  else return { d with files := f :: deleteWhere (fun g => g.path = f.path) d.files }

def writeAll : List NoteFile → Disk → Except DiskError Disk
  | [], d => .ok d
  | f :: fs, d => do writeAll fs (← d.write f)

def unlink (d : Disk) (path : Text) : Disk :=
  { d with files := deleteWhere (fun g => g.path = path) d.files }

/-- The file at `old` goes to a temporary name, `f` is written at its own path. -/
def relocate (d : Disk) (old : Text) (f : NoteFile) : Except DiskError Disk :=
  let d := d.unlink old
  if d.has f.path then .error (.fileExists f.path) else d.write f

/-! ## a directory -/

/-- Where a file below `src` goes: the note files have their targets, any other keeps its place and
gives way to a file that is there. -/
def carry (src dst : Text) (targets : List (Text × Text)) : List NoteFile → Disk → Except DiskError Disk
  | [], d => .ok d
  | f :: fs, d =>
    match targets.lookup f.path with
    | some target =>
      if d.has target then .error (.fileExists target)
      else do carry src dst targets fs (← d.write { f with path := target })
    | none =>
      let target := joinTarget dst (f.path.drop (src.length + 1))
      if d.has target then carry src dst targets fs d
      else do carry src dst targets fs (← d.write { f with path := target })

/-- `src` is renamed to the unused name `tmp`, what is below it goes to `dst`, and `tmp` is removed
as a directory. -/
def moveTree (d : Disk) (src dst tmp : Text) (targets : List (Text × Text)) :
    Except DiskError Disk :=
  if d.has tmp then .error (.fileExists tmp)
  else if d.isDir src then
    carry src dst targets (d.files.filter fun f => inTree src f.path)
      ⟨deleteWhere (fun f => inTree src f.path) d.files,
        deleteWhere (fun dir => dir = src || inTree src dir) d.dirs⟩
  else match d.file src with
  | some f =>
    -- there is nothing below a file, and `rmtree` leaves it under its temporary name
    .ok { d with files := { f with path := tmp } :: deleteWhere (fun g => g.path = src) d.files }
  | none => .ok d

/-! ## empty directories -/

def isEmptyDir (d : Disk) (dir : Text) : Bool :=
  dir ∈ d.dirs && !(d.files.any fun f => inTree dir f.path) && !(d.dirs.any fun e => inTree dir e)

/-- `prune_empty_parents`, from the innermost directory on -/
def pruneEmptyParents : List Text → Disk → Disk
  | [], d => d
  | dir :: above, d =>
    if d.isEmptyDir dir then pruneEmptyParents above { d with dirs := deleteWhere (· = dir) d.dirs }
    else d

/-- The directories of a folder, the innermost first. -/
def folderDirs (folder : Text) : List Text :=
  if folder = [] then [] else folder :: (parents folder).reverse

/-- `remove_empty_tree`: the directories from `folder` on that hold no file, then its empty parents. -/
def removeEmptyTree (d : Disk) (folder : Text) : Disk :=
  pruneEmptyParents (folderDirs folder).tail
    { d with dirs := deleteWhere (fun dir => (dir = folder || inTree folder dir) &&
      !(d.files.any fun f => inTree dir f.path)) d.dirs }

end Disk

/-! ## what is read -/

section
variable {d d' : Disk} {f g : NoteFile} {fs : List NoteFile} {old path p src dst tmp : Text}
  {targets : List (Text × Text)}

@[simp] theorem file_unlink : (d.unlink path).file p = if p = path then none else d.file p := by
  show row NoteFile.path (deleteWhere _ d.files) p = _
  rw [row, deleteWhere, List.find?_filter]
  split
  · rename_i h
    refine List.find?_eq_none.mpr fun g _ hg => ?_
    simp [h] at hg
  · rename_i h
    refine congrArg (List.find? · d.files) (funext fun g => ?_)
    by_cases hg : g.path = p
    · simp [hg, h]
    · simp [hg]

theorem file_makeParents (h : d.makeParents path = .ok d') : d'.files = d.files := by
  unfold Disk.makeParents at h
  split at h
  · cases h
  · cases h
    rfl

theorem isDir_of_file (hf : d.file p = some f) (hin : inTree src p = true) : d.isDir src = true := by
  obtain ⟨hmem, rfl⟩ := row_some hf
  rw [Disk.isDir, Bool.or_eq_true]
  exact .inr (List.any_eq_true.mpr ⟨f, hmem, hin⟩)

theorem file_write (h : d.write f = .ok d') : d'.file p = if p = f.path then some f else d.file p := by
  obtain ⟨e, he, h⟩ := bind_ok h
  split at h
  · cases h
  · cases h
    have hunlink : row NoteFile.path (deleteWhere (fun g => g.path = f.path) e.files) p =
        (d.unlink f.path).file p := by
      rw [file_makeParents he]
      rfl
    show row NoteFile.path (f :: deleteWhere _ e.files) p = _
    rw [row, List.find?_cons]
    split
    · rename_i hp
      rw [if_pos (of_decide_eq_true hp).symm]
    · rename_i hp
      have hne : p ≠ f.path := fun heq => of_decide_eq_false hp heq.symm
      show row NoteFile.path _ p = _
      rw [hunlink, file_unlink]
      simp [hne]

theorem file_relocate (h : d.relocate old f = .ok d') :
    d'.file p = if p = f.path then some f else if p = old then none else d.file p := by
  unfold Disk.relocate at h
  dsimp only at h
  split at h
  · cases h
  · rw [file_write h, file_unlink]

theorem file_has (h : d.file p = some f) : d.has p = true := by
  rw [Disk.has, h]
  rfl

theorem file_write_of_some (h : d.write f = .ok d') (hfree : d.has f.path = false)
    (hg : d.file p = some g) : d'.file p = some g := by
  have hne : p ≠ f.path := by
    rintro rfl
    rw [file_has hg] at hfree
    cases hfree
  rw [file_write h, if_neg hne, hg]

/-- What is there when a directory arrives stays there. -/
theorem carry_keeps (h : d.carry src dst targets fs = .ok d') (hg : d.file p = some g) :
    d'.file p = some g := by
  induction fs generalizing d with
  | nil =>
    cases h
    exact hg
  | cons f fs ih =>
    unfold Disk.carry at h
    split at h
    · split at h
      · cases h
      · rename_i hfree
        obtain ⟨e, he, h⟩ := bind_ok h
        exact ih h (file_write_of_some he (Bool.eq_false_of_not_eq_true hfree) hg)
    · dsimp only at h
      split at h
      · exact ih h hg
      · rename_i hfree
        obtain ⟨e, he, h⟩ := bind_ok h
        exact ih h (file_write_of_some he (Bool.eq_false_of_not_eq_true hfree) hg)

theorem carry_target (h : d.carry src dst targets fs = .ok d') (hf : f ∈ fs)
    (htarget : targets.lookup f.path = some p) : d'.file p = some { f with path := p } := by
  induction fs generalizing d with
  | nil => cases hf
  | cons g fs ih =>
    unfold Disk.carry at h
    rcases List.mem_cons.mp hf with rfl | hf
    · rw [htarget] at h
      dsimp only at h
      split at h
      · cases h
      · obtain ⟨e, he, h⟩ := bind_ok h
        exact carry_keeps h (by rw [file_write he, if_pos rfl])
    · split at h
      · split at h
        · cases h
        · obtain ⟨e, _, h⟩ := bind_ok h
          exact ih h hf
      · dsimp only at h
        split at h
        · exact ih h hf
        · obtain ⟨e, _, h⟩ := bind_ok h
          exact ih h hf

/-- A directory moves: the note files below it are at their targets, the other files stay. -/
theorem file_moveTree (h : d.moveTree src dst tmp targets = .ok d') (hdir : d.isDir src = true)
    (hf : d.file path = some f) :
    (inTree src path = false → d'.file path = some f) ∧
      (inTree src path = true → targets.lookup path = some p →
        d'.file p = some { f with path := p }) := by
  obtain ⟨hmem, hpath⟩ := row_some hf
  unfold Disk.moveTree at h
  rw [hdir] at h
  split at h
  · cases h
  constructor
  · intro hout
    refine carry_keeps h ?_
    show row NoteFile.path (deleteWhere _ d.files) path = some f
    rw [row, deleteWhere, List.find?_filter, ← hf]
    refine congrArg (List.find? · d.files) (funext fun g => ?_)
    by_cases hg : g.path = path
    · simp [hg, hout]
    · simp [hg]
  · intro hin htarget
    rw [← hpath] at hin htarget
    exact carry_target h (List.mem_filter.mpr ⟨hmem, hin⟩) htarget

/-- Where there is no directory, at most the file at its path moves. -/
theorem file_moveTree_of_not (h : d.moveTree src dst tmp targets = .ok d')
    (hdir : d.isDir src = false) (hf : d.file path = some f) (hne : path ≠ src) :
    d'.file path = some f := by
  unfold Disk.moveTree at h
  rw [hdir, if_neg Bool.false_ne_true] at h
  split at h
  · cases h
  rename_i htmp
  split at h
  · cases h
    have hne' : tmp ≠ path := by
      rintro rfl
      exact htmp (file_has hf)
    show row NoteFile.path (_ :: deleteWhere _ d.files) path = _
    rw [row, List.find?_cons_of_neg (by simpa using hne')]
    show (d.unlink src).file path = _
    rw [file_unlink, if_neg hne, hf]
  · cases h
    exact hf

theorem files_pruneEmptyParents {above : List Text} : (Disk.pruneEmptyParents above d).files = d.files := by
  induction above generalizing d with
  | nil => rfl
  | cons dir above ih =>
    unfold Disk.pruneEmptyParents
    split
    · exact ih
    · rfl

@[simp] theorem file_pruneEmptyParents {above : List Text} :
    (Disk.pruneEmptyParents above d).file p = d.file p := by
  rw [Disk.file, files_pruneEmptyParents]
  rfl

@[simp] theorem file_removeEmptyTree : (d.removeEmptyTree path).file p = d.file p :=
  file_pruneEmptyParents

end
end Kajet.Paths
