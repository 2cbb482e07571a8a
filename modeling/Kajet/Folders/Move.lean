import Kajet.Folders.Scope
import Kajet.Lib.FileTree

/-!
# Moving a folder on the disk

`move_folder` renames the source to a temporary directory, brings its files one by one to their
targets and removes what is left.  A failure on the way is undone file by file; then the temporary
directory gets its old name back.

* `Faults`            what the system refuses while files are moved;
* `carry`, `undo`     the loop over the files, and its undoing;
* `moveTree`          the disk, `moveFolder` the rows and the commits with it;
* `target_eq`         a file goes to the destination with its path below the source.
-/

namespace Kajet.Folders
open Str Table Links Files Fallible

abbrev Path := List Text

/-- What the system refuses: to look at the target of a file, to create a directory, to rename a
file. -/
structure Faults where
  check : Path → Bool
  makeDir : Path → Bool
  rename : Path → Bool

/-- The locals of the loop. -/
structure Carried (β : Type) where
  tree : FileTree Text β
  done : List (Path × Path)
  added : List Path

section
variable {β : Type} (faults : Faults) (targets : List (Path × Path)) (dst tmp : Path)

/-- The file goes from the temporary directory to `dest`. -/
def place (rel dest : Path) (c : Carried β) : Carried β × Option (FileError Text) :=
  match c.tree.makeDirs faults.makeDir dest.dropLast with
  | (tree, some e) => ({ c with tree := tree }, some e)
  | (tree, none) =>
    if faults.rename rel then ({ c with tree := tree }, some (.refused rel))
    else
      match tree.rename (tmp ++ rel) dest with
      | .error e => ({ c with tree := tree }, some e)
      | .ok tree => (⟨tree, c.done ++ [(tmp ++ rel, dest)], c.added ++ [dest]⟩, none)

/-- One file of the source: that of a note must have a free target, any other gives way. -/
def carryFile (rel : Path) (c : Carried β) : Carried β × Option (FileError Text) :=
  if faults.check rel then (c, some (.refused rel))
  else
    match targets.lookup rel with
    | some dest => if c.tree.has dest then (c, some (.exists dest)) else place faults tmp rel dest c
    | none => if c.tree.has (dst ++ rel) then (c, none) else place faults tmp rel (dst ++ rel) c

/-- The loop; a failure comes with the file at which it happened. -/
def carry : List Path → Carried β → Carried β × Option (Path × FileError Text)
  | [], c => (c, none)
  | rel :: rels, c =>
    match carryFile faults targets dst tmp rel c with
    | (c, some e) => (c, some (rel, e))
    | (c, none) => carry rels c

/-- `for src_file, dest in reversed(done)`, on the reversed list -/
def undo : List (Path × Path) → FileTree Text β → FileTree Text β × Option (FileError Text)
  | [], t => (t, none)
  | (srcFile, dest) :: done, t =>
    match t.makeDirs (fun _ => false) srcFile.dropLast with
    | (t, some e) => (t, some e)
    | (t, none) =>
      match t.rename dest srcFile with
      | .error e => (t, some e)
      | .ok t => undo done t

end

inductive TreeError where
  /-- the source cannot be set aside -/
  | source (e : FileError Text)
  /-- at `rel` the loop raised `cause`; the undoing may raise as well -/
  | moving (rel : Path) (cause : FileError Text) (undoing : Option (FileError Text))

/-- `files` is `src_root.rglob("*")`, the files below the source.  The result is `added_rels`. -/
def moveTree {β : Type} (faults : Faults) (targets : List (Path × Path)) (src dst tmp : Path)
    (files : List Path) (t : FileTree Text β) : FileTree Text β × Except TreeError (List Path) :=
  if t.has src = false then (t, .ok [])
  else
    match t.rename src tmp with
    | .error e => (t, .error (.source e))
    | .ok aside =>
      match carry faults targets dst tmp files ⟨aside, [], []⟩ with
      | (c, none) => (c.tree.removeTree tmp, .ok c.added)
      | (c, some (rel, cause)) =>
        match undo c.done.reverse c.tree with
        | (t, some e) => (t, .error (.moving rel cause (some e)))
        | (t, none) =>
          match t.rename tmp src with
          | .error e => (t, .error (.moving rel cause (some e)))
          | .ok t => (t, .error (.moving rel cause none))

/-! ## the rows -/

structure Commit where
  removed : List Path
  added : List Path
deriving DecidableEq

/-- The workspace: its rows, its files and what has been committed. -/
structure Store (β : Type) where
  rows : List IndexedNote
  tree : FileTree Text β
  commits : List Commit

inductive FolderError where
  | identity (e : MoveError)
  | notFound (folder : Text)
  /-- `relative_to` of a note that `LIKE` found in another letter case -/
  | notUnder (path : Path)
  | tree (e : TreeError)

/-- The segments of a note's file: `notePath` joins them. -/
def noteFile (n : IndexedNote) : Path :=
  (pathSegments n.folder).filter (· ≠ ['.']) ++ [titleToWindowsFilename n.title ++ ".md".toList]

/-- `relative_to` -/
def relativeTo (root path : Path) : Except FolderError Path :=
  if root.isPrefixOf path then .ok (path.drop root.length) else .error (.notUnder path)

/-- `note_targets`: the path below the source, and the new path. -/
def noteTargets (src dst : Text) (notes : List IndexedNote) : Except FolderError (List (Path × Path)) :=
  notes.mapM fun n => do
    let underSrc ← relativeTo (pathSegments src) (noteFile n)
    return (underSrc, noteFile (remap src dst n))

structure Plan where
  src : Text
  dst : Text
  targets : List (Path × Path)
deriving DecidableEq

/-- The checks before anything is moved; without a plan there is nothing to do. -/
def preflight {β : Type} (env : LinkEnv) (st : Store β) (src dst : Text) :
    Except FolderError (Option Plan) := do
  let src ← (normalizedFolder src).mapError FolderError.identity
  let dst ← (normalizedFolder dst).mapError FolderError.identity
  if src = [] then .error (.identity .rootFolder)
  else if dst = src then return none
  else if (src ++ ['/']).isPrefixOf dst then .error (.identity .intoItself)
  else
    let notes := st.rows.filter (underFolder src)
    if notes = [] ∧ st.tree.has (pathSegments src) = false then .error (.notFound src)
    else if moveFolderMaxNotes < notes.length then .error (.identity (.tooManyNotes notes.length))
    else
      let taken := (st.rows.filter fun n => n.noteId ∉ notes.map (·.noteId)).map env.pathConflictKey
      match env.folderConflicts taken (notes.map (remap src dst)) [] with
      | _ :: _ => .error (.identity (.destinationConflicts
          (env.folderConflicts taken (notes.map (remap src dst)) [])))
      | [] => return some ⟨src, dst, ← noteTargets src dst notes⟩

/-- `move_folder` up to the rewriting of the backlinks; `tmp` is the name that `token_hex` gives. -/
def moveFolder {β : Type} (env : LinkEnv) (faults : Faults) (st : Store β) (src dst tmp : Text)
    (files : List Path) : Store β × Except FolderError Unit :=
  match preflight env st src dst with
  | .error e => (st, .error e)
  | .ok none => (st, .ok ())
  | .ok (some p) =>
    match moveTree faults p.targets (pathSegments p.src) (pathSegments p.dst) [tmp] files st.tree with
    | (tree, .error e) => ({ st with tree := tree }, .error (.tree e))
    | (tree, .ok added) =>
      ({ rows := updateWhere (underFolder p.src) (remap p.src p.dst) st.rows
         tree := tree
         commits := st.commits ++ [⟨files.map (pathSegments p.src ++ ·), added⟩] }, .ok ())

/-! ## the target of a file -/

section
variable {src dst p r : Text} {n : IndexedNote} {rel : Path}

theorem map_join (f : Char → Char) (c : Char) (l : List Text) :
    (join c l).map f = join (f c) (l.map fun s => s.map f) := by
  induction l with
  | nil => rfl
  | cons q l ih =>
    cases l with
    | nil => simp
    | cons s l =>
      simp only [List.map_cons, join_cons_cons, List.map_append] at ih ⊢
      rw [ih]

/-- The letter case does not show in the slashes. -/
theorem pathSegments_toLower (p : Text) :
    pathSegments (p.map Char.toLower) = (pathSegments p).map fun s => s.map Char.toLower := by
  have hsplit : split '/' (p.map Char.toLower) = (split '/' p).map fun s => s.map Char.toLower := by
    conv_lhs => rw [← join_split (c := '/') (s := p)]
    rw [map_join, show Char.toLower '/' = '/' by decide, split_join]
    · simp [split]
    · intro q hq hslash
      obtain ⟨s, hs, rfl⟩ := List.mem_map.mp hq
      obtain ⟨c, hc, hlower⟩ := List.mem_map.mp hslash
      exact notMem_of_mem_split hs (toLower_eq_slash.mp hlower ▸ hc)
  rw [pathSegments, pathSegments, hsplit, List.filter_map]
  refine congrArg _ (List.filter_congr fun s _ => ?_)
  simp

theorem pathSegments_dropSlashes (r : Text) : pathSegments (r.dropWhile (· = '/')) = pathSegments r := by
  induction r with
  | nil => rfl
  | cons c r ih =>
    by_cases hc : c = '/'
    · rw [List.dropWhile_cons_of_pos (by simpa using hc), ih, hc]
      exact (Tags.pathSegments_append (p := []) (q := r)).symm
    · rw [List.dropWhile_cons_of_neg (by simpa using hc)]

theorem no_dots (h : Paths.Normalized src) : (pathSegments src).filter (· ≠ ['.']) = pathSegments src := by
  refine List.filter_eq_self.mpr fun q hq => decide_eq_true ?_
  obtain ⟨raw, _, _, _, rfl⟩ := h.segments.2 q hq
  exact Paths.titleToWindowsFilename_ne_dot raw

/-- What `LIKE` finds: the folder up to letter case, and then nothing or a slash. -/
theorem underFolder_split (h : underFolder src n = true) : ∃ p rest, n.folder = p ++ rest ∧
    p.map Char.toLower = src.map Char.toLower ∧ (rest = [] ∨ rest.head? = some '/') := by
  rw [underFolder, Bool.or_eq_true, decide_eq_true_eq, List.isPrefixOf_iff_prefix] at h
  rcases h with h | ⟨r, hr⟩
  · exact ⟨src, [], by rw [h, List.append_nil], rfl, .inl rfl⟩
  · rw [List.map_append, List.append_assoc] at hr
    obtain ⟨p, rest, hfolder, hp, hrest⟩ := List.map_eq_append_iff.mp hr.symm
    refine ⟨p, rest, hfolder, hp, .inr ?_⟩
    cases rest with
    | nil => cases hrest
    | cons c rest =>
      have hlower : c.toLower = '/' := (List.cons.inj hrest).1
      rw [List.head?_cons, toLower_eq_slash.mp hlower]

theorem pathSegments_rest {rest : Text} (h : rest = [] ∨ rest.head? = some '/') (p : Text) :
    pathSegments (p ++ rest) = pathSegments p ++ pathSegments rest := by
  rcases h with rfl | h
  · rw [List.append_nil, show pathSegments [] = [] from rfl, List.append_nil]
  · obtain ⟨r, rfl⟩ := List.head?_eq_some_iff.mp h
    rw [Tags.pathSegments_append, show '/' :: r = [] ++ '/' :: r from rfl, Tags.pathSegments_append]
    rfl

theorem pathSegments_joined (d r : Text) :
    pathSegments (join '/' ([d, r].filter (· ≠ []))) = pathSegments d ++ pathSegments r := by
  by_cases hd : d = []
  · by_cases hr : r = []
    · subst hd hr
      rfl
    · subst hd
      simp [hr, show pathSegments [] = [] from rfl]
  · by_cases hr : r = []
    · subst hr
      simp [hd, show pathSegments [] = [] from rfl]
    · simp [hd, hr, Tags.pathSegments_append]

theorem pathSegments_remap {rest : Text} (hfolder : n.folder = p ++ rest) (hlen : p.length = src.length) :
    pathSegments (remap src dst n).folder = pathSegments dst ++ pathSegments rest := by
  have hdrop : n.folder.drop src.length = rest := by rw [hfolder, ← hlen, List.drop_left]
  show pathSegments (join '/' ([dst, (n.folder.drop src.length).dropWhile _].filter _)) = _
  rw [hdrop, pathSegments_joined, pathSegments_dropSlashes]

/-- A note's new file is at the destination, with its path below the source. -/
theorem noteFile_remap (hsrc : Paths.Normalized src) (hdst : Paths.Normalized dst)
    (hn : underFolder src n = true) (hrel : noteFile n = pathSegments src ++ rel) :
    noteFile (remap src dst n) = pathSegments dst ++ rel := by
  obtain ⟨p, rest, hfolder, hlower, hrest⟩ := underFolder_split hn
  have hcases : (pathSegments p).map (fun s => s.map Char.toLower) =
      (pathSegments src).map fun s => s.map Char.toLower := by
    rw [← pathSegments_toLower, ← pathSegments_toLower, hlower]
  have hdots : (pathSegments p).filter (· ≠ ['.']) = pathSegments p := by
    refine List.filter_eq_self.mpr fun q hq => decide_eq_true ?_
    rintro rfl
    have hmem : ['.'].map Char.toLower ∈ (pathSegments src).map fun s => s.map Char.toLower :=
      hcases ▸ List.mem_map_of_mem hq
    obtain ⟨s, hs, hdot⟩ := List.mem_map.mp hmem
    obtain ⟨c, rfl⟩ : ∃ c, s = [c] := List.length_eq_one_iff.mp (by simpa using congrArg List.length hdot)
    have hc : c = '.' := (toLower_eq_iff (by decide)).mp (by simpa using hdot)
    rw [← no_dots hsrc, hc] at hs
    simpa using (List.mem_filter.mp hs).2
  have hfile : noteFile n = pathSegments p ++ ((pathSegments rest).filter (· ≠ ['.']) ++
      [titleToWindowsFilename n.title ++ ".md".toList]) := by
    rw [noteFile, hfolder, pathSegments_rest hrest, List.filter_append, hdots, List.append_assoc]
  rw [hfile] at hrel
  obtain ⟨_, rfl⟩ := List.append_inj hrel (by simpa using congrArg List.length hcases)
  have hlen : p.length = src.length := by simpa using congrArg List.length hlower
  rw [noteFile, pathSegments_remap hfolder hlen, List.filter_append, no_dots hdst, List.append_assoc]
  rfl

theorem noteTargets_eq {notes : List IndexedNote} {targets : List (Path × Path)}
    (hsrc : Paths.Normalized src) (hdst : Paths.Normalized dst)
    (hnotes : ∀ n ∈ notes, underFolder src n = true) (h : noteTargets src dst notes = .ok targets) :
    ∀ x ∈ targets, x.2 = pathSegments dst ++ x.1 := by
  intro x hx
  obtain ⟨n, hn, hx⟩ := mem_of_mapM_ok h hx
  obtain ⟨rel, hrel, hx⟩ := bind_ok hx
  cases hx
  unfold relativeTo at hrel
  split at hrel
  · rename_i hprefix
    cases hrel
    obtain ⟨r, hr⟩ := List.isPrefixOf_iff_prefix.mp hprefix
    rw [noteFile_remap hsrc hdst (hnotes n hn) hr.symm, ← hr, List.drop_left]
  · cases hrel

/-- What a plan has passed. -/
theorem preflight_ok {β : Type} {env : LinkEnv} {st : Store β} {plan : Plan}
    (h : preflight env st src dst = .ok (some plan)) :
    Paths.Normalized plan.src ∧ Paths.Normalized plan.dst ∧ plan.src ≠ [] ∧
      ∀ x ∈ plan.targets, x.2 = pathSegments plan.dst ++ x.1 := by
  obtain ⟨src', hsrc, h⟩ := bind_ok h
  obtain ⟨dst', hdst, h⟩ := bind_ok h
  have hsrc' := Paths.normalized_of_ok (mapError_ok hsrc)
  have hdst' := Paths.normalized_of_ok (mapError_ok hdst)
  split at h
  · cases h
  rename_i hroot
  split at h
  · cases h
  split at h
  · cases h
  dsimp only at h
  split at h
  · cases h
  split at h
  · cases h
  split at h
  · cases h
  · obtain ⟨targets, htargets, h⟩ := bind_ok h
    cases h
    exact ⟨hsrc', hdst', hroot, noteTargets_eq hsrc' hdst' (fun n hn => (List.mem_filter.mp hn).2) htargets⟩

theorem target_eq {targets : List (Path × Path)} {d dest : Path} (h : ∀ x ∈ targets, x.2 = d ++ x.1)
    (hlookup : targets.lookup rel = some dest) : dest = d ++ rel := by
  obtain ⟨l₁, l₂, rfl, _⟩ := List.lookup_eq_some_iff.mp hlookup
  exact h (rel, dest) (by simp)

end
end Kajet.Folders
