import Kajet.Lib.Like
import Kajet.Lib.Rank
import Kajet.Lib.Fallible
import Kajet.Paths.Vault
import Kajet.Reindex.Rows
import Kajet.Tags.Table

/-!
# Folders and what is under them

Notes and folder metadata carry the path of their folder.  Five queries ask for a folder with its
descendants; each writes the condition as an equality or a `LIKE` on an escaped prefix.

* `inFolder`, `under`      the condition of the queries, and what it stands for;
* `listUnderFolder`, `noteIdsUnderFolder`, `entriesIn`, `tagCounts`, `exportFolder`, `renamePaths`;
* `Confused`               a folder that differs from a descendant in the case of letters only;
* `scoped_iff`             the queries are exact when no folder is confused with a descendant.
-/

namespace Kajet.Folders
open Str Rank Table Links Reindex Fallible

/-! ## the condition -/

/-- `(col == folder) | col.startswith(folder + "/", autoescape=True)` -/
def inFolder (folder path : Text) : Bool :=
  path = folder || Like.like '/' (Like.startsWith '/' (folder ++ ['/'])) path

/-- The folder is `folder` or below it; everything is below the root. -/
def under (folder path : Text) : Bool :=
  folder = [] || path = folder || (folder ++ ['/']).isPrefixOf path

/-- The path is told from one under the folder by the case of letters only; under the root, it is any other. -/
def Confused (folder path : Text) : Prop :=
  if folder = [] then path ≠ [] ∧ path.head? ≠ some '/'
  else (folder ++ ['/']).map Char.toLower <+: path.map Char.toLower ∧ ¬ folder ++ ['/'] <+: path

theorem inFolder_eq (folder path : Text) : inFolder folder path =
    (path = folder || ((folder ++ ['/']).map Char.toLower).isPrefixOf (path.map Char.toLower)) := by
  rw [inFolder]
  congr 1
  exact Bool.eq_iff_iff.mpr (Like.like_startsWith ⟨by decide, by decide⟩)

/-- Lowering a letter gives no character in front of the letters. -/
theorem toLower_eq_iff {c d : Char} (hd : d.toNat < 65) : c.toLower = d ↔ c = d := by
  unfold Char.toLower
  split
  · rename_i hupper
    have hge := UInt32.le_iff_toNat_le.mp hupper.1
    constructor
    · intro h
      have hval := congrArg (UInt32.toNat ∘ Char.val) h
      have hle := UInt32.le_iff_toNat_le.mp hupper.2
      simp at hval hge hle
      omega
    · rintro rfl
      simp at hge
      omega
  · exact Iff.rfl

theorem toLower_eq_slash {c : Char} : c.toLower = '/' ↔ c = '/' := toLower_eq_iff (by decide)

theorem slash_prefix_iff {path : Text} : ['/'] <+: path.map Char.toLower ↔ path.head? = some '/' := by
  cases path with
  | nil => simp
  | cons c path =>
    rw [List.map_cons, List.cons_prefix_cons, eq_comm, toLower_eq_slash]
    simp

theorem inFolder_eq_under_iff {folder path : Text} :
    inFolder folder path = under folder path ↔ ¬ Confused folder path := by
  rw [inFolder_eq]
  by_cases hroot : folder = []
  · subst hroot
    have hslash : (([] ++ ['/'] : Text).map Char.toLower).isPrefixOf (path.map Char.toLower) =
        decide (path.head? = some '/') := by
      rw [Bool.eq_iff_iff, List.isPrefixOf_iff_prefix, decide_eq_true_eq]
      exact slash_prefix_iff
    rw [hslash, Confused, if_pos rfl, under]
    by_cases hpath : path = [] <;> simp [hpath]
  · rw [Confused, if_neg hroot, under]
    have hprefix : (folder ++ ['/']).isPrefixOf path = true →
        ((folder ++ ['/']).map Char.toLower).isPrefixOf (path.map Char.toLower) = true := by
      rw [List.isPrefixOf_iff_prefix, List.isPrefixOf_iff_prefix]
      exact fun h => h.map Char.toLower
    have hself : path = folder → ¬ ((folder ++ ['/']).map Char.toLower).isPrefixOf (path.map Char.toLower) = true := by
      rintro rfl h
      have hlength := (List.isPrefixOf_iff_prefix.mp h).length_le
      simp at hlength
    have hbool : ∀ eq lower exact : Bool, (exact = true → lower = true) → (eq = true → ¬ lower = true) →
        ((eq || lower) = (false || eq || exact) ↔ ¬ (lower = true ∧ ¬ exact = true)) := by decide
    rw [← List.isPrefixOf_iff_prefix, ← List.isPrefixOf_iff_prefix, decide_eq_false hroot]
    exact hbool _ _ _ hprefix fun h => hself (of_decide_eq_true h)

/-! ## the queries -/

/-- The workspace, its owner, and what is not modelled: the order of an export, and the range of dates of a
period. -/
structure Library where
  workspace : String
  ownerId : String
  /-- sorting by `folder_sort_key` -/
  sorted : List Note → List Note
  /-- the first day, and the first day after it -/
  periodRange : Text → Option (Text × Text)

structure FolderMeta where
  ownerId : String
  workspace : String
  path : Text
  description : Text
  instructions : Text
  updatedAt : Text
deriving DecidableEq

structure Db extends Tags.Db where
  notes : List Note
  metas : List FolderMeta

section
variable (lib : Library) (db : Db)

def Library.owns (n : Note) : Bool := n.workspace = lib.workspace && n.ownerId = lib.ownerId

def Library.scope : Tags.Scope := ⟨lib.workspace, lib.ownerId⟩

def Library.listUnderFolder (folder : Text) : List Note :=
  db.notes.filter fun n => lib.owns n && inFolder folder n.folder

def Library.noteIdsUnderFolder (folder : Text) : Finset String :=
  ((db.notes.filter fun n => lib.owns n && inFolder folder n.folder).map (·.noteId)).toFinset

/-- When a note of the window begins, if it is in it. -/
def Library.beginsIn (start stop : Text) (n : Note) : Option Text :=
  match n.occurredAt with
  | some day => if start ≤ day ∧ day < stop then some day else none
  | none => do
    let range ← lib.periodRange (← n.period)
    if range.1 < stop ∧ start < range.2 then some range.1 else none

def Library.entriesIn (start stop : Text) (folder : Option Text) : List Note :=
  let rows := db.notes.filter fun n => lib.owns n &&
    ((n.occurredAt.any fun day => start ≤ day && day < stop) || n.period.isSome) &&
    folder.all fun folder => inFolder folder n.folder
  let matched := rows.filterMap fun n => (lib.beginsIn start stop n).map (·, n)
  (ranked (fun m : Text × Note => toLex (m.1, m.2.createdAt)) matched).map (·.2)

structure TagCount where
  path : Text
  name : Text
  count : Nat
deriving DecidableEq

/-- The tags of the workspace with their notes. -/
def Library.tagPairs : List (Text × String) :=
  (db.tags.filter fun t => t.scope = lib.scope).flatMap fun t =>
    (db.noteTags.filter fun nt => nt.tagId = t.id).map fun nt => (t.path, nt.noteId)

def Library.tagCounts (folder : Option Text) (includeSubfolders : Bool) : List TagCount :=
  let pairs := (lib.tagPairs db).filter fun pair => folder.all fun folder => db.notes.any fun n =>
    n.noteId = pair.2 && if includeSubfolders then inFolder folder n.folder else n.folder = folder
  let counts := (pairs.map (·.1)).dedup.map fun path => (⟨path, (rpartition '/' path).2,
    ((pairs.filter fun pair => pair.1 = path).map (·.2)).dedup.length⟩ : TagCount)
  ranked (fun c => toLex (-(c.count : Int), c.path)) counts

/-! ## export -/

structure Export where
  parts : List Text
  /-- id, title and length of the notes that are left out -/
  omitted : List (String × Text × Nat)
  totalChars : Nat
  truncated : Bool
deriving DecidableEq

def section_ (n : Note) (content : Text) : Text :=
  let tagLine := if n.tags = [] then [] else "_Tagi: ".toList ++ List.intercalate ", ".toList n.tags ++ "_\n\n".toList
  ("# ".toList ++ joinTarget n.folder n.title ++ "\n\n".toList ++ tagLine ++ content).rdropWhile isSpace ++ ['\n']

/-- One round of the loop; a file that cannot be read ends the export. -/
def Export.add (files : Frontmatter.Files) (maxChars : Nat) (e : Export) (x : Note × Nat) : Option Export :=
  match files.read (notePath x.1.toIndexedNote) with
  | none => some e
  | some .unreadable => none
  | some (.post _ content) =>
    let text := section_ x.1 content
    let truncated := e.truncated || (0 < x.2 && maxChars < e.totalChars + text.length)
    if truncated && 0 < x.2 then
      some { e with omitted := e.omitted ++ [(x.1.noteId, x.1.title, text.length)], truncated := truncated }
    else some { e with
      parts := e.parts ++ [text], totalChars := e.totalChars + text.length, truncated := truncated }

def exportNotes (files : Frontmatter.Files) (maxChars : Nat) (notes : List Note) : Option Export :=
  notes.zipIdx.foldlM (Export.add files maxChars) ⟨[], [], 0, false⟩

def Library.exportFolder (files : Frontmatter.Files) (maxChars : Nat) (folder : Text) : Option Export :=
  exportNotes files maxChars (lib.sorted (lib.listUnderFolder db folder))

/-! ## renaming -/

def Library.ownsMeta (m : FolderMeta) : Bool := m.ownerId = lib.ownerId && m.workspace = lib.workspace

def FolderMeta.renamed (src dst now : Text) (m : FolderMeta) : FolderMeta :=
  { m with path := if m.path = src then dst else dst ++ m.path.drop src.length, updatedAt := now }

/-- The rows that `rename_paths` selects. -/
def Library.metasUnder (folder : Text) : List FolderMeta :=
  db.metas.filter fun m => lib.ownsMeta m && inFolder folder m.path

/-- The row `k` when the row `m` is written: a flush writes the rows in the order of their primary keys. -/
def Library.metaAt (src dst now : Text) (m k : FolderMeta) : FolderMeta :=
  if lib.ownsMeta k && inFolder src k.path && k.path < m.path then k.renamed src dst now else k

def FolderMeta.key (m : FolderMeta) : String × String × Text := (m.ownerId, m.workspace, m.path)

/-- A row is written under the primary key that another row has at that moment. -/
def Library.renameCollides (src dst now : Text) : Bool :=
  (lib.metasUnder db src).any fun m =>
    db.metas.any fun k => k ≠ m && (lib.metaAt src dst now m k).key = (m.renamed src dst now).key

/-- `rename_paths`; two rows under one primary key are an `IntegrityError`. -/
def Library.renamePaths (src dst now : Text) : Option (List FolderMeta) :=
  if src = dst then some db.metas
  else if lib.renameCollides db src dst now then none
  else some (updateWhere (fun m => lib.ownsMeta m && inFolder src m.path) (·.renamed src dst now) db.metas)

/-! ## exactness -/

/-- What is under the folder, and nothing else. -/
def Db.restrict (folder : Text) : Db where
  tags := db.tags
  noteTags := db.noteTags.filter fun nt => db.notes.any fun n => n.noteId = nt.noteId && under folder n.folder
  notes := db.notes.filter fun n => under folder n.folder
  metas := db.metas.filter fun m => under folder m.path

/-- The tags of the workspace are on its notes. -/
def Library.TagsOwned : Prop :=
  ∀ pair ∈ lib.tagPairs db, ∀ n ∈ db.notes, n.noteId = pair.2 → lib.owns n = true

/-- Every query about the folder is the query about everything, of what is under the folder; a move of the
folder is about that, and about nothing else. -/
structure Scoped (folder : Text) : Prop where
  notes : lib.listUnderFolder db folder = (db.restrict folder).notes.filter lib.owns
  noteIds : lib.noteIdsUnderFolder db folder = (((db.restrict folder).notes.filter lib.owns).map (·.noteId)).toFinset
  metas : lib.metasUnder db folder = (db.restrict folder).metas.filter lib.ownsMeta
  entries : ∀ start stop, lib.entriesIn db start stop (some folder) = lib.entriesIn (db.restrict folder) start stop none
  counts : lib.TagsOwned db → lib.tagCounts db (some folder) true = lib.tagCounts (db.restrict folder) none true
  exported : ∀ files maxChars, lib.exportFolder db files maxChars folder =
    exportNotes files maxChars (lib.sorted ((db.restrict folder).notes.filter lib.owns))
  renamed : ∀ dst now metas, folder ≠ dst → lib.renamePaths db folder dst now = some metas →
    metas = updateWhere (fun m => lib.ownsMeta m && under folder m.path) (·.renamed folder dst now) db.metas
  moved : ∀ (env : Paths.VaultEnv) (v : Paths.Vault) (raw dst tmp : Text) (sourceIds : List String),
    v.notes = (db.notes.filter lib.owns).map (·.toIndexedNote) → (∀ n ∈ v.notes, Paths.Normalized n.folder) →
    normalizedFolder raw = .ok folder →
    (∀ path, env.moveFolder v raw dst tmp sourceIds ≠ .error (.notUnder path)) ∧
      ∀ v', env.moveFolder v raw dst tmp sourceIds = .ok v' →
        ∀ n ∈ v.notes, under folder n.folder = false → n ∈ v'.notes

end

variable {lib : Library} {db : Db} {folder : Text}

/-- The folders of the workspace's notes and metadata. -/
def Library.paths (lib : Library) (db : Db) : List Text :=
  (db.notes.filter lib.owns).map (·.folder) ++ (db.metas.filter lib.ownsMeta).map (·.path)

/-- The condition of the queries says what is under the folder. -/
def Exact (lib : Library) (db : Db) (folder : Text) : Prop :=
  (∀ n ∈ db.notes, lib.owns n = true → inFolder folder n.folder = under folder n.folder) ∧
    ∀ m ∈ db.metas, lib.ownsMeta m = true → inFolder folder m.path = under folder m.path

theorem exact_iff : Exact lib db folder ↔ ∀ path ∈ lib.paths db, ¬ Confused folder path := by
  simp only [Exact, Library.paths, List.mem_append, List.mem_map, List.mem_filter, inFolder_eq_under_iff]
  constructor
  · rintro ⟨hnotes, hmetas⟩ path (⟨n, ⟨hn, howns⟩, rfl⟩ | ⟨m, ⟨hm, howns⟩, rfl⟩)
    · exact hnotes n hn howns
    · exact hmetas m hm howns
  · intro h
    exact ⟨fun n hn howns => h _ (.inl ⟨n, ⟨hn, howns⟩, rfl⟩), fun m hm howns => h _ (.inr ⟨m, ⟨hm, howns⟩, rfl⟩)⟩

section
variable (h : Exact lib db folder)
include h

theorem Exact.note {n : Note} (hn : n ∈ db.notes) :
    (lib.owns n && inFolder folder n.folder) = (lib.owns n && under folder n.folder) := by
  cases howns : lib.owns n with
  | true => rw [h.1 n hn howns]
  | false => rfl

theorem Exact.folderMeta {m : FolderMeta} (hm : m ∈ db.metas) :
    (lib.ownsMeta m && inFolder folder m.path) = (lib.ownsMeta m && under folder m.path) := by
  cases howns : lib.ownsMeta m with
  | true => rw [h.2 m hm howns]
  | false => rfl

theorem listUnderFolder_eq : lib.listUnderFolder db folder = (db.restrict folder).notes.filter lib.owns := by
  rw [Db.restrict, List.filter_filter]
  exact List.filter_congr fun n hn => h.note hn

theorem entriesIn_eq (start stop : Text) :
    lib.entriesIn db start stop (some folder) = lib.entriesIn (db.restrict folder) start stop none := by
  have hrows : (db.notes.filter fun n => lib.owns n &&
      ((n.occurredAt.any fun day => start ≤ day && day < stop) || n.period.isSome) && inFolder folder n.folder) =
      (db.restrict folder).notes.filter fun n => lib.owns n &&
        ((n.occurredAt.any fun day => start ≤ day && day < stop) || n.period.isSome) && true := by
    rw [Db.restrict, List.filter_filter]
    refine List.filter_congr fun n hn => ?_
    cases howns : lib.owns n with
    | true => simp only [h.1 n hn howns, Bool.true_and, Bool.and_true]
    | false => simp
  unfold Library.entriesIn
  rw [show (fun n : Note => lib.owns n && ((n.occurredAt.any fun day => start ≤ day && day < stop) || n.period.isSome) &&
    (some folder).all fun folder => inFolder folder n.folder) = fun n : Note => lib.owns n &&
      ((n.occurredAt.any fun day => start ≤ day && day < stop) || n.period.isSome) && inFolder folder n.folder from rfl,
    hrows]
  rfl

theorem tagPairs_restrict (howned : lib.TagsOwned db) : ((lib.tagPairs db).filter fun pair => db.notes.any fun n =>
    n.noteId = pair.2 && inFolder folder n.folder) = lib.tagPairs (db.restrict folder) := by
  have hunder : ((lib.tagPairs db).filter fun pair => db.notes.any fun n => n.noteId = pair.2 && inFolder folder n.folder) =
      (lib.tagPairs db).filter fun pair => db.notes.any fun n => n.noteId = pair.2 && under folder n.folder := by
    refine List.filter_congr fun pair hpair => ?_
    rw [Bool.eq_iff_iff, List.any_eq_true, List.any_eq_true]
    refine exists_congr fun n => and_congr_right fun hn => ?_
    by_cases hid : n.noteId = pair.2
    · rw [h.1 n hn (howned pair hpair n hn hid)]
    · simp [hid]
  rw [hunder, Library.tagPairs, Library.tagPairs, List.filter_flatMap]
  refine congrArg (fun f => List.flatMap f _) (funext fun t => ?_)
  rw [Db.restrict, List.filter_map, List.filter_filter, List.filter_filter]
  refine congrArg (List.map _) (List.filter_congr fun nt _ => ?_)
  simp [Bool.and_comm]

theorem tagCounts_eq (howned : lib.TagsOwned db) :
    lib.tagCounts db (some folder) true = lib.tagCounts (db.restrict folder) none true := by
  have hnone : (lib.tagPairs (db.restrict folder)).filter (fun _ => true) = lib.tagPairs (db.restrict folder) :=
    List.filter_true _
  unfold Library.tagCounts
  simp only [Option.all_some, Option.all_none, if_true]
  rw [hnone, tagPairs_restrict h howned]

theorem renamePaths_eq {dst now : Text} {metas : List FolderMeta} (hne : folder ≠ dst)
    (hok : lib.renamePaths db folder dst now = some metas) :
    metas = updateWhere (fun m => lib.ownsMeta m && under folder m.path) (·.renamed folder dst now) db.metas := by
  rw [Library.renamePaths, if_neg hne] at hok
  split at hok
  · cases hok
  · cases hok
    refine List.map_congr_left fun m hm => ?_
    simp only [h.folderMeta hm]

end

/-! ## moving a folder -/

section
variable {env : Paths.VaultEnv} {v v' : Paths.Vault} {raw dst tmp : Text} {sourceIds : List String}
  (hsel : ∀ n ∈ v.notes, underFolder folder n = under folder n.folder)

/-- A note that is selected has its file in the folder. -/
theorem inTree_of_under {n : IndexedNote} (hroot : folder ≠ []) (hfolder : Paths.Normalized n.folder)
    (h : under folder n.folder = true) : Paths.inTree folder (notePath n) = true := by
  rw [Paths.inTree_notePath hfolder hroot]
  rw [under, decide_eq_false hroot, Bool.false_or, Bool.or_eq_true] at h
  exact h.imp of_decide_eq_true id

include hsel

theorem moveFolder_not_refused (hfolders : ∀ n ∈ v.notes, Paths.Normalized n.folder)
    (hraw : normalizedFolder raw = .ok folder) (path : Text) :
    env.moveFolder v raw dst tmp sourceIds ≠ .error (.notUnder path) := by
  suffices h : Avoids (fun e => ∃ path, e = Paths.VaultError.notUnder path) (env.moveFolder v raw dst tmp sourceIds) from
    fun herror => h _ herror ⟨path, rfl⟩
  have hidentity : ∀ {α : Type} (x : Except MoveError α),
      Avoids (fun e => ∃ path, e = Paths.VaultError.notUnder path) (x.mapError Paths.VaultError.identity) := by
    intro α x
    cases x with
    | error e => exact .error fun ⟨_, he⟩ => nomatch he
    | ok a => exact .ok a
  have hdisk : ∀ {α : Type} (x : Except Paths.DiskError α),
      Avoids (fun e => ∃ path, e = Paths.VaultError.notUnder path) (x.mapError Paths.VaultError.disk) := by
    intro α x
    cases x with
    | error e => exact .error fun ⟨_, he⟩ => nomatch he
    | ok a => exact .ok a
  unfold Paths.VaultEnv.moveFolder
  rw [hraw]
  refine Avoids.bind (.ok folder) fun src hsrc => ?_
  cases hsrc
  refine (hidentity _).bind fun dst' _ => ?_
  split
  · exact .error fun ⟨_, he⟩ => nomatch he
  rename_i hroot
  split
  · exact .ok _
  split
  · exact .error fun ⟨_, he⟩ => nomatch he
  dsimp only
  split
  · exact .error fun ⟨_, he⟩ => nomatch he
  split
  · exact .error fun ⟨_, he⟩ => nomatch he
  split
  · exact .error fun ⟨_, he⟩ => nomatch he
  split
  · rename_i n hn
    obtain ⟨hn, hselected⟩ := List.mem_filter.mp (List.mem_of_find?_eq_some hn)
    have hout := List.find?_some ‹_ = some n›
    rw [hsel n hn] at hselected
    rw [inTree_of_under hroot (hfolders n hn) hselected] at hout
    cases hout
  · refine (hdisk _).bind fun disk _ => ?_
    refine Avoids.bind ?_ fun after _ => .ok _
    exact (hdisk _).bind fun disk _ => .ok _

theorem moveFolder_keeps (hraw : normalizedFolder raw = .ok folder)
    (hok : env.moveFolder v raw dst tmp sourceIds = .ok v') {n : IndexedNote} (hn : n ∈ v.notes)
    (hout : under folder n.folder = false) : n ∈ v'.notes := by
  obtain ⟨src, hsrc, hok⟩ := bind_ok hok
  rw [hraw] at hsrc
  cases hsrc
  obtain ⟨dst', _, hok⟩ := bind_ok hok
  split at hok
  · cases hok
  split at hok
  · cases hok
    exact hn
  split at hok
  · cases hok
  dsimp only at hok
  split at hok
  · cases hok
  split at hok
  · cases hok
  split at hok
  · cases hok
  split at hok
  · cases hok
  obtain ⟨disk, _, hok⟩ := bind_ok hok
  obtain ⟨after, hafter, hok⟩ := bind_ok hok
  cases hok
  obtain ⟨disk', _, hafter⟩ := bind_ok hafter
  cases hafter
  exact mem_updateWhere_of_not hn ((hsel n hn).trans hout)

end

def plain : Library where
  workspace := "w"
  ownerId := "u"
  sorted notes := notes
  periodRange _ := none

def noteIn (noteId : String) (folder : Text) : Note where
  noteId := noteId
  folder := folder
  title := "t".toList
  workspace := "w"
  ownerId := "u"
  tags := []
  createdAt := []
  updatedAt := []
  occurredAt := none
  period := none

/-- Two folders whose names differ in the case of a letter. -/
def twoCases : Db where
  tags := []
  noteTags := []
  notes := [noteIn "n1" "projekty".toList, noteIn "n2" "Projekty/dom".toList]
  metas := []

end Kajet.Folders
