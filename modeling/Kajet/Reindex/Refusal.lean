import Kajet.Reindex.Adopted
import Kajet.Reindex.FixedPoint

/-!
# What a reconcile that raises leaves behind

`reconcilePaths` says what a reconcile returns.  Here is the whole procedure, with the workspace as it
is when an exception leaves it: the generated ids are in the files, and committed, before the deletion
guard is asked.

* `Workspace`, `adoptTree`, `reconcileRun`   the files, the commits, the rows;
* `reconcileRun_ok`       without an exception it is `reconcilePaths`;
* `gone_sublist`          only missing rows go;
* `refusal_keeps_iff`     a refused reconcile changes nothing exactly when there was nothing to adopt, and
                   one that is not refused keeps to the bounds of the guard.
-/

namespace Kajet.Reindex
open Str Rank Table Links Frontmatter Fallible

structure Commit where
  message : String
  paths : List Text
deriving DecidableEq

/-- The state of a workspace with the history of its repository. -/
structure Workspace extends State where
  commits : List Commit

section
variable (env : Env)

def adoptMessage (n : ℕ) : String := "note: adopt " ++ toString n ++ (if n = 1 then " file" else " files")

/-- The adoption as one staged change: all the files are written and committed, or none is. -/
def Env.adoptTree (w : Workspace) (candidates : List AdoptionCandidate) : Workspace × Option ReindexError :=
  match candidates, env.adoptionError with
  | [], _ => (w, none)
  | _ :: _, some error => (w, some (.adoption error))
  | _ :: _, none => ({ w with
      files := env.adoptFiles w.files candidates
      commits := w.commits ++ [⟨adoptMessage candidates.length, candidates.map (·.relative)⟩] }, none)

/-- From the adoption on: the guard, the plan, and the transaction. -/
def Env.reconcileRows (t : Notes) (paths : List Text) (scan : Scan) : Except ReindexError (Notes × ReconcileReport) := do
  let present ← env.adoptPresent scan.present scan.candidates
  let missing := env.missing t paths scan.unreadablePaths present
  let total := (env.indexed t).length
  let _ ← (if reconcileMaxDelete missing.length total then
      .error (.deletionGuard missing.length total) else .ok () : Except ReindexError Unit)
  let _ ← env.checkIds present
  let changes ← present.mapM fun x => (env.change t x.2).map (x.2, ·)
  let notes ← env.writeRows t missing changes
  return (notes, {
    inserted := reported (·.isInserted) present changes
    updated := reported (·.isUpdated) present changes
    removed := sortedSet (missing.map (·.noteId))
    unchanged := (changes.filter fun x => !x.2.isInserted && !x.2.isUpdated).length
    duplicateIds := scan.duplicateIds
    unreadablePaths := scan.unreadablePaths
    adopted := scan.candidates.map fun c => env.newNoteId c.relative })

def Env.reconcileRun (w : Workspace) (paths : List Text) : Workspace × Except ReindexError ReconcileReport :=
  match env.scan w.files paths with
  | .error e => (w, .error e)
  | .ok scan =>
    match env.adoptTree w scan.candidates with
    | (w, some e) => (w, .error e)
    | (w, none) =>
      match env.reconcileRows w.notes paths scan with
      | .error e => (w, .error e)
      | .ok (notes, report) => ({ w with notes := notes }, .ok report)

/-- The reconcile was refused as a mass deletion. -/
def Env.Refused (w : Workspace) (paths : List Text) : Prop :=
  ∃ missing total, (env.reconcileRun w paths).2 = .error (.deletionGuard missing total)

end

/-- The notes that have lost their rows. -/
def gone (t t' : Notes) : List Note := t.rows.filter fun n => n.noteId ∉ t'.rows.map (·.noteId)

section
variable {env : Env} {w : Workspace} {paths : List Text} {scan : Scan} {t t' : Notes} {report : ReconcileReport}

/-! ## the run -/

variable {cs : List AdoptionCandidate}

theorem adoptTree_cases (env : Env) (w : Workspace) (cs : List AdoptionCandidate) :
    (cs = [] ∧ env.adoptTree w cs = (w, none)) ∨
      (∃ error, env.adoptionError = some error ∧ cs ≠ [] ∧ env.adoptTree w cs = (w, some (.adoption error))) ∨
      (env.adoptionError = none ∧ cs ≠ [] ∧ env.adoptTree w cs = ({ w with
        files := env.adoptFiles w.files cs
        commits := w.commits ++ [⟨adoptMessage cs.length, cs.map (·.relative)⟩] }, none)) := by
  cases cs with
  | nil => exact .inl ⟨rfl, rfl⟩
  | cons c cs =>
    right
    cases herror : env.adoptionError with
    | some error =>
      refine .inl ⟨error, rfl, List.cons_ne_nil _ _, ?_⟩
      simp only [Env.adoptTree, herror]
    | none =>
      refine .inr ⟨rfl, List.cons_ne_nil _ _, ?_⟩
      simp only [Env.adoptTree, herror]

theorem adopt_eq (files : Files) (w : Workspace) : env.adopt files scan = match (env.adoptTree w scan.candidates).2 with
    | some e => .error e
    | none => (env.adoptPresent scan.present scan.candidates).map (env.adoptFiles files scan.candidates, ·) := by
  unfold Env.adopt Env.adoptTree
  cases scan.candidates with
  | nil => rfl
  | cons c cs => cases env.adoptionError <;> rfl

/-- What is done after the adoption, and the files that it left. -/
theorem reconcilePaths_eq_rows (hscan : env.scan w.files paths = .ok scan)
    (htree : (env.adoptTree w scan.candidates).2 = none) : env.reconcilePaths w.toState paths =
      (env.reconcileRows w.notes paths scan).map fun x => (⟨x.1, env.adoptFiles w.files scan.candidates⟩, x.2) := by
  unfold Env.reconcilePaths Env.reconcileRows
  rw [hscan]
  show (env.adopt w.files scan >>= _) = _
  rw [adopt_eq w.files w, htree]
  cases env.adoptPresent scan.present scan.candidates with
  | error e => rfl
  | ok present =>
    show ((if _ then _ else _ : Except ReindexError Unit) >>= _) = Except.map _ ((if _ then _ else _ : Except ReindexError Unit) >>= _)
    split
    · rfl
    · show (env.checkIds present >>= _) = Except.map _ (env.checkIds present >>= _)
      cases env.checkIds present with
      | error e => rfl
      | ok u =>
        show ((present.mapM fun x => (env.change w.notes x.2).map (x.2, ·)) >>= _) =
          Except.map _ ((present.mapM fun x => (env.change w.notes x.2).map (x.2, ·)) >>= _)
        cases present.mapM fun x => (env.change w.notes x.2).map (x.2, ·) with
        | error e => rfl
        | ok changes =>
          show (env.writeRows w.notes _ changes >>= _) = Except.map _ (env.writeRows w.notes _ changes >>= _)
          cases env.writeRows w.notes _ changes <;> rfl

/-- The run is `reconcilePaths`, with what is left when it raises. -/
theorem reconcileRun_result (w : Workspace) (paths : List Text) : env.reconcilePaths w.toState paths =
    (env.reconcileRun w paths).2.map fun report => ((env.reconcileRun w paths).1.toState, report) := by
  unfold Env.reconcileRun
  cases hscan : env.scan w.files paths with
  | error e =>
    rw [Env.reconcilePaths, show env.scan w.toState.files paths = _ from hscan]
    rfl
  | ok scan =>
    dsimp only
    rcases adoptTree_cases env w scan.candidates with ⟨hnil, htree⟩ | ⟨error, herror, hne, htree⟩ | ⟨herror, hne, htree⟩
    · rw [reconcilePaths_eq_rows hscan (by rw [htree]), htree]
      dsimp only
      cases env.reconcileRows w.notes paths scan with
      | error e => rfl
      | ok x =>
        rw [hnil]
        rfl
    · rw [htree, Env.reconcilePaths, show env.scan w.toState.files paths = _ from hscan]
      show (env.adopt w.files scan >>= _) = _
      rw [adopt_eq w.files w, htree]
      rfl
    · rw [reconcilePaths_eq_rows hscan (by rw [htree]), htree]
      dsimp only
      cases env.reconcileRows w.notes paths scan <;> rfl

/-! ## the rows that go -/

theorem ids_insertFile {y : PresentFile × Change} (h : env.insertFile t y = .ok t') :
    ∀ id ∈ t.rows.map (·.noteId), id ∈ t'.rows.map (·.noteId) := by
  intro id hid
  obtain ⟨n, hn, rfl⟩ := List.mem_map.mp hid
  exact List.mem_map_of_mem (((insertFile_ok h).1 n).mpr (.inl hn))

theorem ids_updateFile {y : PresentFile × Change} (h : env.updateFile t y = .ok t') :
    t'.rows.map (·.noteId) = t.rows.map (·.noteId) := by
  unfold Env.updateFile at h
  split at h
  · cases h
    exact map_updateWhere fun _ => rfl
  · cases h
  · cases h
    rfl

theorem ids_writeRows {missing : List Note} {changes : List (PresentFile × Change)}
    (h : env.writeRows t missing changes = .ok t') {n : Note} (hn : n ∈ t.rows)
    (hid : n.noteId ∉ missing.map (·.noteId)) : n.noteId ∈ t'.rows.map (·.noteId) := by
  obtain ⟨t1, hinserts, hupdates⟩ := bind_ok h
  have hkept : n.noteId ∈ (t.delete fun n => n.noteId ∈ missing.map (·.noteId)).rows.map (·.noteId) :=
    List.mem_map_of_mem (Notes.mem_delete.mpr ⟨hn, decide_eq_false hid⟩)
  have hinserted := foldlM_inv (P := fun t => n.noteId ∈ t.rows.map (·.noteId)) hkept
    (fun t y t' _ ht hy => ids_insertFile hy _ ht) hinserts
  exact foldlM_inv (P := fun t => n.noteId ∈ t.rows.map (·.noteId)) hinserted
    (fun t y t' _ ht hy => by rw [ids_updateFile hy]; exact ht) hupdates

/-- Only notes that are missing lose their rows. -/
theorem gone_length_le {missing : List Note} {changes : List (PresentFile × Change)}
    (h : env.writeRows t missing changes = .ok t') : (gone t t').length ≤ missing.length := by
  have hnodup : ((gone t t').map (·.noteId)).Nodup :=
    (keyed_iff_nodup.mp t.ids).sublist (List.filter_sublist.map _)
  have hsub : (gone t t').map (·.noteId) ⊆ missing.map (·.noteId) := by
    intro id hid
    obtain ⟨n, hn, rfl⟩ := List.mem_map.mp hid
    obtain ⟨hn, hgone⟩ := List.mem_filter.mp hn
    by_contra hnot
    exact of_decide_eq_true hgone (ids_writeRows h hn hnot)
  have hle := (hnodup.subperm hsub).length_le
  rwa [List.length_map, List.length_map] at hle

theorem gone_of_rows (h : env.reconcileRows t paths scan = .ok (t', report)) :
    (gone t t').length < 5 ∨ 5 * (gone t t').length ≤ (env.indexed t).length := by
  obtain ⟨present, _, h⟩ := bind_ok h
  obtain ⟨⟨⟩, hguard, h⟩ := bind_ok h
  obtain ⟨⟨⟩, _, h⟩ := bind_ok h
  obtain ⟨changes, _, h⟩ := bind_ok h
  obtain ⟨notes, hnotes, h⟩ := bind_ok h
  cases h
  have hle := gone_length_le hnotes
  split at hguard
  · cases hguard
  · rename_i hallowed
    simp only [reconcileMaxDelete, Bool.and_eq_true, decide_eq_true_eq] at hallowed
    omega

/-! ## refusals -/

/-- The scan itself refuses nothing. -/
theorem scan_avoids (missing total : ℕ) :
    Avoids (fun e => e = ReindexError.deletionGuard missing total) (env.scan w.files paths) := by
  refine Avoids.foldlM (fun a _ s => ?_) _
  unfold Env.scanFile
  split
  · exact .ok _
  · exact .ok _
  · dsimp only
    split
    · exact .ok _
    · split
      · exact .error nofun
      · split
        · exact .ok _
        · refine Avoids.map (Avoids.map ?_)
          unfold Env.normalizeTags
          split
          · exact .error nofun
          · exact .ok _

/-- A refusal leaves the workspace as the adoption did. -/
theorem refused_state (h : env.Refused w paths) : ∃ scan, env.scan w.files paths = .ok scan ∧
    (env.reconcileRun w paths).1 = (env.adoptTree w scan.candidates).1 ∧
      (env.adoptTree w scan.candidates).2 = none := by
  obtain ⟨missing, total, h⟩ := h
  unfold Env.reconcileRun at h ⊢
  cases hscan : env.scan w.files paths with
  | error e =>
    rw [hscan] at h
    exact absurd (Except.error.inj h) (scan_avoids missing total e hscan)
  | ok scan =>
    rw [hscan] at h
    dsimp only at h ⊢
    refine ⟨scan, rfl, ?_⟩
    rcases adoptTree_cases env w scan.candidates with ⟨_, htree⟩ | ⟨error, _, _, htree⟩ | ⟨_, _, htree⟩
    · rw [htree] at h ⊢
      dsimp only at h ⊢
      cases hrows : env.reconcileRows w.notes paths scan with
      | error e => exact ⟨rfl, rfl⟩
      | ok x =>
        rw [hrows] at h
        cases h
    · rw [htree] at h
      cases h
    · rw [htree] at h ⊢
      dsimp only at h ⊢
      cases hrows : env.reconcileRows w.notes paths scan with
      | error e => exact ⟨rfl, rfl⟩
      | ok x =>
        rw [hrows] at h
        cases h

/-- What a reconcile that returns has done to the rows. -/
theorem reconcileRun_ok (h : (env.reconcileRun w paths).2 = .ok report) : ∃ scan, env.scan w.files paths = .ok scan ∧
    env.reconcileRows w.notes paths scan = .ok ((env.reconcileRun w paths).1.notes, report) := by
  unfold Env.reconcileRun at h ⊢
  cases hscan : env.scan w.files paths with
  | error e =>
    rw [hscan] at h
    cases h
  | ok scan =>
    rw [hscan] at h
    dsimp only at h ⊢
    refine ⟨scan, rfl, ?_⟩
    rcases adoptTree_cases env w scan.candidates with ⟨_, htree⟩ | ⟨error, _, _, htree⟩ | ⟨_, _, htree⟩
    · rw [htree] at h ⊢
      dsimp only at h ⊢
      cases hrows : env.reconcileRows w.notes paths scan with
      | error e =>
        rw [hrows] at h
        cases h
      | ok x =>
        rw [hrows] at h
        cases h
        rfl
    · rw [htree] at h
      cases h
    · rw [htree] at h ⊢
      dsimp only at h ⊢
      cases hrows : env.reconcileRows w.notes paths scan with
      | error e =>
        rw [hrows] at h
        cases h
      | ok x =>
        rw [hrows] at h
        cases h
        rfl

/-- **The deletion guard.**  A refused reconcile leaves files, commits and rows as they were exactly when no
file at the paths had to be adopted; one that returns has removed fewer notes than the floor, or no more than
the ratio of the workspace. -/
theorem refusal_keeps_iff (env : Env) (w : Workspace) (paths : List Text) :
    (env.Refused w paths → ((env.reconcileRun w paths).1 = w ↔ ∀ p ∈ paths, ¬ Adoptable w.files p)) ∧
      ∀ report, (env.reconcileRun w paths).2 = .ok report →
        (gone w.notes (env.reconcileRun w paths).1.notes).length < 5 ∨
          5 * (gone w.notes (env.reconcileRun w paths).1.notes).length ≤ (env.indexed w.notes).length := by
  constructor
  · intro h
    obtain ⟨scan, hscan, hstate, hnone⟩ := refused_state h
    have hscanned := scan_ok hscan
    have hnil : scan.candidates = [] ↔ ∀ p ∈ paths, ¬ Adoptable w.files p := by
      rw [List.eq_nil_iff_forall_not_mem]
      constructor
      · rintro hno p hp ⟨m, content, hread, hfalsy⟩
        exact hno ⟨p, parseFrontmatter m, content⟩ ((hscanned.candidate _).mpr ⟨hp, m, hread, hfalsy, rfl⟩)
      · intro hno c hc
        obtain ⟨hp, m, hread, hfalsy, _⟩ := (hscanned.candidate c).mp hc
        exact hno c.relative hp ⟨m, c.content, hread, hfalsy⟩
    rw [hstate, ← hnil]
    rcases adoptTree_cases env w scan.candidates with ⟨hcandidates, htree⟩ | ⟨error, _, _, htree⟩ | ⟨_, hne, htree⟩
    · rw [htree]
      exact ⟨fun _ => hcandidates, fun _ => rfl⟩
    · rw [htree] at hnone
      cases hnone
    · rw [htree]
      refine ⟨fun hsame => ?_, fun hcandidates => absurd hcandidates hne⟩
      have hlength := congrArg (fun w => w.commits.length) hsame
      simp at hlength
  · intro report h
    obtain ⟨scan, _, hrows⟩ := reconcileRun_ok h
    exact gone_of_rows hrows

end

/-! ## a refused reconcile that committed -/

def plainNote (title : Text) : Note := ⟨⟨String.ofList title, [], title⟩, "w", "u", [], [], [], none, none⟩

/-- Five notes whose files are gone, and a new file. -/
def emptiedDisk : Workspace where
  notes := ⟨["A", "B", "C", "D", "E"].map fun title => plainNote title.toList, by decide +kernel⟩
  files := [⟨"New.md".toList, titled .null (.str "New".toList)⟩]
  commits := []

theorem refusal_commits : ∃ paths, plainEnv.Refused emptiedDisk paths ∧
    (plainEnv.reconcileRun emptiedDisk paths).1.commits = [⟨"note: adopt 1 file", ["New.md".toList]⟩] ∧
    (plainEnv.reconcileRun emptiedDisk paths).1 ≠ emptiedDisk := by
  have hcommits : (plainEnv.reconcileRun emptiedDisk
      (["A.md", "B.md", "C.md", "D.md", "E.md", "New.md"].map String.toList)).1.commits =
      [⟨"note: adopt 1 file", ["New.md".toList]⟩] := by decide +kernel
  have hrefused : (plainEnv.reconcileRun emptiedDisk
      (["A.md", "B.md", "C.md", "D.md", "E.md", "New.md"].map String.toList)).2.map (fun _ => ()) =
      .error (.deletionGuard 5 5) := by decide +kernel
  refine ⟨_, ⟨5, 5, map_error hrefused⟩, hcommits, fun hsame => ?_⟩
  rw [hsame] at hcommits
  cases hcommits

end Kajet.Reindex
