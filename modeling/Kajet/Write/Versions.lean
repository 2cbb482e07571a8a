import Kajet.Dates.Backfill
import Kajet.Lib.Machine
import Kajet.Write.Git

/-!
# Versions and their readers

A reader takes no lock: it asks for the last commit of the file and reads the file after that.  A write that is
gated by `expected_sha` compares it with the last commit under the workspace lock, computes its changes from the
files, writes them one by one and commits, or restores what it has written.

* `Version`, `headSha`, `committed`   the commits of the branch, and what they make of a path;
* `State`, `Op`, `vault`     one write at a time, any number of readers in between;
* `VaultInv`, `vault_inv`    the files are those of the branch, up to the changes of the write in progress;
* `no_lost_update`           a gated commit follows the version that it expects, and an edit that passes the gate
                             finds the content that came with its sha.
-/

namespace Kajet.Versions
open Str Write Machine
open History hiding Bytes
open Dates (shaIsFresh)

/-- A commit, with the versions that its write was to find. -/
structure Version where
  sha : Text
  changes : List (RelPath × Option Bytes)
  gates : List (RelPath × Text)
deriving DecidableEq

def pathText (p : RelPath) : Text := p.1.toList

def Version.entry (v : Version) : WalkEntry where
  sha := v.sha
  message := []
  timestamp := 0
  changes := v.changes.map fun x => .inl ⟨some (encode (pathText x.1)), x.2.map fun _ => encode (pathText x.1)⟩

/-- The walk of the branch, newest first; a repository without a commit has no `HEAD`. -/
def walkOf (versions : List Version) (paths : List History.Bytes) : Option (List WalkEntry) :=
  if versions = [] then none
  else some ((versions.map Version.entry).filter fun e => paths.any fun p => touched p e)

/-- `current_head_sha` -/
def headSha (versions : List Version) (p : RelPath) : Option Text :=
  Dates.headSha (walkOf versions) [pathText p] (pathText p)

/-- The tree of the last commit. -/
def committed : List Version → Files
  | [] => fun _ => none
  | v :: older => Tree.restore v.changes (committed older)

/-- A write under the lock. -/
structure Pending where
  gates : List (RelPath × Text)
  changes : List (RelPath × Option Bytes)
  /-- the changes that are not in the files yet -/
  waiting : List (RelPath × Option Bytes)
  snapshot : List (RelPath × Option Bytes)

/-- A read of a note: the sha, then the content. -/
structure Reader where
  path : RelPath
  sha : Text
  content : Option Bytes
  /-- a write was at the file when it was read -/
  during : Bool
deriving DecidableEq

structure State where
  versions : List Version
  tree : Files
  pending : Option Pending
  readers : List Reader

inductive Op where
  /-- a write takes the lock and passes its gates -/
  | begin (gates : List (RelPath × Text)) (plan : Files → List (RelPath × Option Bytes))
  | apply
  | commit (sha : Text)
  | rollback
  | readSha (path : RelPath)
  | readContent (k : ℕ)

def hexDigits : Text := "0123456789abcdef".toList

def isSha (sha : Text) : Bool := sha.length = 40 && sha.all (· ∈ hexDigits)

/-- The write changes the path. -/
def Pending.changesAt (w : Pending) (p : RelPath) : Bool := w.changes.any fun x => x.1 = p

def step (s : State) : Op → Option State
  | .begin gates plan =>
    if s.pending.isNone ∧ ∀ g ∈ gates, (s.tree g.1).isSome ∧ shaIsFresh (headSha s.versions g.1) g.2 then
      let changes := plan s.tree
      some { s with pending := some ⟨gates, changes, changes, changes.map fun x => (x.1, s.tree x.1)⟩ }
    else none
  | .apply => s.pending.bind fun w => match w.waiting with
    | [] => none
    | x :: waiting => some { s with
        tree := Function.update s.tree x.1 x.2
        pending := some { w with waiting := waiting } }
  | .commit sha => s.pending.bind fun w =>
    if w.waiting = [] ∧ isSha sha ∧ sha ∉ s.versions.map Version.sha then
      some { s with
        -- a file that is as it was is no change
        versions := ⟨sha, w.changes.filter fun x => s.tree x.1 ≠ committed s.versions x.1, w.gates⟩ :: s.versions
        pending := none }
    else none
  | .rollback => s.pending.map fun w => { s with tree := Tree.restore w.snapshot s.tree, pending := none }
  | .readSha path =>
    if (s.tree path).isSome then
      (headSha s.versions path).map fun sha => { s with readers := s.readers ++ [⟨path, sha, none, false⟩] }
    else none
  | .readContent k => s.readers[k]?.bind fun r => (s.tree r.path).bind fun content =>
    if r.content.isNone then
      some { s with readers := s.readers.set k { r with
        content := some content
        during := s.pending.any fun w => w.changesAt r.path } }
    else none

def State.init : State := ⟨[], fun _ => none, none, []⟩

def vault : Machine State Op where
  start s := s = .init
  next := step

/-! ## the head of a path -/

section
variable {versions older : List Version} {v : Version} {p q : RelPath} {sha expected : Text}

theorem walks_walkOf (versions : List Version) :
    Walks (walkOf versions) (if versions = [] then none else some (versions.map Version.entry)) := by
  intro paths _
  unfold walkOf
  split <;> rfl

/-- The last commit that touches the path, however many paths the walk is for. -/
theorem headSha_walk {paths : List Text} (hp : pathText p ∈ paths) (versions : List Version) :
    Dates.headSha (walkOf versions) paths (pathText p) =
      ((versions.map Version.entry).filter (touched (encode (pathText p)))).head?.map WalkEntry.sha := by
  have hwalk := walks_walkOf versions
  have hget : (fileHistories (walkOf versions) paths 1).get? (pathText p) = _ := fileHistories_get? hwalk le_rfl (pathText p)
  rw [if_pos hp, walk_single hwalk, Dict.get?] at hget
  obtain ⟨h, hfind, hh⟩ := Option.map_eq_some_iff.mp hget
  have hfind' : (headShasForPaths (walkOf versions) paths).find? (fun head => head.1 = pathText p) =
      some (h.1, h.2.head?.map HistoryEntry.sha) := by
    rw [headShasForPaths, List.find?_map]
    exact congrArg (Option.map _) hfind
  rw [Dates.headSha, hfind', Option.bind_some, hh]
  cases versions with
  | nil => rfl
  | cons v versions =>
    rw [if_neg (List.cons_ne_nil _ _), Option.map_some, Option.getD_some]
    cases ((v :: versions).map Version.entry).filter (touched (encode (pathText p))) <;> rfl

theorem headSha_nil (p : RelPath) : headSha [] p = none := by
  rw [headSha, headSha_walk List.mem_cons_self]
  rfl

theorem headSha_cons (v : Version) (older : List Version) (p : RelPath) : headSha (v :: older) p =
    if touched (encode (pathText p)) v.entry then some v.sha else headSha older p := by
  rw [headSha, headSha, headSha_walk List.mem_cons_self, headSha_walk List.mem_cons_self, List.map_cons, List.filter_cons]
  split <;> rfl

/-- A commit that changes a path touches it. -/
theorem touched_entry (h : p ∈ v.changes.map Prod.fst) : touched (encode (pathText p)) v.entry = true := by
  obtain ⟨x, hx, rfl⟩ := List.mem_map.mp h
  refine List.any_eq_true.mpr ⟨encode (pathText x.1), ?_, decide_eq_true (.inl rfl)⟩
  unfold changedPaths flatChanges Version.entry
  simp only [List.flatMap_map, List.mem_flatMap]
  exact ⟨_, ⟨x, hx, List.mem_singleton_self _⟩, by simp⟩

theorem headSha_mem (h : headSha versions p = some sha) : sha ∈ versions.map Version.sha := by
  induction versions with
  | nil => rw [headSha_nil] at h; cases h
  | cons v older ih =>
    rw [headSha_cons] at h
    split at h
    · rw [← Option.some.inj h]
      exact List.mem_cons_self
    · exact List.mem_cons_of_mem _ (ih h)

end

/-! ## the files and the branch -/

section
variable {changes : List (RelPath × Option Bytes)} {versions : List Version} {v : Version}

/-- A write that was recorded: the commit has the changed files, and the tree is the new head. -/
theorem committed_commit
    (hv : v.changes = changes.filter fun x => Tree.restore changes (committed versions) x.1 ≠ committed versions x.1) :
    committed (v :: versions) = Tree.restore changes (committed versions) := by
  funext p
  show Tree.restore v.changes (committed versions) p = _
  rw [hv]
  by_cases hp : Tree.restore changes (committed versions) p = committed versions p
  · rw [hp]
    refine Tree.restore_of_notMem fun hmem => ?_
    obtain ⟨x, hx, rfl⟩ := List.mem_map.mp hmem
    exact of_decide_eq_true (List.mem_filter.mp hx).2 hp
  · exact Tree.restore_filter (fun q => Tree.restore changes (committed versions) q ≠ committed versions q)
      (decide_eq_true hp)

end

/-! ## runs -/

structure PendingInv (s : State) (w : Pending) : Prop where
  gates : ∀ g ∈ w.gates, shaIsFresh (headSha s.versions g.1) g.2 = true
  tree : ∃ done, w.changes = done ++ w.waiting ∧ s.tree = Tree.restore done (committed s.versions)
  snapshot : w.snapshot = w.changes.map fun x => (x.1, committed s.versions x.1)

/-- What a reader holds, as long as its sha is the head. -/
structure ReaderInv (versions : List Version) (r : Reader) : Prop where
  sha : r.sha ∈ versions.map Version.sha
  content : ∀ x, r.content = some x → r.during = false → headSha versions r.path = some r.sha →
    committed versions r.path = some x

structure VaultInv (s : State) : Prop where
  idle : s.pending = none → s.tree = committed s.versions
  pending : ∀ w, s.pending = some w → PendingInv s w
  shas : ∀ v ∈ s.versions, isSha v.sha = true
  gates : ∀ newer v older, s.versions = newer ++ v :: older →
    ∀ g ∈ v.gates, shaIsFresh (headSha older g.1) g.2 = true
  readers : ∀ r ∈ s.readers, ReaderInv s.versions r

section
variable {s s' : State} {w : Pending} {r : Reader} {p : RelPath} {sha expected : Text}

/-- A path that the write in progress does not change is as in the last commit. -/
theorem VaultInv.tree_eq (h : VaultInv s) (hp : ∀ w, s.pending = some w → w.changesAt p = false) :
    s.tree p = committed s.versions p := by
  cases hw : s.pending with
  | none => rw [h.idle hw]
  | some w =>
    obtain ⟨done, hdone, htree⟩ := (h.pending w hw).tree
    rw [htree]
    refine Tree.restore_of_notMem fun hmem => ?_
    obtain ⟨x, hx, hxp⟩ := List.mem_map.mp hmem
    exact List.any_eq_false.mp (hp w hw) x (hdone ▸ List.mem_append_left _ hx) (decide_eq_true hxp)

/-- What is pushed on the branch leaves a reader as it was, or with an old sha. -/
theorem ReaderInv.push {versions : List Version} (h : ReaderInv versions r) {v : Version}
    (hnew : v.sha ∉ versions.map Version.sha) : ReaderInv (v :: versions) r where
  sha := List.mem_cons_of_mem _ h.sha
  content x hx hduring hhead := by
    rw [headSha_cons] at hhead
    split at hhead
    · exact absurd (Option.some.inj hhead ▸ h.sha) hnew
    · rename_i htouch
      rw [← h.content x hx hduring hhead]
      exact Tree.restore_of_notMem fun hmem => htouch (touched_entry hmem)

theorem begin_inv (h : VaultInv s) (hidle : s.pending = none) {gates : List (RelPath × Text)}
    (hgates : ∀ g ∈ gates, shaIsFresh (headSha s.versions g.1) g.2 = true) (changes : List (RelPath × Option Bytes)) :
    VaultInv { s with pending := some ⟨gates, changes, changes, changes.map fun x => (x.1, s.tree x.1)⟩ } where
  idle := (nomatch ·)
  pending w hw := by
    rw [← Option.some.inj hw]
    refine ⟨hgates, ⟨[], rfl, h.idle hidle⟩, ?_⟩
    rw [h.idle hidle]
  shas := h.shas
  gates := h.gates
  readers := h.readers

theorem apply_inv (h : VaultInv s) (hw : s.pending = some w) {x : RelPath × Option Bytes}
    {waiting : List (RelPath × Option Bytes)} (hx : w.waiting = x :: waiting) :
    VaultInv { s with tree := Function.update s.tree x.1 x.2, pending := some { w with waiting := waiting } } where
  idle := (nomatch ·)
  pending w' hw' := by
    rw [← Option.some.inj hw']
    have hp := h.pending w hw
    obtain ⟨done, hdone, htree⟩ := hp.tree
    refine ⟨hp.gates, ⟨done ++ [x], ?_, ?_⟩, hp.snapshot⟩
    · rw [hdone, hx, List.append_assoc]
      rfl
    · show Function.update s.tree x.1 x.2 = _
      rw [Tree.restore_concat, htree]
  shas := h.shas
  gates := h.gates
  readers := h.readers

theorem commit_inv (h : VaultInv s) (hw : s.pending = some w) (hdone : w.waiting = []) (hsha : isSha sha = true)
    (hnew : sha ∉ s.versions.map Version.sha) :
    VaultInv { s with
      versions := ⟨sha, w.changes.filter fun x => s.tree x.1 ≠ committed s.versions x.1, w.gates⟩ :: s.versions
      pending := none } where
  idle _ := by
    obtain ⟨done, hchanges, htree⟩ := (h.pending w hw).tree
    rw [hdone, List.append_nil] at hchanges
    rw [← hchanges] at htree
    rw [committed_commit (v := ⟨sha, _, w.gates⟩) (by rw [← htree])]
    exact htree
  pending _ := (nomatch ·)
  shas v hv := by
    rcases List.mem_cons.mp hv with rfl | hv
    · exact hsha
    · exact h.shas v hv
  gates newer v older hv := by
    cases newer with
    | nil =>
      obtain ⟨rfl, rfl⟩ := List.cons.inj hv
      exact (h.pending w hw).gates
    | cons _ newer => exact h.gates newer v older (List.cons.inj hv).2
  readers r hr := (h.readers r hr).push hnew

theorem rollback_inv (h : VaultInv s) (hw : s.pending = some w) :
    VaultInv { s with tree := Tree.restore w.snapshot s.tree, pending := none } where
  idle _ := by
    have hp := h.pending w hw
    obtain ⟨done, hdone, htree⟩ := hp.tree
    funext p
    show Tree.restore w.snapshot s.tree p = committed s.versions p
    have hsnap : ∀ x ∈ w.changes.map (fun x => (x.1, committed s.versions x.1)),
        x.2 = committed s.versions x.1 := fun x hx => by
      obtain ⟨y, _, rfl⟩ := List.mem_map.mp hx
      rfl
    rw [hp.snapshot, Tree.restore_apply _ hsnap]
    split
    · rfl
    · rename_i hp
      rw [htree]
      refine Tree.restore_of_notMem fun hmem => hp ?_
      rw [List.map_map, hdone]
      show p ∈ (done ++ w.waiting).map Prod.fst
      rw [List.map_append]
      exact List.mem_append_left _ hmem
  pending _ := (nomatch ·)
  shas := h.shas
  gates := h.gates
  readers := h.readers

theorem readSha_inv (h : VaultInv s) (hsha : headSha s.versions p = some sha) :
    VaultInv { s with readers := s.readers ++ [⟨p, sha, none, false⟩] } where
  idle := h.idle
  pending w hw := ⟨(h.pending w hw).gates, (h.pending w hw).tree, (h.pending w hw).snapshot⟩
  shas := h.shas
  gates := h.gates
  readers r hr := by
    rcases List.mem_append.mp hr with hr | hr
    · exact h.readers r hr
    · rw [List.mem_singleton.mp hr]
      exact ⟨headSha_mem hsha, fun x hx => nomatch hx⟩

theorem readContent_inv (h : VaultInv s) {k : ℕ} (hr : s.readers[k]? = some r) {content : Bytes}
    (hcontent : s.tree r.path = some content) :
    VaultInv { s with readers := s.readers.set k { r with
      content := some content
      during := s.pending.any fun w => w.changesAt r.path } } where
  idle := h.idle
  pending w hw := ⟨(h.pending w hw).gates, (h.pending w hw).tree, (h.pending w hw).snapshot⟩
  shas := h.shas
  gates := h.gates
  readers r' hr' := by
    rcases List.mem_or_eq_of_mem_set hr' with hr' | rfl
    · exact h.readers r' hr'
    · refine ⟨(h.readers r (List.mem_of_getElem? hr)).sha, fun x hx hduring _ => ?_⟩
      rw [← h.tree_eq fun w hw => ?_]
      · exact hcontent.trans hx
      have hany : (s.pending.any fun w => w.changesAt r.path) = false := hduring
      rw [hw] at hany
      exact hany

end

theorem step_inv {s s' : State} {op : Op} (h : VaultInv s) (hs : step s op = some s') : VaultInv s' := by
  cases op with
  | begin gates plan =>
    simp only [step] at hs
    split at hs
    · rename_i hg
      rw [← Option.some.inj hs]
      exact begin_inv h (Option.isNone_iff_eq_none.mp hg.1) (fun g hmem => (hg.2 g hmem).2) _
    · cases hs
  | apply =>
    obtain ⟨w, hw, hs⟩ := Option.bind_eq_some_iff.mp hs
    split at hs
    · cases hs
    · rename_i x waiting hx
      rw [← Option.some.inj hs]
      exact apply_inv h hw hx
  | commit sha =>
    obtain ⟨w, hw, hs⟩ := Option.bind_eq_some_iff.mp hs
    split at hs
    · rename_i hc
      rw [← Option.some.inj hs]
      exact commit_inv h hw hc.1 hc.2.1 hc.2.2
    · cases hs
  | rollback =>
    obtain ⟨w, hw, rfl⟩ := Option.map_eq_some_iff.mp hs
    exact rollback_inv h hw
  | readSha path =>
    simp only [step] at hs
    split at hs
    · obtain ⟨sha, hsha, rfl⟩ := Option.map_eq_some_iff.mp hs
      exact readSha_inv h hsha
    · cases hs
  | readContent k =>
    obtain ⟨r, hr, hs⟩ := Option.bind_eq_some_iff.mp hs
    obtain ⟨content, hcontent, hs⟩ := Option.bind_eq_some_iff.mp hs
    split at hs
    · rw [← Option.some.inj hs]
      exact readContent_inv h hr hcontent
    · cases hs

theorem vault_inv {s : State} (h : Reach vault free s) : VaultInv s := by
  refine h.inv (fun s hs => ?_) fun s op t _ hi _ hst => step_inv hi hst
  rw [show s = .init from hs]
  exact ⟨fun _ => rfl, fun _ => (nomatch ·), fun v hv => absurd hv List.not_mem_nil,
    fun newer v older hv => by simp [State.init] at hv, fun r hr => absurd hr List.not_mem_nil⟩

theorem isSpace_of_hex : ∀ c ∈ hexDigits, isSpace c = false := by decide

theorem strip_sha {sha : Text} (h : isSha sha = true) : strip sha = sha := by
  rw [isSha, Bool.and_eq_true, List.all_eq_true] at h
  refine stripBy_eq_self.mpr ⟨fun c hc => ?_, fun c hc => ?_⟩
  · exact isSpace_of_hex c (of_decide_eq_true (h.2 c (List.mem_of_mem_head? hc)))
  · exact isSpace_of_hex c (of_decide_eq_true (h.2 c (List.mem_of_getLast? hc)))

theorem shaIsFresh_iff {head : Option Text} {expected : Text} : shaIsFresh head expected = true ↔
    ∃ sha, head = some sha ∧ strip expected ≠ [] ∧ strip expected <+: sha := by
  cases head with
  | none => simp [shaIsFresh]
  | some sha => simp [shaIsFresh, List.isPrefixOf_iff_prefix]

/-- A whole sha passes for itself only. -/
theorem shaIsFresh_sha {head sha : Text} (hhead : isSha head = true) (hsha : isSha sha = true)
    (h : shaIsFresh (some head) sha = true) : head = sha := by
  obtain ⟨_, rfl, _, hstart⟩ : ∃ sha', head = sha' ∧ strip sha ≠ [] ∧ strip sha <+: sha' := by
    simpa using shaIsFresh_iff.mp h
  rw [strip_sha hsha] at hstart
  simp only [isSha, Bool.and_eq_true, decide_eq_true_eq] at hhead hsha
  exact (hstart.eq_of_length (hsha.1.trans hhead.1.symm)).symm

theorem VaultInv.isSha_mem {s : State} (h : VaultInv s) {sha : Text} (hsha : sha ∈ s.versions.map Version.sha) :
    isSha sha = true := by
  obtain ⟨v, hv, rfl⟩ := List.mem_map.mp hsha
  exact h.shas v hv

/-- **No update is lost.**  Every gated commit comes right after the version that its write expected at each of its
files; and when no write is going on, a reader whose sha passes the gate holds the content of the file, unless a
write was at the file when he read it. -/
theorem no_lost_update {s : State} (h : Reach vault free s) :
    (∀ newer v older, s.versions = newer ++ v :: older → ∀ g ∈ v.gates, ∃ sha,
      headSha older g.1 = some sha ∧ strip g.2 ≠ [] ∧ strip g.2 <+: sha) ∧
    (∀ r ∈ s.readers, ∀ content, r.content = some content → r.during = false → s.pending = none →
      shaIsFresh (headSha s.versions r.path) r.sha = true → s.tree r.path = some content) := by
  have hi := vault_inv h
  constructor
  · intro newer v older hv g hg
    exact shaIsFresh_iff.mp (hi.gates newer v older hv g hg)
  · intro r hr content hcontent hduring hidle hfresh
    have hri := hi.readers r hr
    obtain ⟨head, hhead, _⟩ := shaIsFresh_iff.mp hfresh
    rw [hhead] at hfresh
    have heq : head = r.sha := shaIsFresh_sha (hi.isSha_mem (headSha_mem hhead)) (hi.isSha_mem hri.sha) hfresh
    rw [hi.idle hidle]
    exact hri.content content hcontent hduring (heq ▸ hhead)

def noteMd : RelPath := ⟨"a.md", by decide⟩

def sha1 : Text := List.replicate 40 '1'

/-- Two reads of the first version, and a write in between that is rolled back. -/
def twoReaders : List Op :=
  [.begin [] fun _ => [(noteMd, some [97])], .apply, .commit sha1, .readSha noteMd, .readContent 0, .readSha noteMd,
   .begin [(noteMd, sha1)] fun _ => [(noteMd, some [98])], .apply, .rollback, .readContent 1]

theorem no_lost_update_twoReaders : ∃ s, vault.exec .init twoReaders = some s ∧
    s.readers = [⟨noteMd, sha1, some [97], false⟩, ⟨noteMd, sha1, some [97], false⟩] ∧ s.tree noteMd = some [97] := by
  have hview : (vault.exec .init twoReaders).map
      (fun s => (s.readers, s.pending.isNone, shaIsFresh (headSha s.versions noteMd) sha1)) =
      some ([⟨noteMd, sha1, some [97], false⟩, ⟨noteMd, sha1, some [97], false⟩], true, true) := by decide +kernel
  obtain ⟨s, hs, hv⟩ := Option.map_eq_some_iff.mp hview
  simp only [Prod.mk.injEq] at hv
  have hreach : Reach vault free s := .of_exec (.start rfl) hs
  refine ⟨s, hs, hv.1, (no_lost_update hreach).2 ⟨noteMd, sha1, some [97], false⟩ ?_ [97] rfl rfl
    (Option.isNone_iff_eq_none.mp hv.2.1) hv.2.2⟩
  rw [hv.1]
  exact List.mem_cons_self

end Kajet.Versions
