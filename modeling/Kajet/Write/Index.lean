import Kajet.Write.Staged

/-!
# The index after a commit that failed

`commit_changes` stages in two steps and then commits.  Callers put the working tree back when it raises;
nobody puts the index back.

* `Usual`         what the porcelain does to the index and to `HEAD`, when it raises and when it does not;
* `Traceless`     the index is as before, and the next commit records its own paths only;
* `Unstaged`      what was staged before the step that raised changed nothing;
* `commitChanges_traceless_iff`.
-/

namespace Kajet.Write

variable {G : Type}

/-- The index and the tree of `HEAD` under the porcelain.  A call that raises has not written the index: it is
replaced in one step at the end; and it has not moved `HEAD`. -/
structure Usual (env : Porcelain G) (index head : G → RelPath → Option Bytes) : Prop where
  rm : ∀ t ps g, (env.rm t ps g).2 = none → ∀ p, index (env.rm t ps g).1 p = if p ∈ ps then none else index g p
  rm_raised : ∀ t ps g e, (env.rm t ps g).2 = some e → index (env.rm t ps g).1 = index g
  add : ∀ t ps g, (env.add t ps g).2 = none → ∀ p, index (env.add t ps g).1 p = if p ∈ ps then t p else index g p
  add_raised : ∀ t ps g e, (env.add t ps g).2 = some e → index (env.add t ps g).1 = index g
  commit : ∀ t m g, (env.commit t m g).2 = none → head (env.commit t m g).1 = index g
  commit_index : ∀ t m g, index (env.commit t m g).1 = index g
  keeps : KeepsHead env head

/-- The failed call left `g'`: the index is that of before, and a later call that succeeds makes a commit that
differs from it in its own paths only. -/
structure Traceless (env : Porcelain G) (index head : G → RelPath → Option Bytes) (g g' : G) : Prop where
  same : index g' = index g
  next : ∀ t removed added message, ¬ (removed = [] ∧ added = []) →
    (commitChanges env removed added message t g').2 = none → ∀ p, p ∉ removed → p ∉ added →
      head (commitChanges env removed added message t g').1 p = index g p

/-! ## the steps -/

/-- `if removed: porcelain.rm(…)` -/
def stageRemoved (env : Porcelain G) (removed : List RelPath) (t : Files) (g : G) : G × Option Exc :=
  if removed = [] then (g, none) else env.rm t removed g

/-- `if added: porcelain.add(…)` -/
def stageAdded (env : Porcelain G) (added : List RelPath) (t : Files) (g : G) : G × Option Exc :=
  if added = [] then (g, none) else env.add t added g

/-- The steps go on after the staging of the removals. -/
def RemovedStaged (env : Porcelain G) (removed added : List RelPath) (t : Files) (g : G) : Prop :=
  env.lock g = none ∧ (∀ p ∈ added, t p ≠ none) ∧ (stageRemoved env removed t g).2 = none

/-- What had been staged when a step raised was in the index already. -/
structure Unstaged (env : Porcelain G) (index : G → RelPath → Option Bytes) (removed added : List RelPath)
    (message : String) (t : Files) (g : G) : Prop where
  /-- the staging of the additions raises -/
  add : RemovedStaged env removed added t g → (stageAdded env added t (stageRemoved env removed t g).1).2 ≠ none →
    ∀ p ∈ removed, index g p = none
  /-- the commit raises -/
  commit : RemovedStaged env removed added t g → (stageAdded env added t (stageRemoved env removed t g).1).2 = none →
    (env.commit t message (stageAdded env added t (stageRemoved env removed t g).1).1).2 ≠ none →
    (∀ p ∈ removed, p ∉ added → index g p = none) ∧ ∀ p ∈ added, index g p = t p

section
variable {env : Porcelain G} {index head : G → RelPath → Option Bytes} {removed added : List RelPath}
  {message : String} {t : Files} {g : G} {e : Exc}

theorem commitSteps_eq : commitSteps env removed added message t g =
    if added.any fun p => (t p).isNone then (g, some .gitError)
    else match stageRemoved env removed t g with
      | (g, some e) => (g, some e)
      | (g, none) => match stageAdded env added t g with
        | (g, some e) => (g, some e)
        | (g, none) => env.commit t message g := rfl

theorem stageRemoved_index (hu : Usual env index head) (h : (stageRemoved env removed t g).2 = none) (p : RelPath) :
    index (stageRemoved env removed t g).1 p = if p ∈ removed then none else index g p := by
  unfold stageRemoved at h ⊢
  split
  · rename_i hnil
    subst hnil
    rfl
  · rename_i hne
    rw [if_neg hne] at h
    exact hu.rm t removed g h p

theorem stageRemoved_raised (hu : Usual env index head) (h : (stageRemoved env removed t g).2 = some e) :
    index (stageRemoved env removed t g).1 = index g := by
  unfold stageRemoved at h ⊢
  split
  · rfl
  · rename_i hne
    rw [if_neg hne] at h
    exact hu.rm_raised t removed g e h

theorem stageAdded_index (hu : Usual env index head) (h : (stageAdded env added t g).2 = none) (p : RelPath) :
    index (stageAdded env added t g).1 p = if p ∈ added then t p else index g p := by
  unfold stageAdded at h ⊢
  split
  · rename_i hnil
    subst hnil
    rfl
  · rename_i hne
    rw [if_neg hne] at h
    exact hu.add t added g h p

theorem stageAdded_raised (hu : Usual env index head) (h : (stageAdded env added t g).2 = some e) :
    index (stageAdded env added t g).1 = index g := by
  unfold stageAdded at h ⊢
  split
  · rfl
  · rename_i hne
    rw [if_neg hne] at h
    exact hu.add_raised t added g e h

/-! ## a commit that succeeds -/

/-- A commit records the index, with its own paths staged. -/
theorem commitChanges_records (hu : Usual env index head) (hne : ¬ (removed = [] ∧ added = []))
    (h : (commitChanges env removed added message t g).2 = none) (p : RelPath) (hr : p ∉ removed) (ha : p ∉ added) :
    head (commitChanges env removed added message t g).1 p = index g p := by
  unfold commitChanges at h ⊢
  rw [if_neg hne] at h ⊢
  cases hlock : env.lock g with
  | some e =>
    rw [hlock] at h
    cases h
  | none =>
    rw [hlock, commitSteps_eq] at h
    rw [commitSteps_eq]
    dsimp only at h ⊢
    split at h
    · cases h
    rename_i hexists
    rw [if_neg hexists]
    cases hrm : stageRemoved env removed t g with
    | mk g1 e1 =>
      have hindex1 := @stageRemoved_index G env index head removed t g hu
      rw [hrm] at h hindex1
      cases e1 with
      | some e1 => cases h
      | none =>
        dsimp only at h ⊢
        cases hadd : stageAdded env added t g1 with
        | mk g2 e2 =>
          have hindex2 := @stageAdded_index G env index head added t g1 hu
          rw [hadd] at h hindex2
          cases e2 with
          | some e2 => cases h
          | none =>
            have hcommit : (env.commit t message g2).2 = none := by
              cases hc : (env.commit t message g2).2 with
              | none => rfl
              | some e =>
                dsimp only at h
                rw [hc] at h
                cases h
            show head (env.commit t message g2).1 p = _
            rw [hu.commit t message g2 hcommit, hindex2 rfl p, if_neg ha, hindex1 rfl p, if_neg hr]

/-! ## a commit that fails -/

/-- Where the call raised, and the index there. -/
theorem commitChanges_failed (hu : Usual env index head)
    (h : (commitChanges env removed added message t g).2 = some e) :
    (¬ RemovedStaged env removed added t g ∧
      index (commitChanges env removed added message t g).1 = index g) ∨
    (RemovedStaged env removed added t g ∧ (stageAdded env added t (stageRemoved env removed t g).1).2 ≠ none ∧
      ∀ p, index (commitChanges env removed added message t g).1 p = if p ∈ removed then none else index g p) ∨
    (RemovedStaged env removed added t g ∧ (stageAdded env added t (stageRemoved env removed t g).1).2 = none ∧
      (env.commit t message (stageAdded env added t (stageRemoved env removed t g).1).1).2 ≠ none ∧
      ∀ p, index (commitChanges env removed added message t g).1 p =
        if p ∈ added then t p else if p ∈ removed then none else index g p) := by
  unfold commitChanges at h ⊢
  split at h
  · cases h
  rename_i hne
  rw [if_neg hne]
  cases hlock : env.lock g with
  | some e' =>
    refine .inl ⟨fun hstaged => ?_, rfl⟩
    rw [hstaged.1] at hlock
    cases hlock
  | none =>
    rw [hlock, commitSteps_eq] at h
    rw [commitSteps_eq]
    dsimp only at h ⊢
    split
    · rename_i hmissing
      refine .inl ⟨fun hstaged => ?_, rfl⟩
      obtain ⟨p, hp, hnone⟩ := List.any_eq_true.mp hmissing
      exact hstaged.2.1 p hp (Option.isNone_iff_eq_none.mp hnone)
    rename_i hexists
    rw [if_neg hexists] at h
    have hpresent : ∀ p ∈ added, t p ≠ none := fun p hp hnone =>
      hexists (List.any_eq_true.mpr ⟨p, hp, Option.isNone_iff_eq_none.mpr hnone⟩)
    have hindex1 := @stageRemoved_index G env index head removed t g hu
    have hraised1 := @stageRemoved_raised G env index head removed t g
    cases hrm : stageRemoved env removed t g with
    | mk g1 e1 =>
      rw [hrm] at h hindex1 hraised1
      cases e1 with
      | some e1 =>
        refine .inl ⟨fun hstaged => ?_, hraised1 hu rfl⟩
        have hnone := hstaged.2.2
        rw [hrm] at hnone
        cases hnone
      | none =>
        have hstaged : RemovedStaged env removed added t g := ⟨hlock, hpresent, by rw [hrm]⟩
        right
        dsimp only at h ⊢
        have hindex2 := @stageAdded_index G env index head added t g1 hu
        have hraised2 := @stageAdded_raised G env index head added t g1
        cases hadd : stageAdded env added t g1 with
        | mk g2 e2 =>
          rw [hadd] at h hindex2 hraised2
          cases e2 with
          | some e2 =>
            refine .inl ⟨hstaged, Option.some_ne_none e2, fun p => ?_⟩
            exact (congrFun (hraised2 hu rfl) p).trans (hindex1 rfl p)
          | none =>
            refine .inr ⟨hstaged, rfl, fun hcommit => ?_, fun p => ?_⟩
            · dsimp only at h
              rw [hcommit] at h
              cases h
            · show index (env.commit t message g2).1 p = _
              rw [hu.commit_index, hindex2 rfl p, hindex1 rfl p]

/-- Where the index is that of before, nothing that was staged was new. -/
theorem same_index_iff (hu : Usual env index head) (h : (commitChanges env removed added message t g).2 = some e) :
    index (commitChanges env removed added message t g).1 = index g ↔ Unstaged env index removed added message t g := by
  rcases commitChanges_failed hu h with ⟨hnot, hindex⟩ | ⟨hstaged, hadd, hindex⟩ | ⟨hstaged, hadd, hcommit, hindex⟩
  · exact ⟨fun _ => ⟨fun hstaged => absurd hstaged hnot, fun hstaged => absurd hstaged hnot⟩, fun _ => hindex⟩
  · constructor
    · refine fun hsame => ⟨fun _ _ p hp => ?_, fun _ hnone => absurd hnone hadd⟩
      rw [← congrFun hsame p, hindex, if_pos hp]
    · intro hunstaged
      funext p
      rw [hindex]
      split
      · rename_i hp
        exact (hunstaged.add hstaged hadd p hp).symm
      · rfl
  · constructor
    · refine fun hsame => ⟨fun _ hraised => absurd hadd hraised, fun _ _ _ => ⟨fun p hp hnot => ?_, fun p hp => ?_⟩⟩
      · rw [← congrFun hsame p, hindex, if_neg hnot, if_pos hp]
      · rw [← congrFun hsame p, hindex, if_pos hp]
    · intro hunstaged
      obtain ⟨hremoved, hadded⟩ := hunstaged.commit hstaged hadd hcommit
      funext p
      rw [hindex]
      split
      · rename_i hp
        exact (hadded p hp).symm
      · rename_i hnot
        split
        · rename_i hp
          exact (hremoved p hp hnot).symm
        · rfl

/-- **A failed commit leaves no trace** exactly when nothing had been staged that was not in the index. -/
theorem commitChanges_traceless_iff (hu : Usual env index head)
    (h : (commitChanges env removed added message t g).2 = some e) :
    Traceless env index head g (commitChanges env removed added message t g).1 ↔
      Unstaged env index removed added message t g := by
  rw [← same_index_iff hu h]
  constructor
  · exact fun htraceless => htraceless.same
  · intro hsame
    refine ⟨hsame, fun t' removed' added' message' hne hok p hr ha => ?_⟩
    rw [commitChanges_records hu hne hok p hr ha, hsame]

end

/-! ## a rename that cannot be staged -/

/-- An index and a `HEAD`; new contents cannot be stored while the disk is full. -/
def diskPorcelain : Porcelain (Bool × Files × Files) where
  openRepo _ := none
  lock _ := none
  rm _ ps g := ((g.1, (fun p => if p ∈ ps then none else g.2.1 p), g.2.2), none)
  add t ps g := if g.1 then (g, some .osError)
    else ((g.1, (fun p => if p ∈ ps then t p else g.2.1 p), g.2.2), none)
  commit _ _ g := ((g.1, g.2.1, g.2.1), none)
  read _ _ := none
  unlink _ _ := none

theorem diskPorcelain_usual : Usual diskPorcelain (fun g => g.2.1) fun g => g.2.2 where
  rm _ _ _ _ _ := rfl
  rm_raised _ _ _ _ h := nomatch h
  add t ps g h p := by
    unfold diskPorcelain at h ⊢
    dsimp only at h ⊢
    split at h
    · cases h
    · rename_i hfull
      rw [if_neg hfull]
  add_raised t ps g e h := by
    unfold diskPorcelain at h ⊢
    dsimp only at h ⊢
    split at h
    · rename_i hfull
      rw [if_pos hfull]
    · cases h
  commit _ _ _ _ := rfl
  commit_index _ _ _ := rfl
  keeps := ⟨fun _ _ _ => rfl, fun t ps g => by unfold diskPorcelain; dsimp only; split <;> rfl, fun _ _ _ _ h => nomatch h⟩

/-- The repository of one committed note, on a full disk. -/
def fullRepo : Bool × Files × Files :=
  let files : Files := fun p => if p = oldMd then some [104, 105] else none
  (true, files, files)

def diskFiles (p q : RelPath) : Files := fun r => if r = p ∨ r = q then some [104, 105] else none

/-- The note `old.md` is moved to `new.md`, the staging fails and the file is moved back; the commit of another
file then drops `old.md` from the repository. -/
theorem commitChanges_leaves_removal :
    let failed := commitChanges diskPorcelain [oldMd] [newMd] "move" (diskFiles newMd newMd) fullRepo
    failed.2 = some .gitError ∧ failed.1.2.1 oldMd = none ∧ fullRepo.2.1 oldMd = some [104, 105] ∧
      ¬ Traceless diskPorcelain (fun g => g.2.1) (fun g => g.2.2) fullRepo failed.1 := by
  intro failed
  have hindex : failed.1.2.1 oldMd = none := by decide +kernel
  have hbefore : fullRepo.2.1 oldMd = some [104, 105] := by decide +kernel
  refine ⟨by decide +kernel, hindex, hbefore, fun htraceless => ?_⟩
  have hsame : failed.1.2.1 oldMd = fullRepo.2.1 oldMd := congrFun htraceless.same oldMd
  rw [hindex, hbefore] at hsame
  cases hsame

/-- A missing file is found before anything is staged. -/
theorem commitChanges_traceless_missing :
    Traceless diskPorcelain (fun g => g.2.1) (fun g => g.2.2) fullRepo
      (commitChanges diskPorcelain [oldMd] [newMd] "move" (diskFiles oldMd oldMd) fullRepo).1 :=
  (commitChanges_traceless_iff (e := .gitError) diskPorcelain_usual (by decide +kernel)).mpr
    ⟨fun hstaged => absurd (hstaged.2.1 newMd List.mem_cons_self) (by decide +kernel),
      fun hstaged => absurd (hstaged.2.1 newMd List.mem_cons_self) (by decide +kernel)⟩

end Kajet.Write
