import Kajet.Write.Staged

/-!
# Deleting notes

`delete` and `delete_many` tear the rows down, unlink the files and commit their removal inside one
transaction.  The rows come back by the rollback and `HEAD` does not move before the commit has
succeeded; nothing puts an unlinked file back.

* `delete`, `deleteMany`      the parts of the two methods that write, after validation; the row
                              teardown is any function of the rows that may raise;
* `Intact`                    rows, files and `HEAD` are as before;
* `delete_intact_iff`         a failed deletion leaves everything in place exactly when no existing
                              file had been unlinked.
-/

namespace Kajet.Write

section
variable {D G : Type}

def delete (env : Porcelain G) (teardown : D → D × Option Exc) (relative : RelPath)
    (noteId : String) (s : Store D G) : Store D G × Option Exc :=
  let fileExists := (s.tree relative).isSome
  commitRowsThen teardown (fun _ => none) (fun t g =>
    if fileExists then
      match env.openRepo g with
      | some e => ((t, g), some e)
      | none => deleteFiles env [relative] ("note: delete " ++ noteId) t g
    else ((t, g), none)) s

/-- Validation has found a file at every path. -/
def deleteMany (env : Porcelain G) (teardown : D → D × Option Exc) (relatives : List RelPath)
    (s : Store D G) : Store D G × Option Exc :=
  let n := relatives.length
  commitRowsThen teardown (fun _ => none) (deleteFiles env relatives
    ("note: delete " ++ toString n ++ " note" ++ (if n = 1 then "" else "s"))) s

/-- Rows, files and `HEAD` are as before. -/
structure Intact (head : G → RelPath → Option Bytes) (paths : List RelPath) (s s' : Store D G) :
    Prop where
  rows : s'.rows = s.rows
  files : ∀ p ∈ paths, s'.tree p = s.tree p
  head_eq : ∀ p ∈ paths, head s'.git p = head s.git p

variable {env : Porcelain G} {head : G → RelPath → Option Bytes} {teardown : D → D × Option Exc}
  {s : Store D G} {e : Exc}

/-- A transaction whose teardown succeeds ends where its tree callback ends. -/
theorem commitRowsThen_tree {commitTree : Files → G → (Files × G) × Option Exc}
    (hrows : (teardown s.rows).2 = none)
    (h : (commitRowsThen teardown (fun _ => none) commitTree s).2 = some e) :
    (commitTree s.tree s.git).2 = some e ∧
    (commitRowsThen teardown (fun _ => none) commitTree s).1 =
      ⟨s.rows, (commitTree s.tree s.git).1.1, (commitTree s.tree s.git).1.2⟩ := by
  have hpair : teardown s.rows = ((teardown s.rows).1, none) := Prod.ext rfl hrows
  unfold commitRowsThen at h ⊢
  rw [hpair] at h ⊢
  dsimp only at h ⊢
  split
  · rename_i t g e' hc
    rw [hc] at h ⊢
    exact ⟨h, rfl⟩
  · rename_i t g hc
    rw [hc] at h
    cases h

theorem commitRowsThen_rows {commitTree : Files → G → (Files × G) × Option Exc}
    (hrows : (teardown s.rows).2 ≠ none) :
    (commitRowsThen teardown (fun _ => none) commitTree s).1 = s := by
  obtain ⟨e', he⟩ := Option.ne_none_iff_exists'.mp hrows
  have hpair : teardown s.rows = ((teardown s.rows).1, some e') := Prod.ext rfl he
  unfold commitRowsThen
  rw [hpair]

theorem intact_refl (paths : List RelPath) : Intact head paths s s := ⟨rfl, fun _ _ => rfl, fun _ _ => rfl⟩

theorem unlinked_subset {paths : List RelPath} {t : Files} {p : RelPath}
    (h : p ∈ unlinked env paths t) : p ∈ paths := by
  induction paths generalizing t with
  | nil => cases h
  | cons q paths ih =>
    unfold unlinked at h
    cases hu : env.unlink t q with
    | some e => rw [hu] at h; cases h
    | none =>
      rw [hu] at h
      rcases List.mem_cons.mp h with rfl | h
      · exact List.mem_cons_self
      · exact List.mem_cons_of_mem _ (ih h)

/-- A failed `delete_files` inside the transaction. -/
theorem deleteFiles_intact_iff (hk : KeepsHead env head) {paths : List RelPath} {message : String}
    (h : (deleteFiles env paths message s.tree s.git).2 = some e) :
    Intact head paths s ⟨s.rows, (deleteFiles env paths message s.tree s.git).1.1,
      (deleteFiles env paths message s.tree s.git).1.2⟩ ↔
    ∀ p ∈ unlinked env paths s.tree, s.tree p = none := by
  obtain ⟨htree, hhead⟩ := deleteFiles_raised hk h
  constructor
  · intro hi p hp
    have hpt : (deleteFiles env paths message s.tree s.git).1.1 p = s.tree p :=
      hi.files p (unlinked_subset hp)
    rw [htree p, if_pos hp] at hpt
    exact hpt.symm
  · intro hnone
    refine ⟨rfl, fun p _ => ?_, fun p _ => by rw [hhead]⟩
    show (deleteFiles env paths message s.tree s.git).1.1 p = s.tree p
    rw [htree p]
    split
    · rename_i hp
      exact (hnone p hp).symm
    · rfl

theorem deleteMany_intact_iff (hk : KeepsHead env head) {paths : List RelPath}
    (h : (deleteMany env teardown paths s).2 = some e) :
    Intact head paths s (deleteMany env teardown paths s).1 ↔
      ((teardown s.rows).2 ≠ none ∨ ∀ p ∈ unlinked env paths s.tree, s.tree p = none) := by
  by_cases hrows : (teardown s.rows).2 = none
  · obtain ⟨hraise, heq⟩ := commitRowsThen_tree hrows h
    rw [or_iff_right (not_not.mpr hrows)]
    unfold deleteMany
    rw [heq]
    exact deleteFiles_intact_iff hk hraise
  · refine iff_of_true ?_ (.inl hrows)
    unfold deleteMany
    rw [commitRowsThen_rows hrows]
    exact intact_refl paths

theorem deleteOne_intact_iff (hk : KeepsHead env head) {p : RelPath} {noteId : String}
    (h : (delete env teardown p noteId s).2 = some e) :
    Intact head [p] s (delete env teardown p noteId s).1 ↔
      ((teardown s.rows).2 ≠ none ∨ env.openRepo s.git ≠ none ∨ env.unlink s.tree p ≠ none) := by
  by_cases hrows : (teardown s.rows).2 = none
  · obtain ⟨hraise, heq⟩ := commitRowsThen_tree hrows h
    rw [or_iff_right (not_not.mpr hrows)]
    unfold delete
    rw [heq]
    cases hf : (s.tree p).isSome with
    | false => rw [hf] at hraise; cases hraise
    | true =>
      rw [hf, if_pos rfl] at hraise
      rw [if_pos rfl]
      cases ho : env.openRepo s.git with
      | some e' => exact iff_of_true (intact_refl [p]) (.inl (by simp))
      | none =>
        rw [ho] at hraise
        rw [or_iff_right (by simp)]
        rw [deleteFiles_intact_iff hk hraise, unlinked]
        cases hu : env.unlink s.tree p with
        | some e' => exact iff_of_true (fun q hq => absurd hq List.not_mem_nil) (by simp)
        | none =>
          refine iff_of_false (fun hnone => ?_) (by simp)
          rw [hnone p List.mem_cons_self] at hf
          cases hf
  · refine iff_of_true ?_ (.inl hrows)
    unfold delete
    dsimp only
    rw [commitRowsThen_rows hrows]
    exact intact_refl [p]

/-- A failed `delete` leaves everything in place exactly when the teardown, opening the repository
or the unlink raised; a failed `delete_many` exactly when the teardown raised or no existing file had
been unlinked. -/
theorem delete_intact_iff (hk : KeepsHead env head) :
    (∀ p noteId, (delete env teardown p noteId s).2 ≠ none →
      (Intact head [p] s (delete env teardown p noteId s).1 ↔
        ((teardown s.rows).2 ≠ none ∨ env.openRepo s.git ≠ none ∨ env.unlink s.tree p ≠ none))) ∧
    (∀ paths, (deleteMany env teardown paths s).2 ≠ none →
      (Intact head paths s (deleteMany env teardown paths s).1 ↔
        ((teardown s.rows).2 ≠ none ∨ ∀ p ∈ unlinked env paths s.tree, s.tree p = none))) := by
  constructor
  · intro p noteId h
    obtain ⟨e, he⟩ := Option.ne_none_iff_exists'.mp h
    exact deleteOne_intact_iff hk he
  · intro paths h
    obtain ⟨e, he⟩ := Option.ne_none_iff_exists'.mp h
    exact deleteMany_intact_iff hk he

end

/-! ### a commit that fails after the unlink -/

/-- The repository state is the tree of `HEAD`; committing raises. -/
def fullDisk : Porcelain Files where
  openRepo _ := none
  lock _ := none
  rm _ _ g := (g, none)
  add _ _ g := (g, none)
  commit _ _ g := (g, some .osError)
  read _ _ := none
  unlink _ _ := none

def twoNotes : Store Nat Files :=
  let files : Files := fun p => if p = oldMd ∨ p = newMd then some [104, 105] else none
  ⟨2, files, files⟩

/-- Both files are gone from the disk while their rows are back. -/
theorem delete_intact_fullDisk :
    (deleteMany fullDisk (fun d => (d - 2, none)) [oldMd, newMd] twoNotes).2 = some .gitError ∧
    (deleteMany fullDisk (fun d => (d - 2, none)) [oldMd, newMd] twoNotes).1.rows = 2 ∧
    (∀ p ∈ [oldMd, newMd], twoNotes.tree p = some [104, 105] ∧
      (deleteMany fullDisk (fun d => (d - 2, none)) [oldMd, newMd] twoNotes).1.tree p = none) ∧
    (delete fullDisk (fun d => (d - 1, none)) oldMd "n1" twoNotes).2 = some .gitError ∧
    (delete fullDisk (fun d => (d - 1, none)) oldMd "n1" twoNotes).1.tree oldMd = none := by
  decide +kernel

/-- A teardown that raises leaves everything in place. -/
theorem delete_intact_teardown :
    Intact id [oldMd, newMd] twoNotes
      (deleteMany fullDisk (fun d => (d - 2, some .exception)) [oldMd, newMd] twoNotes).1 := by
  have hk : KeepsHead fullDisk id := ⟨fun _ _ _ => rfl, fun _ _ _ => rfl, fun _ _ _ _ _ => rfl⟩
  exact ((delete_intact_iff hk).2 [oldMd, newMd] (by decide +kernel)).mpr (.inl (by simp))

end Kajet.Write
