import Kajet.Lib.Tree

/-!
# Commits of the workspace repository

What a write path sees of `GitRepository`: the working tree is a `Tree`, the index, the objects and
`HEAD` are behind the porcelain, which is a parameter (`Porcelain`).  Every call may raise.

* `Exc`, `Exc.caught`       exception classes, and the ones that `except GitError, OSError` catches;
* `commitChanges`           removals are index-only: the working tree is not touched;
* `deleteFiles`             unlinks, then commits; any `Exception` surfaces as `GitError`.
-/

namespace Kajet.Write

/-- A workspace-relative path of a file.  It is never empty, so the source's tests for a true value
and for `None` agree on it. -/
abbrev RelPath := {p : String // p ≠ ""}

abbrev Bytes := List UInt8

abbrev Files := Tree RelPath Bytes

/-- The classes that the `except` clauses tell apart. -/
inductive Exc where
  | gitError
  | osError
  /-- any other subclass of `Exception` -/
  | exception
  /-- a `BaseException` that is no `Exception`: `KeyboardInterrupt`, `SystemExit` -/
  | base
deriving DecidableEq

/-- `except GitError, OSError` -/
def Exc.caught : Exc → Bool
  | .gitError => true
  | .osError => true
  | _ => false

/-- `except GitError: raise` / `except Exception as e: raise GitError(str(e)) from e` -/
def Exc.wrap : Exc → Exc
  | .base => .base
  | _ => .gitError

/-- The calls into the operating system and the git library, over a repository state `G`. -/
structure Porcelain (G : Type) where
  /-- opening the repository: `GitRepository(ws_path)` -/
  openRepo : G → Option Exc
  /-- taking the workspace lock -/
  lock : G → Option Exc
  /-- `porcelain.rm(…, cached=True)` -/
  rm : Files → List RelPath → G → G × Option Exc
  /-- `porcelain.add` -/
  add : Files → List RelPath → G → G × Option Exc
  /-- `porcelain.commit` -/
  commit : Files → String → G → G × Option Exc
  /-- why the file at a path cannot be read, or unlinked -/
  read : Files → RelPath → Option Exc
  unlink : Files → RelPath → Option Exc

variable {G : Type}

/-- The body of `with _git_write(…): try:`; every step is skipped once one has raised. -/
def commitSteps (env : Porcelain G) (removed added : List RelPath) (message : String) (t : Files)
    (g : G) : G × Option Exc :=
  if added.any fun p => (t p).isNone then (g, some .gitError)
  else
    match if removed = [] then (g, none) else env.rm t removed g with
    | (g, some e) => (g, some e)
    | (g, none) =>
      match if added = [] then (g, none) else env.add t added g with
      | (g, some e) => (g, some e)
      | (g, none) => env.commit t message g

def commitChanges (env : Porcelain G) (removed added : List RelPath) (message : String) (t : Files)
    (g : G) : G × Option Exc :=
  if removed = [] ∧ added = [] then (g, none)
  else
    match env.lock g with
    | some e => (g, some e)
    | none =>
      let (g, e) := commitSteps env removed added message t g
      (g, e.map Exc.wrap)

/-- `Path(…).unlink(missing_ok=True)` along a list, up to the first one that raises. -/
def unlinkAll (env : Porcelain G) : List RelPath → Files → Files × Option Exc
  | [], t => (t, none)
  | p :: ps, t =>
    match env.unlink t p with
    | some e => (t, some e)
    | none => unlinkAll env ps (Function.update t p none)

def deleteFiles (env : Porcelain G) (paths : List RelPath) (message : String) (t : Files) (g : G) :
    (Files × G) × Option Exc :=
  if paths = [] then ((t, g), none)
  else
    match unlinkAll env paths t with
    | (t, some e) => ((t, g), some e.wrap)
    | (t, none) =>
      let (g, e) := commitChanges env paths [] message t g
      ((t, g), e.map Exc.wrap)

/-! ## what a failed deletion leaves -/

section
variable {env : Porcelain G} {t : Files} {g : G}

/-- The paths unlinked before the first that raises. -/
def unlinked (env : Porcelain G) : List RelPath → Files → List RelPath
  | [], _ => []
  | p :: ps, t =>
    match env.unlink t p with
    | some _ => []
    | none => p :: unlinked env ps (Function.update t p none)

theorem unlinkAll_tree (ps : List RelPath) (q : RelPath) :
    (unlinkAll env ps t).1 q = if q ∈ unlinked env ps t then none else t q := by
  induction ps generalizing t with
  | nil => rfl
  | cons p ps ih =>
    unfold unlinkAll unlinked
    cases env.unlink t p with
    | some e => rfl
    | none =>
      show (unlinkAll env ps (Function.update t p none)).1 q = _
      rw [ih]
      by_cases hq : q = p
      · subst hq
        simp
      · simp [hq]

/-- Staging leaves `HEAD` alone, and a commit that raises has not moved it. -/
structure KeepsHead (env : Porcelain G) (head : G → RelPath → Option Bytes) : Prop where
  rm : ∀ t ps g, head (env.rm t ps g).1 = head g
  add : ∀ t ps g, head (env.add t ps g).1 = head g
  commit : ∀ t m g e, (env.commit t m g).2 = some e → head (env.commit t m g).1 = head g

variable {head : G → RelPath → Option Bytes} {removed added : List RelPath} {message : String}
  {e : Exc}

theorem commitSteps_head (hk : KeepsHead env head)
    (h : (commitSteps env removed added message t g).2 = some e) :
    head (commitSteps env removed added message t g).1 = head g := by
  unfold commitSteps at h ⊢
  split
  · rfl
  rename_i hex
  rw [if_neg hex] at h
  have hrm : head (if removed = [] then (g, none) else env.rm t removed g).1 = head g := by
    split
    · rfl
    · exact hk.rm t removed g
  split
  · rename_i g1 e1 h1
    rw [h1] at hrm
    exact hrm
  rename_i g1 h1
  rw [h1] at h hrm
  have hadd : head (if added = [] then (g1, none) else env.add t added g1).1 = head g1 := by
    split
    · rfl
    · exact hk.add t added g1
  dsimp only at h
  split
  · rename_i g2 e2 h2
    rw [h2] at hadd
    exact hadd.trans hrm
  · rename_i g2 h2
    rw [h2] at h hadd
    exact (hk.commit t message g2 e h).trans (hadd.trans hrm)

theorem commitChanges_head (hk : KeepsHead env head)
    (h : (commitChanges env removed added message t g).2 = some e) :
    head (commitChanges env removed added message t g).1 = head g := by
  unfold commitChanges at h ⊢
  split
  · rfl
  rename_i hne
  rw [if_neg hne] at h
  cases hl : env.lock g with
  | some e' => rfl
  | none =>
    rw [hl] at h
    obtain ⟨e', he', _⟩ := Option.map_eq_some_iff.mp h
    exact commitSteps_head hk he'

/-- A deletion that raises has removed the files it had unlinked, and `HEAD` is where it was. -/
theorem deleteFiles_raised (hk : KeepsHead env head) {paths : List RelPath}
    (h : (deleteFiles env paths message t g).2 = some e) :
    (∀ q, (deleteFiles env paths message t g).1.1 q = if q ∈ unlinked env paths t then none else t q) ∧
      head (deleteFiles env paths message t g).1.2 = head g := by
  unfold deleteFiles at h ⊢
  split
  · rename_i hnil
    rw [if_pos hnil] at h
    cases h
  rename_i hne
  rw [if_neg hne] at h
  have htree : ∀ q, (unlinkAll env paths t).1 q = _ := unlinkAll_tree paths
  split
  · rename_i t' e' hu
    rw [hu] at htree
    exact ⟨htree, rfl⟩
  · rename_i t' hu
    rw [hu] at h htree
    obtain ⟨e', he', _⟩ := Option.map_eq_some_iff.mp h
    exact ⟨htree, commitChanges_head hk he'⟩

end

end Kajet.Write
