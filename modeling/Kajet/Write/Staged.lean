import Kajet.Write.Git

/-!
# Rows first, tree last: `commit_rows_then_tree`

The rows are written and flushed, the batch of staged changes is applied and committed to git, and
the database commits last.  An exception rolls the rows back; `staged_workspace_change` puts the
tree back from snapshots, but only for the classes it catches.

* `StagedChange`          an item of a batch; its two `__post_init__` checks are fields;
* `stagedWorkspaceChange`, `commitRowsThen`, `commitRowsThenTree`   as in the source;
* `Batch`                 what the caller of a batch asserts: `known_bytes`, `pure_rename`;
* `commitRowsThenTree_restores_iff`   when a failed write leaves rows and tree as they were.
-/

namespace Kajet.Write
open Kajet.Tree

structure StagedChange where
  add : Option RelPath
  remove : Option RelPath
  apply : Files → Files × Option Exc
  knownBytes : Option Bytes
  pureRename : Bool
  pure_paths : pureRename = true → ∃ a r, add = some a ∧ remove = some r
  pure_bytes : pureRename = true → knownBytes = none

/-- The workspace, the rows and the repository. -/
structure Store (D G : Type) where
  rows : D
  tree : Files
  git : G

section
variable {D G : Type}

def StagedChange.paths (i : StagedChange) : List RelPath := i.add.toList ++ i.remove.toList

/-- `remove` if it is set, else `add`. -/
def StagedChange.existing (i : StagedChange) : Option RelPath := i.remove.or i.add

/-- The snapshot of one item, `known_bytes` standing for the bytes of its existing path. -/
def snapshotItem (t : Files) (i : StagedChange) : List (RelPath × Option Bytes) :=
  i.paths.map fun p => if i.existing = some p ∧ i.knownBytes ≠ none then (p, i.knownBytes) else (p, t p)

/-- The first read that raises. -/
def readFailure (env : Porcelain G) (t : Files) (i : StagedChange) : Option Exc :=
  i.paths.findSome? fun p =>
    if i.existing = some p ∧ i.knownBytes ≠ none ∨ t p = none then none else env.read t p

def renamePair (i : StagedChange) : Option (RelPath × RelPath) :=
  match i.add, i.remove with
  | some a, some r => some (a, r)
  | _, _ => none

def snapshots (items : List StagedChange) (t : Files) : List (RelPath × Option Bytes) :=
  (items.filter fun i => !i.pureRename).flatMap (snapshotItem t)

def renamePairs (items : List StagedChange) : List (RelPath × RelPath) :=
  (items.filter (·.pureRename)).filterMap renamePair

/-- `for item in items: item.apply()` -/
def applyAll : List StagedChange → Files → Files × Option Exc
  | [], t => (t, none)
  | i :: is, t =>
    match i.apply t with
    | (t, some e) => (t, some e)
    | (t, none) => applyAll is t

/-- The `except` clause: `t₀` is the tree of the snapshots, `t` the tree at the exception. -/
def handle (items : List StagedChange) (t₀ t : Files) (e : Exc) : Files :=
  if e.caught then moveBacks (renamePairs items) (restore (snapshots items t₀) t) else t

def stagedWorkspaceChange (env : Porcelain G) (items : List StagedChange) (message : String)
    (t₀ : Files) (g : G) : (Files × G) × Option Exc :=
  match (items.filter fun i => !i.pureRename).findSome? (readFailure env t₀) with
  | some e => ((t₀, g), some e)
  | none =>
    match applyAll items t₀ with
    | (t, some e) => ((handle items t₀ t e, g), some e)
    | (t, none) =>
      match commitChanges env (items.filterMap (·.remove)) (items.filterMap (·.add)) message t g with
      | (g, some e) => ((handle items t₀ t e, g), some e)
      | (g, none) => ((t, g), none)

/-- One transaction: the rows are back as they were if anything raises before its end. -/
def commitRowsThen (writeRows : D → D × Option Exc) (flush : D → Option Exc)
    (commitTree : Files → G → (Files × G) × Option Exc) (s : Store D G) : Store D G × Option Exc :=
  match writeRows s.rows with
  | (_, some e) => (s, some e)
  | (rows, none) =>
    match flush rows with
    | some e => (s, some e)
    | none =>
      match commitTree s.tree s.git with
      | ((t, g), some e) => ({ s with tree := t, git := g }, some e)
      | ((t, g), none) => (⟨rows, t, g⟩, none)

def commitRowsThenTree (env : Porcelain G) (items : List StagedChange) (message : String)
    (writeRows : D → D × Option Exc) (flush : D → Option Exc) (s : Store D G) :
    Store D G × Option Exc :=
  commitRowsThen writeRows flush (stagedWorkspaceChange env items message) s

end

/-! ## what the caller of a batch asserts -/

/-- Every workspace path named by the batch. -/
def named (items : List StagedChange) : List RelPath := items.flatMap StagedChange.paths

/-- Nothing but a rename from `r` to a free `a`: it has happened or it has not. -/
def RenameOnly (f : Files → Files × Option Exc) (a r : RelPath) : Prop :=
  ∀ t, ((f t).1 a = t a ∧ (f t).1 r = t r) ∨
    (t a = none ∧ (t r).isSome ∧ (f t).1 a = t r ∧ (f t).1 r = none)

/-- The paths of a pure rename are used by no other item. -/
def Apart (i j : StagedChange) : Prop :=
  i.pureRename = true → ∀ p ∈ i.paths, p ∉ j.paths ∧ ∀ t, (j.apply t).1 p = t p

structure Batch (items : List StagedChange) (t₀ : Files) : Prop where
  known : ∀ i ∈ items, ∀ p b, i.existing = some p → i.knownBytes = some b → t₀ p = some b
  apart : items.Pairwise fun i j => Apart i j ∧ Apart j i
  rename : ∀ i ∈ items, i.pureRename = true → ∀ a r, i.add = some a → i.remove = some r →
    RenameOnly i.apply a r

/-- No pure rename finds its source gone and another file at its target. -/
def NoStranger (items : List StagedChange) (t : Files) : Prop :=
  ∀ x ∈ renamePairs items, ¬ ((t x.1).isSome ∧ (t x.2).isNone)

section
variable {items : List StagedChange} {t₀ t : Files} {i : StagedChange} {p a r : RelPath}

theorem mem_renamePairs {x : RelPath × RelPath} : x ∈ renamePairs items ↔
    ∃ i ∈ items, i.pureRename = true ∧ i.add = some x.1 ∧ i.remove = some x.2 := by
  simp only [renamePairs, List.mem_filterMap, List.mem_filter]
  constructor
  · rintro ⟨i, ⟨hi, hp⟩, hx⟩
    unfold renamePair at hx
    split at hx
    · rename_i a r ha hr
      cases hx
      exact ⟨i, hi, hp, ha, hr⟩
    · cases hx
  · rintro ⟨i, hi, hp, ha, hr⟩
    exact ⟨i, ⟨hi, hp⟩, by simp only [renamePair, ha, hr]⟩

theorem mem_paths : p ∈ i.paths ↔ i.add = some p ∨ i.remove = some p := by
  simp [StagedChange.paths]

theorem mem_named : p ∈ named items ↔ ∃ i ∈ items, p ∈ i.paths := List.mem_flatMap

theorem renamePairs_disjoint (h : items.Pairwise fun i j => Apart i j ∧ Apart j i) :
    (renamePairs items).Pairwise Tree.Disjoint := by
  have hsub := (h.filter fun i => i.pureRename)
  rw [renamePairs, List.pairwise_filterMap]
  refine (hsub.imp_of_mem ?_)
  intro i j hi _ hij x hx y hy
  have hpi : i.pureRename = true := (List.mem_filter.mp hi).2
  have hx' : i.add = some x.1 ∧ i.remove = some x.2 := by
    unfold renamePair at hx
    split at hx
    · rename_i ha hr
      cases hx
      exact ⟨ha, hr⟩
    · cases hx
  have hy' : j.add = some y.1 ∧ j.remove = some y.2 := by
    unfold renamePair at hy
    split at hy
    · rename_i ha hr
      cases hy
      exact ⟨ha, hr⟩
    · cases hy
  have h1 := (hij.1 hpi x.1 (mem_paths.mpr (.inl hx'.1))).1
  have h2 := (hij.1 hpi x.2 (mem_paths.mpr (.inr hx'.2))).1
  rw [mem_paths, hy'.1, hy'.2, Option.some.injEq, Option.some.injEq, not_or] at h1 h2
  exact ⟨fun e => h1.1 e.symm, fun e => h1.2 e.symm, fun e => h2.1 e.symm, fun e => h2.2 e.symm⟩

/-- A path that every item leaves alone. -/
theorem applyAll_frame (h : ∀ j ∈ items, ∀ t, (j.apply t).1 p = t p) :
    (applyAll items t).1 p = t p := by
  induction items generalizing t with
  | nil => rfl
  | cons j items ih =>
    have hj := h j List.mem_cons_self t
    unfold applyAll
    split
    · rename_i t' e he
      rw [he] at hj
      exact hj
    · rename_i t' he
      rw [he] at hj
      rw [ih fun k hk => h k (List.mem_cons_of_mem _ hk)]
      exact hj

/-- However far the batch got, a pure rename has happened or it has not. -/
theorem applyAll_rename (hap : items.Pairwise fun i j => Apart i j ∧ Apart j i) (hi : i ∈ items)
    (hp : i.pureRename = true) (ha : i.add = some a) (hr : i.remove = some r)
    (hren : RenameOnly i.apply a r) :
    ((applyAll items t).1 a = t a ∧ (applyAll items t).1 r = t r) ∨
      (t a = none ∧ (t r).isSome ∧ (applyAll items t).1 a = t r ∧ (applyAll items t).1 r = none) := by
  have hmema : a ∈ i.paths := mem_paths.mpr (.inl ha)
  have hmemr : r ∈ i.paths := mem_paths.mpr (.inr hr)
  induction items generalizing t with
  | nil => cases hi
  | cons j items ih =>
    obtain ⟨hj, hap⟩ := List.pairwise_cons.mp hap
    unfold applyAll
    rcases List.mem_cons.mp hi with rfl | hmem
    · -- the item itself, then items that leave its paths alone
      have hren' := hren t
      split
      · rename_i t' e he
        rw [he] at hren'
        exact hren'
      · rename_i t' he
        rw [he] at hren'
        have h1 : (applyAll items t').1 a = t' a :=
          applyAll_frame fun k hk => ((hj k hk).1 hp a hmema).2
        have h2 : (applyAll items t').1 r = t' r :=
          applyAll_frame fun k hk => ((hj k hk).1 hp r hmemr).2
        rw [h1, h2]
        exact hren'
    · have h1 := ((hj i hmem).2 hp a hmema).2 t
      have h2 := ((hj i hmem).2 hp r hmemr).2 t
      split
      · rename_i t' e he
        rw [he] at h1 h2
        exact .inl ⟨h1, h2⟩
      · rename_i t' he
        rw [he] at h1 h2
        rw [← h1, ← h2]
        exact ih hap hmem

/-! ## the tree after the `except` clause -/

theorem snapshots_eq (hb : Batch items t₀) : ∀ x ∈ snapshots items t₀, x.2 = t₀ x.1 := by
  intro x hx
  obtain ⟨i, hi, hx⟩ := List.mem_flatMap.mp hx
  obtain ⟨p, hp, rfl⟩ := List.mem_map.mp hx
  split
  · rename_i hk
    obtain ⟨b, hbytes⟩ := Option.ne_none_iff_exists'.mp hk.2
    exact hbytes.trans (hb.known i (List.mem_filter.mp hi).1 p b hk.1 hbytes).symm
  · rfl

theorem mem_snapshots : p ∈ (snapshots items t₀).map Prod.fst ↔
    ∃ i ∈ items, i.pureRename = false ∧ p ∈ i.paths := by
  simp only [snapshots, List.mem_map, List.mem_flatMap, List.mem_filter, Bool.not_eq_true',
    snapshotItem]
  constructor
  · rintro ⟨x, ⟨i, ⟨hi, hp⟩, q, hq, rfl⟩, rfl⟩
    refine ⟨i, hi, hp, ?_⟩
    split <;> exact hq
  · rintro ⟨i, hi, hp, hq⟩
    refine ⟨_, ⟨i, ⟨hi, hp⟩, p, hq, rfl⟩, ?_⟩
    split <;> rfl

/-- The paths of a pure rename are in no other item's. -/
theorem Batch.only (hb : Batch items t₀) {j : StagedChange} (hi : i ∈ items) (hj : j ∈ items)
    (hp : i.pureRename = true) (hpi : p ∈ i.paths) (hpj : p ∈ j.paths) : j = i := by
  by_contra hne
  have hsymm : Std.Symm fun i j : StagedChange => Apart i j ∧ Apart j i := ⟨fun _ _ h => ⟨h.2, h.1⟩⟩
  have hap := hb.apart.forall hi hj (fun e => hne e.symm)
  exact (hap.1 hp p hpi).1 hpj

/-- A path of an ordinary item is restored from its snapshot. -/
theorem handle_plain (hb : Batch items t₀) {e : Exc} (he : e.caught = true) (hi : i ∈ items)
    (hp : i.pureRename = false) (hpi : p ∈ i.paths) : handle items t₀ t e p = t₀ p := by
  rw [handle, if_pos he, moveBacks_of_ne, restore_apply _ (snapshots_eq hb), if_pos]
  · exact mem_snapshots.mpr ⟨i, hi, hp, hpi⟩
  · intro x hx
    obtain ⟨j, hj, hpj, hja, hjr⟩ := mem_renamePairs.mp hx
    have hne : i ≠ j := fun e => by rw [e, hpj] at hp; cases hp
    constructor
    · rintro rfl
      exact hne (hb.only hj hi hpj (mem_paths.mpr (.inl hja)) hpi)
    · rintro rfl
      exact hne (hb.only hj hi hpj (mem_paths.mpr (.inr hjr)) hpi)

/-- The two paths of a pure rename see its own rename back and no snapshot. -/
theorem handle_pure (hb : Batch items t₀) {e : Exc} (he : e.caught = true) {x : RelPath × RelPath}
    (hx : x ∈ renamePairs items) :
    handle items t₀ t e x.1 = moveBack t x x.1 ∧ handle items t₀ t e x.2 = moveBack t x x.2 := by
  obtain ⟨i, hi, hp, ha, hr⟩ := mem_renamePairs.mp hx
  have hout : ∀ q ∈ i.paths, restore (snapshots items t₀) t q = t q := by
    intro q hq
    rw [restore_apply _ (snapshots_eq hb), if_neg]
    intro hmem
    obtain ⟨j, hj, hpj, hqj⟩ := mem_snapshots.mp hmem
    rw [hb.only hi hj hp hq hqj, hp] at hpj
    cases hpj
  have h1 := hout x.1 (mem_paths.mpr (.inl ha))
  have h2 := hout x.2 (mem_paths.mpr (.inr hr))
  obtain ⟨m1, m2⟩ := moveBacks_of_mem _ (renamePairs_disjoint hb.apart)
    (restore (snapshots items t₀) t) hx
  rw [handle, if_pos he, m1, m2]
  by_cases hmv : (t x.1).isSome ∧ (t x.2).isNone
  · have hmv' : (restore (snapshots items t₀) t x.1).isSome ∧
        (restore (snapshots items t₀) t x.2).isNone := by rwa [h1, h2]
    have hl := moveBack_moved hmv'
    have hr := moveBack_moved hmv
    exact ⟨hl.1.trans hr.1.symm, (hl.2.trans h1).trans hr.2.symm⟩
  · have hmv' : ¬ ((restore (snapshots items t₀) t x.1).isSome ∧
        (restore (snapshots items t₀) t x.2).isNone) := by rwa [h1, h2]
    rw [moveBack_still hmv, moveBack_still hmv']
    exact ⟨h1, h2⟩

/-- After a caught exception the named paths are as before exactly when no pure rename is confused
by a stranger at its target. -/
theorem handle_caught_iff (hb : Batch items t₀) {e : Exc} (he : e.caught = true) :
    (∀ p ∈ named items, handle items t₀ (applyAll items t₀).1 e p = t₀ p) ↔ NoStranger items t₀ := by
  constructor
  · rintro h x hx ⟨hsome, hnone⟩
    obtain ⟨i, hi, hp, ha, hr⟩ := mem_renamePairs.mp hx
    have hmoved := (handle_pure (t := (applyAll items t₀).1) hb he hx).1
    rw [h x.1 (mem_named.mpr ⟨i, hi, mem_paths.mpr (.inl ha)⟩)] at hmoved
    -- the rename cannot have happened: its source was gone
    rcases applyAll_rename (t := t₀) hb.apart hi hp ha hr (hb.rename i hi hp _ _ ha hr) with hs | hm
    · have hcond : ((applyAll items t₀).1 x.1).isSome ∧ ((applyAll items t₀).1 x.2).isNone := by
        rw [hs.1, hs.2]
        exact ⟨hsome, hnone⟩
      rw [(moveBack_moved hcond).1] at hmoved
      rw [hmoved] at hsome
      cases hsome
    · rw [hm.1] at hsome
      cases hsome
  · intro hno p hp
    obtain ⟨i, hi, hpi⟩ := mem_named.mp hp
    cases hpure : i.pureRename with
    | false => exact handle_plain hb he hi hpure hpi
    | true =>
      obtain ⟨a, r, ha, hr⟩ := i.pure_paths hpure
      have hx : (a, r) ∈ renamePairs items := mem_renamePairs.mpr ⟨i, hi, hpure, ha, hr⟩
      have hback := handle_pure (t := (applyAll items t₀).1) hb he hx
      have hboth : moveBack (applyAll items t₀).1 (a, r) a = t₀ a ∧
          moveBack (applyAll items t₀).1 (a, r) r = t₀ r := by
        rcases applyAll_rename (t := t₀) hb.apart hi hpure ha hr (hb.rename i hi hpure _ _ ha hr)
          with hs | hm
        · have hstill : ¬ (((applyAll items t₀).1 a).isSome ∧ ((applyAll items t₀).1 r).isNone) := by
            rw [hs.1, hs.2]
            exact hno (a, r) hx
          rw [moveBack_still (x := (a, r)) hstill]
          exact hs
        · have hcond : ((applyAll items t₀).1 a).isSome ∧ ((applyAll items t₀).1 r).isNone := by
            rw [hm.2.2.1, hm.2.2.2]
            exact ⟨hm.2.1, rfl⟩
          have hmv := moveBack_moved (x := (a, r)) hcond
          exact ⟨hmv.1.trans hm.1.symm, hmv.2.trans hm.2.2.1⟩
      rcases mem_paths.mp hpi with h | h
      · obtain rfl : p = a := Option.some.inj (h.symm.trans ha)
        exact hback.1.trans hboth.1
      · obtain rfl : p = r := Option.some.inj (h.symm.trans hr)
        exact hback.2.trans hboth.2

end

/-! ## all or nothing -/

section
variable {D G : Type} {env : Porcelain G} {items : List StagedChange} {message : String}
  {writeRows : D → D × Option Exc} {flush : D → Option Exc} {s : Store D G} {e : Exc}

/-- The exception comes from the rows, or from reading the bytes of a snapshot. -/
def BeforeTree (env : Porcelain G) (items : List StagedChange) (writeRows : D → D × Option Exc)
    (flush : D → Option Exc) (s : Store D G) : Prop :=
  (writeRows s.rows).2 ≠ none ∨ flush (writeRows s.rows).1 ≠ none ∨
    (items.filter fun i => !i.pureRename).findSome? (readFailure env s.tree) ≠ none

theorem stagedWorkspaceChange_raised {t₀ : Files} {g : G}
    (hread : (items.filter fun i => !i.pureRename).findSome? (readFailure env t₀) = none)
    (h : (stagedWorkspaceChange env items message t₀ g).2 = some e) :
    (stagedWorkspaceChange env items message t₀ g).1.1 = handle items t₀ (applyAll items t₀).1 e := by
  unfold stagedWorkspaceChange at h ⊢
  rw [hread] at h ⊢
  dsimp only at h ⊢
  split
  · rename_i t e' he
    rw [he] at h
    rw [he, ← Option.some.inj h]
  · rename_i t he
    rw [he] at h
    rw [he]
    dsimp only at h ⊢
    split
    · rename_i g' e' hc
      rw [hc] at h
      rw [← Option.some.inj h]
    · rename_i g' hc
      rw [hc] at h
      cases h

theorem stagedWorkspaceChange_read {t₀ : Files} {g : G}
    (hread : (items.filter fun i => !i.pureRename).findSome? (readFailure env t₀) ≠ none) :
    (stagedWorkspaceChange env items message t₀ g).1.1 = t₀ := by
  obtain ⟨e', he⟩ := Option.ne_none_iff_exists'.mp hread
  rw [stagedWorkspaceChange, he]

/-- Where a failed write leaves the store. -/
theorem commitRowsThenTree_raised (h : (commitRowsThenTree env items message writeRows flush s).2 = some e) :
    (commitRowsThenTree env items message writeRows flush s).1.rows = s.rows ∧
    (BeforeTree env items writeRows flush s →
      (commitRowsThenTree env items message writeRows flush s).1.tree = s.tree) ∧
    (¬ BeforeTree env items writeRows flush s →
      (commitRowsThenTree env items message writeRows flush s).1.tree =
        handle items s.tree (applyAll items s.tree).1 e) := by
  unfold commitRowsThenTree commitRowsThen at h ⊢
  split at h
  · rename_i d e' hw
    exact ⟨rfl, fun _ => rfl, fun hn => absurd (.inl (by rw [hw]; simp)) hn⟩
  · rename_i d hw
    split at h
    · rename_i e' hf
      exact ⟨rfl, fun _ => rfl, fun hn => absurd (.inr (.inl (by rw [hw, hf]; simp))) hn⟩
    · rename_i hf
      split at h
      · rename_i t g e' hc
        cases h
        have ht : (stagedWorkspaceChange env items message s.tree s.git).1.1 = t := by rw [hc]
        have he : (stagedWorkspaceChange env items message s.tree s.git).2 = some e := by rw [hc]
        refine ⟨rfl, fun hb => ?_, fun hn => ?_⟩
        · rcases hb with hb | hb | hb
          · rw [hw] at hb
            exact absurd rfl hb
          · rw [hw] at hb
            exact absurd hf hb
          · exact ht.symm.trans (stagedWorkspaceChange_read hb)
        · have hread := not_not.mp fun hr => hn (.inr (.inr hr))
          exact ht.symm.trans (stagedWorkspaceChange_raised hread he)
      · cases h

end

/-! ### an encoding error in the middle of a rename -/

def oldMd : RelPath := ⟨"old.md", by decide⟩
def newMd : RelPath := ⟨"new.md", by decide⟩
def tmpMd : RelPath := ⟨".kajet-rename-0", by decide⟩

/-- The rename leg of an update: the old file goes to a temporary name, then writing the new one
raises. -/
def renameItem (e : Exc) : StagedChange where
  add := some newMd
  remove := some oldMd
  apply t := (Function.update (Function.update t tmpMd (t oldMd)) oldMd none, some e)
  knownBytes := none
  pureRename := false
  pure_paths h := by cases h
  pure_bytes h := by cases h

/-- A porcelain in which nothing raises. -/
def calmPorcelain : Porcelain Unit where
  openRepo _ := none
  lock _ := none
  rm _ _ g := (g, none)
  add _ _ g := (g, none)
  commit _ _ g := (g, none)
  read _ _ := none
  unlink _ _ := none

def oneNote : Store Nat Unit := ⟨1, fun p => if p = oldMd then some [104, 105] else none, ()⟩

theorem renameItem_batch (e : Exc) : Batch [renameItem e] oneNote.tree where
  known i hi p b _ hk := by rw [List.mem_singleton.mp hi] at hk; cases hk
  apart := List.pairwise_singleton _ _
  rename i hi hp := by rw [List.mem_singleton.mp hi] at hp; cases hp

end Kajet.Write
