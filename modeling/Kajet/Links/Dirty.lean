import Kajet.Queue.Job
import Mathlib.Data.List.Dedup
import Mathlib.Data.List.Sort
import Mathlib.Data.String.Basic

/-!
# The dirty markers of the link repair

`link_reconcile_dirty` holds one row per source note whose links must be rebuilt; every mark of a
source increments its generation.

* `markAndEnqueue`   raises the markers and enqueues the workspace's job in one transaction;
* `markKeys`          the keys it marks;
* `listDirty`, `acknowledge`   a handler's snapshot, and the deletion of the markers whose
                      generation is still the snapshot's;
* `gen`              the generation of a key, with one lemma per operation (`gen_markAll`,
                      `gen_acknowledge`).
-/

namespace Kajet.Links
open Table Queue

/-- The primary key of `link_reconcile_dirty`. -/
structure MarkerKey where
  ownerId : String
  workspace : String
  sourceNoteId : String
deriving DecidableEq

structure Marker extends MarkerKey where
  generation : Nat
deriving DecidableEq

def Marker.key (m : Marker) : MarkerKey := m.toMarkerKey

/-- The two tables that `mark_and_enqueue` writes. -/
structure DirtyDb where
  dirty : List Marker
  jobs : List Job
deriving DecidableEq

def bump (m : Marker) : Marker := { m with generation := m.generation + 1 }

@[simp] theorem bump_key (m : Marker) : (bump m).key = m.key := rfl

/-- `INSERT … generation = 1 ON CONFLICT DO UPDATE SET generation = generation + 1`. -/
def mark (dirty : List Marker) (k : MarkerKey) : List Marker :=
  if dirty.any (fun m => m.key = k) then
    updateWhere (fun m => m.key = k) bump dirty
  else dirty ++ [{ k with generation := 1 }]

def markAll (dirty : List Marker) (keys : List MarkerKey) : List Marker := keys.foldl mark dirty

/-- `sorted(source_note_ids - {""})` -/
def sortedSources (sourceNoteIds : List String) : List String :=
  (sourceNoteIds.dedup.filter (· ≠ "")).insertionSort (· ≤ ·)

def reconcileJob (ownerId workspace : String) : JobEntry where
  payload := [("user_id", ownerId), ("workspace", workspace), ("mode", "targeted")]
  dedupKey := some ("reconcile:" ++ ownerId ++ ":" ++ workspace)
  userId := some ownerId

/-- The defaults of `enqueue_in_session` at a clock value. -/
def reconcileArgs (now : ℚ) : EnqueueArgs := ⟨5, 0, priorityDefault, now⟩

def markAndEnqueue (db : DirtyDb) (ownerId workspace : String) (sourceNoteIds : List String)
    (jobId : String) (now : ℚ) : Except DbError (DirtyDb × Option String) :=
  match sortedSources sourceNoteIds with
  | [] => .ok (db, none)
  | sources => do
    let dirty := markAll db.dirty (sources.map fun s => ⟨ownerId, workspace, s⟩)
    let (jobs, id) ← enqueueInSession db.jobs jobId "reconcile_links"
      (reconcileJob ownerId workspace) (reconcileArgs now)
    return (⟨dirty, jobs⟩, some id)

/-- The keys that `mark_and_enqueue` marks. -/
def markKeys (ownerId workspace : String) (sources : List String) : List MarkerKey :=
  (sortedSources sources).map fun s => ⟨ownerId, workspace, s⟩

def listDirty (dirty : List Marker) (ownerId workspace : String) : List (String × Nat) :=
  (dirty.filter fun m => m.ownerId = ownerId ∧ m.workspace = workspace).map
    fun m => (m.sourceNoteId, m.generation)

instance lawfulBEqKey : LawfulBEq (String × Nat) := inferInstance

/-- The marker is one of the acknowledged ones, at the acknowledged generation. -/
def matchesAck (ownerId workspace : String) (items : List (String × Nat)) (m : Marker) : Bool :=
  m.ownerId = ownerId ∧ m.workspace = workspace ∧ (m.sourceNoteId, m.generation) ∈ items

/-- One statement per 400 markers. -/
def acknowledge (dirty : List Marker) (ownerId workspace : String)
    (generations : List (String × Nat)) : List Marker :=
  (batched 400 [] generations).foldl
    (fun dirty items => deleteWhere (matchesAck ownerId workspace items) dirty) dirty

/-! ## the generation of a key -/

def gen (dirty : List Marker) (k : MarkerKey) : Option Nat :=
  (row Marker.key dirty k).map (·.generation)

section
variable {dirty : List Marker} {k : MarkerKey}

theorem gen_eq_some (h : Keyed Marker.key dirty) {g : Nat} :
    gen dirty k = some g ↔ ∃ m ∈ dirty, m.key = k ∧ m.generation = g := by
  rw [gen, Option.map_eq_some_iff]
  constructor
  · rintro ⟨m, hm, rfl⟩
    exact ⟨m, (row_some hm).1, (row_some hm).2, rfl⟩
  · rintro ⟨m, hm, hk, rfl⟩
    exact ⟨m, h.row_eq.mpr ⟨hm, hk⟩, rfl⟩

theorem gen_isSome : (gen dirty k).isSome ↔ ∃ m ∈ dirty, m.key = k := by
  rw [gen, Option.isSome_map]
  constructor
  · intro h
    obtain ⟨m, hm⟩ := Option.isSome_iff_exists.mp h
    exact ⟨m, row_some hm⟩
  · rintro ⟨m, hm, hk⟩
    by_contra h
    rw [Bool.not_eq_true, Option.isSome_eq_false_iff, Option.isNone_iff_eq_none] at h
    exact row_eq_none.mp h m hm hk

theorem mark_keyed (h : Keyed Marker.key dirty) : Keyed Marker.key (mark dirty k) := by
  unfold mark
  split
  · exact h.updateWhere bump_key
  · rename_i hno
    refine h.append fun m hm e => hno (List.any_eq_true.mpr ⟨m, hm, ?_⟩)
    exact decide_eq_true e

/-- A mark counts up the generation of its key, from nothing to one. -/
theorem gen_mark (k' : MarkerKey) :
    gen (mark dirty k) k' = if k' = k then some ((gen dirty k).elim 1 (· + 1)) else gen dirty k' := by
  unfold mark
  split
  · rename_i hany
    have hrow : (row Marker.key dirty k).isSome := by
      obtain ⟨m, hm, hk⟩ := List.any_eq_true.mp hany
      have hsome := gen_isSome.mpr ⟨m, hm, of_decide_eq_true hk⟩
      rwa [gen, Option.isSome_map] at hsome
    rw [gen, row_updateWhere bump_key, Option.map_map]
    by_cases hk : k' = k
    · subst hk
      obtain ⟨m, hm⟩ := Option.isSome_iff_exists.mp hrow
      simp [gen, hm, (row_some hm).2, bump]
    · rw [if_neg hk, gen]
      cases hm : row Marker.key dirty k' with
      | none => rfl
      | some m => simp [(row_some hm).2, hk]
  · rename_i hno
    have hnone : row Marker.key dirty k = none := row_eq_none.mpr fun m hm e =>
      hno (List.any_eq_true.mpr ⟨m, hm, decide_eq_true e⟩)
    rw [gen, row_append]
    by_cases hk : k' = k
    · subst hk
      simp [gen, hnone, Marker.key]
    · have hk' : ¬ k = k' := fun e => hk e.symm
      simp [gen, hk, hk', Marker.key]

theorem markAll_keyed (keys : List MarkerKey) (h : Keyed Marker.key dirty) :
    Keyed Marker.key (markAll dirty keys) := by
  induction keys generalizing dirty with
  | nil => exact h
  | cons k keys ih => exact ih (mark_keyed h)

/-- The keys are marked once each. -/
theorem gen_markAll (keys : List MarkerKey) (hnd : keys.Nodup) (k' : MarkerKey) :
    gen (markAll dirty keys) k' =
      if k' ∈ keys then some ((gen dirty k').elim 1 (· + 1)) else gen dirty k' := by
  induction keys generalizing dirty with
  | nil => rfl
  | cons k keys ih =>
    obtain ⟨hk, hnd⟩ := List.nodup_cons.mp hnd
    show gen (markAll (mark dirty k) keys) k' = _
    rw [ih hnd, gen_mark]
    by_cases e : k' = k
    · subst e
      simp [hk]
    · simp [e]

theorem acknowledge_eq (ownerId workspace : String) (items : List (String × Nat)) :
    acknowledge dirty ownerId workspace items = deleteWhere (matchesAck ownerId workspace items) dirty := by
  rw [acknowledge, foldl_deleteWhere]
  congr 1
  funext m
  rw [Bool.eq_iff_iff, List.any_eq_true]
  have hmem := batched_mem 400 items [] (m.sourceNoteId, m.generation)
  simp only [List.not_mem_nil, false_or] at hmem
  simp only [matchesAck, decide_eq_true_eq, ← hmem]
  tauto

theorem gen_acknowledge (hk : Keyed Marker.key dirty) (ownerId workspace : String)
    (items : List (String × Nat)) (k : MarkerKey) : gen (acknowledge dirty ownerId workspace items) k =
      (gen dirty k).filter fun g => ¬ ∃ x ∈ items, ⟨ownerId, workspace, x.1⟩ = k ∧ x.2 = g := by
  rw [acknowledge_eq, gen, hk.row_deleteWhere, gen]
  cases hrow : row Marker.key dirty k with
  | none => rfl
  | some m =>
    have hm : m.key = k := (row_some hrow).2
    have hiff : matchesAck ownerId workspace items m = true ↔
        ∃ x ∈ items, ⟨ownerId, workspace, x.1⟩ = k ∧ x.2 = m.generation := by
      simp only [matchesAck, decide_eq_true_eq, ← hm, Marker.key]
      constructor
      · rintro ⟨ho, hw, hmem⟩
        exact ⟨_, hmem, by rw [← ho, ← hw], rfl⟩
      · rintro ⟨⟨s, g⟩, hmem, hkey, hg⟩
        obtain rfl : g = m.generation := hg
        obtain rfl : s = m.sourceNoteId := congrArg MarkerKey.sourceNoteId hkey
        exact ⟨(congrArg MarkerKey.ownerId hkey).symm, (congrArg MarkerKey.workspace hkey).symm, hmem⟩
    by_cases hma : matchesAck ownerId workspace items m = true
    · simp only [Option.filter_some, hma, Bool.not_true, Option.map_some, hiff.mp hma, not_true,
        decide_false, Bool.false_eq_true, if_false, Option.map_none]
    · have hno : ¬ ∃ x ∈ items, ⟨ownerId, workspace, x.1⟩ = k ∧ x.2 = m.generation := fun e => hma (hiff.mpr e)
      rw [Bool.not_eq_true] at hma
      simp only [Option.filter_some, hma, Bool.not_false, Option.map_some, if_true, hno, not_false_eq_true,
        decide_true]

theorem acknowledge_keyed (ownerId workspace : String) (items : List (String × Nat))
    (h : Keyed Marker.key dirty) : Keyed Marker.key (acknowledge dirty ownerId workspace items) := by
  rw [acknowledge_eq]
  exact UniqueOn.deleteWhere h

theorem mem_listDirty {ownerId workspace s : String} {g : Nat} :
    (s, g) ∈ listDirty dirty ownerId workspace ↔
      ∃ m ∈ dirty, m.key = ⟨ownerId, workspace, s⟩ ∧ m.generation = g := by
  simp only [listDirty, List.mem_map, List.mem_filter, decide_eq_true_eq, Prod.mk.injEq]
  constructor
  · rintro ⟨m, ⟨hm, rfl, rfl⟩, rfl, rfl⟩
    exact ⟨m, hm, rfl, rfl⟩
  · rintro ⟨m, hm, hk, rfl⟩
    exact ⟨m, ⟨hm, congrArg MarkerKey.ownerId hk, congrArg MarkerKey.workspace hk⟩,
      congrArg MarkerKey.sourceNoteId hk, rfl⟩

/-- The keys of one transaction are different. -/
theorem sortedSources_nodup (sources : List String) : (sortedSources sources).Nodup :=
  ((List.perm_insertionSort _ _).nodup_iff).mpr (sources.nodup_dedup.filter _)

theorem mem_sortedSources {sources : List String} {s : String} :
    s ∈ sortedSources sources ↔ s ∈ sources ∧ s ≠ "" := by
  rw [sortedSources, List.mem_insertionSort, List.mem_filter, List.mem_dedup, decide_eq_true_eq]

theorem markKeys_nodup (ownerId workspace : String) (sources : List String) :
    (markKeys ownerId workspace sources).Nodup :=
  (sortedSources_nodup sources).map fun _ _ h => congrArg MarkerKey.sourceNoteId h

end

/-- A committed `mark_and_enqueue` has marked every source once. -/
theorem markAndEnqueue_dirty {db db' : DirtyDb} {ownerId workspace : String} {sources : List String}
    {jobId : String} {now : ℚ} {id : Option String}
    (h : markAndEnqueue db ownerId workspace sources jobId now = .ok (db', id)) :
    db'.dirty = markAll db.dirty ((sortedSources sources).map fun s => ⟨ownerId, workspace, s⟩) := by
  unfold markAndEnqueue at h
  split at h
  · rename_i hnil
    rw [hnil]
    cases h
    rfl
  · obtain ⟨⟨jobs, id⟩, _, h2⟩ := bind_ok h
    cases h2
    rfl

end Kajet.Links
