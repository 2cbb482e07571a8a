import Kajet.Lib.Machine
import Kajet.Chunks.Store
import Mathlib.Data.List.Perm.Basic
import Mathlib.Data.List.Dedup

/-!
# Replacements, embed workers and deletions

`attach_vectors` reads the chunk rows and the dimensions before its first write, and so does a
replacement that expects no generation; other transactions may commit between these reads and the
writes.

* `Call`, `Op`, `store`    the machine;
* `Consistent`             one vector for each chunk, under its id and integer key, in one dimension;
* `Current`                what a transaction has read is still so when it writes;
* `Good`                   the invariant (`replaceWith_good`, `attachWith_good`);
* `vectors_consistent`     the runs whose transactions write on what they have read;
* `attach_outdated`        the run in which an embed worker writes after a replacement.
-/

namespace Kajet.Chunks
open Table Machine Db

/-! ## the machine -/

/-- A call between its reads and its writes. -/
inductive Call (ν : Type) where
  | attachDims (a : Attach ν) (rows : List (String × ℕ))
  | attachWrite (a : Attach ν) (rows : List (String × ℕ)) (dims : List ℕ)
  | replaceWrite (a : Replace ν) (dims : List ℕ)
deriving DecidableEq

structure State (ν : Type) where
  db : Db ν
  calls : List (Call ν)
  usedIds : List String
deriving DecidableEq

inductive Op (ν : Type) where
  | insertNote (noteId : String)
  /-- `bump_index_generation` of a note update -/
  | bumpGeneration (noteId : String)
  | deleteNote (noteId : String)
  /-- `replace_chunks` with and without `expected_generation` -/
  | replaceChecked (a : Replace ν) (ids : List String) (expectedGeneration : ℕ)
  | replaceChunks (a : Replace ν)
  | attachVectors (a : Attach ν)
  /-- the next part of the `k`-th call -/
  | run (k : ℕ) (ids : List String)
  | abandon (k : ℕ)

section
variable {ν : Type}

def State.empty : State ν := ⟨⟨[], [], [], []⟩, [], []⟩

namespace State

def drop (s : State ν) (k : ℕ) : State ν := { s with calls := s.calls.eraseIdx k }

def push (s : State ν) (call : Call ν) : State ν := { s with calls := call :: s.calls }

/-- A transaction that raises is rolled back. -/
def commit (s : State ν) : Except Raised (Db ν) → State ν
  | .ok db => { s with db := db }
  | .error _ => s

/-- The ids are random. -/
def fresh (s : State ν) (a : Replace ν) (ids : List String) : Prop :=
  ids.length = a.chunks.length ∧ (ids ++ s.usedIds).Nodup

instance (s : State ν) (a : Replace ν) (ids : List String) : Decidable (s.fresh a ids) :=
  inferInstanceAs (Decidable (_ ∧ _))

def use (s : State ν) (ids : List String) : State ν := { s with usedIds := ids ++ s.usedIds }

end State

def step (s : State ν) : Op ν → Option (State ν)
  | .insertNote noteId =>
    if s.db.notes.any (·.id = noteId) then none
    else some { s with db := { s.db with notes := ⟨noteId, 1, .stale⟩ :: s.db.notes } }
  | .bumpGeneration noteId => some { s with db := { s.db with
      notes := updateWhere (fun n => n.id = noteId)
        (fun n => { n with indexGeneration := n.indexGeneration + 1 }) s.db.notes } }
  | .deleteNote noteId => some { s with db := s.db.deleteNote noteId }
  | .replaceChecked a ids expectedGeneration =>
    if s.fresh a ids then
      some ((s.use ids).commit ((s.db.replaceChecked a ids expectedGeneration).map Prod.snd))
    else none
  | .replaceChunks a =>
    match a.check with
    | .error _ => some s
    | .ok _ => some (s.push (.replaceWrite a (s.db.chunkDims a.noteId)))
  | .attachVectors a =>
    if a.identity.dim = 0 then some s
    else if a.covers (s.db.chunkRows a.noteId) then
      some (s.push (.attachDims a (s.db.chunkRows a.noteId)))
    else some s
  | .run k ids =>
    match s.calls[k]? with
    | none => none
    | some (.attachDims a rows) =>
      some ((s.drop k).push (.attachWrite a rows (s.db.chunkDims a.noteId)))
    | some (.attachWrite a rows dims) => some ((s.drop k).commit (s.db.attachWith a rows dims))
    | some (.replaceWrite a dims) =>
      if s.fresh a ids then some (((s.drop k).use ids).commit (s.db.replaceWith a ids dims)) else none
  | .abandon k => some (s.drop k)

def store (ν : Type) : Machine (State ν) (Op ν) where
  start s := s = State.empty
  next := step

end

/-! ## the statement -/

section
variable {ν : Type}

/-- Table, integer key and chunk id of a vector. -/
def VecRow.key (v : VecRow ν) : ℕ × ℕ × String := (v.dim, v.chunkRowid, v.chunkId)

/-- The key that the vector of the chunk should have, when it has one. -/
def NoteChunk.key (c : NoteChunk) : Option (ℕ × ℕ × String) := c.dim.map fun d => (d, c.chunkRowid, c.id)

def Consistent (db : Db ν) (noteId : String) : Prop :=
  ∃ d, (∀ c ∈ db.chunksOf noteId, c.dim = some d) ∧
    ((db.vectorsOf noteId).map VecRow.key).Perm
      ((db.chunksOf noteId).map fun c => (d, c.chunkRowid, c.id))

/-- A replacement that expects an older generation of the note changes nothing. -/
def Superseded (s : State ν) : Prop :=
  ∀ n ∈ s.db.notes, ∀ a ids g t, a.noteId = n.id → g < n.indexGeneration →
    step s (.replaceChecked a ids g) = some t → t.db = s.db ∧ t.calls = s.calls

/-- The transaction writes on what it has read. -/
def Current (s : State ν) : Op ν → Prop
  | .run k _ =>
    match s.calls[k]? with
    | some (.attachWrite a rows dims) =>
      rows.Perm (s.db.chunkRows a.noteId) ∧ s.db.chunkDims a.noteId ⊆ dims
    | some (.replaceWrite a dims) => s.db.chunkDims a.noteId ⊆ dims
    | _ => True
  | _ => True

instance (s : State ν) : (op : Op ν) → Decidable (Current s op)
  | .run k _ => by
    unfold Current
    dsimp only
    split <;> infer_instance
  | .insertNote _ | .bumpGeneration _ | .deleteNote _ | .replaceChecked .. => isTrue trivial
  | .replaceChunks _ | .attachVectors _ | .abandon _ => isTrue trivial

/-! ## the invariant -/

/-- Every vector belongs to a chunk that records its table, and the other way around. -/
def Agree (db : Db ν) (noteId : String) : Prop :=
  ((db.vectorsOf noteId).map VecRow.key).Perm ((db.chunksOf noteId).filterMap NoteChunk.key)

structure Good (db : Db ν) : Prop where
  notes : Keyed Note.id db.notes
  agree : ∀ m, Agree db m
  uniform : ∀ m, ∀ c ∈ db.chunksOf m, ∀ c' ∈ db.chunksOf m, c.dim = c'.dim
  indexed : ∀ n ∈ db.notes, n.indexState = .indexed → ∀ c ∈ db.chunksOf n.id, c.dim.isSome = true

variable {db db' : Db ν} {noteId m : String} {dims : List ℕ} {d : ℕ}

theorem mem_chunksOf {c : NoteChunk} : c ∈ db.chunksOf m ↔ c ∈ db.chunks ∧ c.noteId = m := by
  rw [chunksOf, List.mem_filter, decide_eq_true_eq]

theorem mem_vectorsOf {v : VecRow ν} : v ∈ db.vectorsOf m ↔ v ∈ db.vectors ∧ v.noteId = m := by
  rw [vectorsOf, List.mem_filter, decide_eq_true_eq]

theorem mem_chunkDims : d ∈ db.chunkDims m ↔ ∃ c ∈ db.chunksOf m, c.dim = some d := by
  rw [chunkDims, List.mem_dedup, List.mem_filterMap]

/-- In one dimension the keys are those of all chunks. -/
theorem filterMap_key {cs : List NoteChunk} (h : ∀ c ∈ cs, c.dim = some d) :
    cs.filterMap NoteChunk.key = cs.map fun c => (d, c.chunkRowid, c.id) := by
  rw [← List.filterMap_eq_map']
  exact List.filterMap_congr fun c hc => by rw [NoteChunk.key, h c hc, Option.map_some]

theorem Good.consistent (h : Good db) {n : Note} (hn : n ∈ db.notes) (hi : n.indexState = .indexed) :
    Consistent db n.id := by
  cases hcs : db.chunksOf n.id with
  | nil =>
    have hagree := h.agree n.id
    rw [Agree, hcs] at hagree
    exact ⟨0, by rw [hcs]; exact fun _ hc => (nomatch hc), by rw [hcs]; exact hagree⟩
  | cons c cs =>
    have hc : c ∈ db.chunksOf n.id := by
      rw [hcs]
      exact List.mem_cons_self
    obtain ⟨d, hd⟩ := Option.isSome_iff_exists.mp (h.indexed n hn hi c hc)
    have hall : ∀ x ∈ db.chunksOf n.id, x.dim = some d := fun x hx =>
      (h.uniform n.id x hx c hc).trans hd
    exact ⟨d, hall, filterMap_key hall ▸ h.agree n.id⟩

/-- The vectors of a note are in the tables that its chunks record. -/
theorem Agree.dim_mem (h : Agree db m) {v : VecRow ν} (hv : v ∈ db.vectorsOf m) : v.dim ∈ db.chunkDims m := by
  have hkey := h.mem_iff.mp (List.mem_map_of_mem hv)
  obtain ⟨c, hc, hck⟩ := List.mem_filterMap.mp hkey
  obtain ⟨d, hd, heq⟩ := Option.map_eq_some_iff.mp hck
  have hdim : d = v.dim := congrArg Prod.fst heq
  exact mem_chunkDims.mpr ⟨c, hc, hd.trans (congrArg some hdim)⟩

/-! ### deletes -/

theorem vectorsOf_deleteVectors_ne (hne : m ≠ noteId) :
    (db.deleteVectors noteId dims).vectorsOf m = db.vectorsOf m := by
  rw [vectorsOf, vectorsOf, deleteVectors, deleteWhere, List.filter_filter]
  refine List.filter_congr fun v _ => ?_
  by_cases hv : v.noteId = m
  · simp [hv, hne]
  · simp [hv]

/-- All vectors of the note go, when the dimensions that were read are still those of its chunks. -/
theorem vectorsOf_deleteVectors (h : Agree db noteId) (hdims : db.chunkDims noteId ⊆ dims) :
    (db.deleteVectors noteId dims).vectorsOf noteId = [] := by
  rw [List.eq_nil_iff_forall_not_mem]
  intro v hv
  obtain ⟨hv, hm⟩ := mem_vectorsOf.mp hv
  obtain ⟨hv, hkept⟩ := mem_deleteWhere.mp hv
  exact of_decide_eq_false hkept ⟨hdims (h.dim_mem (mem_vectorsOf.mpr ⟨hv, hm⟩)), hm⟩

theorem chunksOf_deleteChunks_ne (hne : m ≠ noteId) :
    (db.deleteChunks noteId dims).chunksOf m = db.chunksOf m := by
  rw [chunksOf, chunksOf, deleteChunks, deleteWhere, List.filter_filter]
  refine List.filter_congr fun c _ => ?_
  by_cases hc : c.noteId = m
  · simp [hc, hne]
  · simp [hc]

theorem chunksOf_deleteChunks : (db.deleteChunks noteId dims).chunksOf noteId = [] := by
  rw [List.eq_nil_iff_forall_not_mem]
  intro c hc
  obtain ⟨hc, hm⟩ := mem_chunksOf.mp hc
  exact of_decide_eq_false (mem_deleteWhere.mp hc).2 hm

/-! ### the replacement -/

/-- The state of the loop: the other notes are as they were, and the new chunks are alike. -/
structure Placing (db : Db ν) (noteId : String) (dim : Option ℕ) : Prop where
  notes : Keyed Note.id db.notes
  agree : ∀ m, Agree db m
  uniform : ∀ m, m ≠ noteId → ∀ c ∈ db.chunksOf m, ∀ c' ∈ db.chunksOf m, c.dim = c'.dim
  placed : ∀ c ∈ db.chunksOf noteId, c.dim = dim
  indexed : ∀ n ∈ db.notes, n.id ≠ noteId → n.indexState = .indexed →
    ∀ c ∈ db.chunksOf n.id, c.dim.isSome = true

theorem Good.deleteChunks (h : Good db) (hdims : db.chunkDims noteId ⊆ dims) (dim : Option ℕ) :
    Placing (db.deleteChunks noteId dims) noteId dim := by
  refine ⟨h.notes, fun m => ?_, fun m hm => ?_, ?_, fun n hn hne hi => ?_⟩
  · by_cases hm : m = noteId
    · subst hm
      have hvectors := vectorsOf_deleteVectors (h.agree m) hdims
      show (((db.deleteVectors m dims).vectorsOf m).map VecRow.key).Perm _
      rw [hvectors, chunksOf_deleteChunks]
      exact List.Perm.refl _
    · show (((db.deleteVectors noteId dims).vectorsOf m).map VecRow.key).Perm _
      rw [vectorsOf_deleteVectors_ne hm, chunksOf_deleteChunks_ne hm]
      exact h.agree m
  · rw [chunksOf_deleteChunks_ne hm]
    exact h.uniform m
  · rw [chunksOf_deleteChunks]
    exact fun _ hc => (nomatch hc)
  · rw [chunksOf_deleteChunks_ne hne]
    exact h.indexed n hn hi

theorem insertVector_ok {identity : IndexIdentity} {rowid : ℕ} {workspace ownerId chunkId : String}
    {vector : List ν} (h : db.insertVector identity rowid workspace ownerId noteId chunkId vector = .ok db') :
    db' = { db with vectors := ⟨identity.dim, rowid, vector, workspace, identity.key, ownerId, noteId,
      chunkId⟩ :: db.vectors } := by
  unfold insertVector at h
  repeat' split at h
  all_goals cases h
  rfl

/-- What a turn of the loop adds: a chunk row, and a vector under its key when the call vectorises. -/
theorem writeChunk_ok {a : Replace ν} {chunkId : String} {chunk : Chunk} {vector : Option (List ν)}
    (hvector : a.vectorised.isSome = true → vector.isSome = true)
    (h : db.writeChunk a chunkId chunk vector = .ok db') :
    db'.notes = db.notes ∧ db'.chunks = db.newChunk a chunkId chunk :: db.chunks ∧
      ∃ vs : List (VecRow ν), db'.vectors = vs ++ db.vectors ∧ (∀ v ∈ vs, v.noteId = a.noteId) ∧
        vs.map VecRow.key = (db.newChunk a chunkId chunk).key.toList := by
  unfold writeChunk at h
  dsimp only at h
  split at h
  · cases h
  obtain ⟨db1, hstored, hlast⟩ := bind_ok h
  cases hlast
  split at hstored
  · rename_i identity vector hidentity
    obtain rfl := insertVector_ok hstored
    refine ⟨rfl, rfl, [_], rfl, fun v hv => ?_, ?_⟩
    · rw [List.mem_singleton.mp hv]
    · rw [NoteChunk.key, newChunk, hidentity]
      rfl
  · rename_i hnone
    cases hstored
    refine ⟨rfl, rfl, [], rfl, fun _ hv => (nomatch hv), ?_⟩
    have hidentity : a.vectorised = none := by
      cases hi : a.vectorised with
      | none => rfl
      | some identity =>
        obtain ⟨v, hv⟩ := Option.isSome_iff_exists.mp (hvector (hi ▸ rfl))
        exact (hnone identity v hi hv).elim
    rw [NoteChunk.key, newChunk, hidentity]
    rfl

theorem Placing.writeChunk {a : Replace ν} {chunkId : String} {chunk : Chunk} {vector : Option (List ν)}
    (h : Placing db a.noteId (a.vectorised.map (·.dim)))
    (hvector : a.vectorised.isSome = true → vector.isSome = true)
    (hok : db.writeChunk a chunkId chunk vector = .ok db') :
    Placing db' a.noteId (a.vectorised.map (·.dim)) := by
  obtain ⟨hnotes, hchunks, vs, hvectors, hvs, hkeys⟩ := writeChunk_ok hvector hok
  have hother : ∀ m, m ≠ a.noteId → db'.chunksOf m = db.chunksOf m := by
    intro m hm
    rw [chunksOf, hchunks, List.filter_cons_of_neg fun hd => hm (of_decide_eq_true hd).symm]
    rfl
  have hself : db'.chunksOf a.noteId = db.newChunk a chunkId chunk :: db.chunksOf a.noteId := by
    rw [chunksOf, hchunks, List.filter_cons_of_pos (by simp [newChunk])]
    rfl
  refine ⟨hnotes ▸ h.notes, fun m => ?_, fun m hm => ?_, ?_, fun n hn hne hi => ?_⟩
  · rw [Agree, vectorsOf, hvectors, List.filter_append, List.map_append]
    by_cases hm : m = a.noteId
    · subst hm
      rw [hself, List.filter_eq_self.mpr fun v hv => decide_eq_true (hvs v hv), hkeys,
        List.filterMap_cons]
      cases (db.newChunk a chunkId chunk).key with
      | none => exact h.agree a.noteId
      | some k => exact (h.agree a.noteId).cons k
    · have hout : ∀ v ∈ vs, ¬ decide (v.noteId = m) = true := fun v hv hd =>
        hm ((of_decide_eq_true hd).symm.trans (hvs v hv))
      rw [hother m hm, List.filter_eq_nil_iff.mpr hout]
      exact h.agree m
  · rw [hother m hm]
    exact h.uniform m hm
  · intro c hc
    rcases List.mem_cons.mp (hself ▸ hc) with rfl | hc
    · rfl
    · exact h.placed c hc
  · rw [hother n.id hne]
    exact h.indexed n (hnotes ▸ hn) hne hi

theorem Placing.writeChunks {a : Replace ν} {items : List (String × Chunk × Option (List ν))}
    (h : Placing db a.noteId (a.vectorised.map (·.dim)))
    (hitems : ∀ x ∈ items, a.vectorised.isSome = true → x.2.2.isSome = true)
    (hok : Db.writeChunks a items db = .ok db') : Placing db' a.noteId (a.vectorised.map (·.dim)) := by
  induction items generalizing db with
  | nil =>
    cases hok
    exact h
  | cons x items ih =>
    obtain ⟨db1, hone, hrest⟩ := bind_ok hok
    exact ih (h.writeChunk (hitems x List.mem_cons_self) hone)
      (fun y hy => hitems y (List.mem_cons_of_mem x hy)) hrest

theorem mem_setState {state : IndexState} {n : Note} (hn : n ∈ (db.setState noteId state).notes) :
    ∃ x ∈ db.notes, x.id = n.id ∧ (n.id = noteId ∧ n.indexState = state ∨ n.id ≠ noteId ∧ n = x) := by
  rcases mem_updateWhere.mp hn with ⟨x, hx, hid, rfl⟩ | ⟨hn, hid⟩
  · exact ⟨x, hx, rfl, .inl ⟨of_decide_eq_true hid, rfl⟩⟩
  · exact ⟨n, hn, rfl, .inr ⟨of_decide_eq_false hid, rfl⟩⟩

/-- The note is marked: as indexed only when its chunks have got their vectors. -/
theorem Placing.setState {dim : Option ℕ} {state : IndexState} (h : Placing db noteId dim)
    (hstate : state = .indexed → dim.isSome = true) : Good (db.setState noteId state) := by
  refine ⟨h.notes.updateWhere fun _ => rfl, h.agree, fun m c hc c' hc' => ?_, fun n hn hi c hc => ?_⟩
  · by_cases hm : m = noteId
    · subst hm
      exact (h.placed c hc).trans (h.placed c' hc').symm
    · exact h.uniform m hm c hc c' hc'
  · obtain ⟨x, hx, hid, ⟨hm, hs⟩ | ⟨hne, rfl⟩⟩ := mem_setState hn
    · rw [h.placed c (hm ▸ hc)]
      exact hstate (hs.symm.trans hi)
    · exact h.indexed n hx hne hi c hc

/-- The vectors come with the chunks. -/
theorem Replace.items_vector {a : Replace ν} {ids : List String} :
    ∀ x ∈ a.items ids, a.vectorised.isSome = true → x.2.2.isSome = true := by
  intro x hx hv
  unfold Replace.items at hx
  split at hx
  · rename_i hnone
    rw [Replace.vectorised, hnone] at hv
    cases hv
  · obtain ⟨y, _, rfl⟩ := List.mem_map.mp hx
    rfl

theorem replaceWith_good {a : Replace ν} {ids : List String} (h : Good db) (hcheck : a.check = .ok ())
    (hdims : db.chunkDims a.noteId ⊆ dims) (hok : db.replaceWith a ids dims = .ok db') : Good db' := by
  obtain ⟨db1, hchunks, hlast⟩ := bind_ok hok
  cases hlast
  refine ((h.deleteChunks hdims _).writeChunks Replace.items_vector hchunks).setState fun hs => ?_
  unfold Replace.check at hcheck
  split at hcheck
  · rename_i hnone
    rw [hnone] at hs
    cases hs
  · cases hcheck
  · rename_i hvectors hidentity
    rw [Replace.vectorised, hvectors, hidentity]
    rfl

/-! ### the embed worker -/

/-- The vectors go in under the keys that were read; nothing else changes. -/
theorem insertVectors_ok {a : Attach ν} {rows : List (String × ℕ)}
    (h : insertVectors a rows db = .ok db') : db'.notes = db.notes ∧ db'.chunks = db.chunks ∧
      ∃ vs : List (VecRow ν), db'.vectors = vs ++ db.vectors ∧ (∀ v ∈ vs, v.noteId = a.noteId) ∧
        (vs.map VecRow.key).Perm (rows.map fun r => (a.identity.dim, r.2, r.1)) := by
  induction rows generalizing db with
  | nil =>
    cases h
    exact ⟨rfl, rfl, [], rfl, fun _ hv => (nomatch hv), List.Perm.refl _⟩
  | cons r rows ih =>
    unfold insertVectors at h
    split at h
    · cases h
    · obtain ⟨db1, hone, hrest⟩ := bind_ok h
      obtain rfl := insertVector_ok hone
      obtain ⟨hnotes, hchunks, vs, hvectors, hvs, hkeys⟩ := ih hrest
      refine ⟨hnotes, hchunks, vs ++ [_], hvectors.trans (List.append_cons vs _ _), fun v hv => ?_, ?_⟩
      · rcases List.mem_append.mp hv with hv | hv
        · exact hvs v hv
        · rw [List.mem_singleton.mp hv]
      · rw [List.map_append, List.map_cons]
        exact List.perm_append_comm.trans (hkeys.cons _)

theorem chunksOf_setDim : (db.setDim noteId d).chunksOf noteId =
    (db.chunksOf noteId).map fun c => { c with dim := some d } :=
  filter_updateWhere_self fun _ _ hc => hc

theorem chunksOf_setDim_ne (hne : m ≠ noteId) : (db.setDim noteId d).chunksOf m = db.chunksOf m := by
  refine filter_updateWhere fun c _ hc => ?_
  have hcm : c.noteId ≠ m := fun heq => hne (heq.symm.trans (of_decide_eq_true hc))
  exact ⟨decide_eq_false hcm, decide_eq_false hcm⟩

theorem attachWith_good {a : Attach ν} {rows : List (String × ℕ)} (h : Good db)
    (hrows : rows.Perm (db.chunkRows a.noteId)) (hdims : db.chunkDims a.noteId ⊆ dims)
    (hok : db.attachWith a rows dims = .ok db') : Good db' := by
  obtain ⟨db1, hinsert, hlast⟩ := bind_ok hok
  cases hlast
  obtain ⟨hnotes, hchunks, vs, hvectors, hvs, hkeys⟩ := insertVectors_ok hinsert
  have hchunksOf : ∀ m, db1.chunksOf m = db.chunksOf m := fun m => by
    rw [chunksOf, hchunks]
    rfl
  have hvectorsOf : ∀ m, db1.vectorsOf m = vs.filter (·.noteId = m) ++
      (db.deleteVectors a.noteId dims).vectorsOf m := fun m => by
    rw [vectorsOf, hvectors, List.filter_append]
    rfl
  -- every chunk of the note gets the dimension of the worker, and its vector under its key
  have hplaced : Placing (db1.setDim a.noteId a.identity.dim) a.noteId (some a.identity.dim) := by
    refine ⟨hnotes ▸ h.notes, fun m => ?_, fun m hm => ?_, fun c hc => ?_, fun n hn hne hi => ?_⟩
    · show ((db1.vectorsOf m).map VecRow.key).Perm _
      rw [hvectorsOf]
      by_cases hm : m = a.noteId
      · subst hm
        rw [vectorsOf_deleteVectors (h.agree _) hdims, List.append_nil,
          List.filter_eq_self.mpr fun v hv => decide_eq_true (hvs v hv), chunksOf_setDim,
          List.filterMap_map, hchunksOf]
        refine hkeys.trans ((hrows.map _).trans ?_)
        rw [chunkRows, List.map_map, ← List.filterMap_eq_map']
        exact List.Perm.refl _
      · have hout : ∀ v ∈ vs, ¬ decide (v.noteId = m) = true := fun v hv hd =>
          hm ((of_decide_eq_true hd).symm.trans (hvs v hv))
        rw [List.filter_eq_nil_iff.mpr hout, vectorsOf_deleteVectors_ne hm, chunksOf_setDim_ne hm,
          hchunksOf]
        exact h.agree m
    · rw [chunksOf_setDim_ne hm, hchunksOf]
      exact h.uniform m
    · rw [chunksOf_setDim] at hc
      obtain ⟨x, _, rfl⟩ := List.mem_map.mp hc
      rfl
    · rw [chunksOf_setDim_ne hne, hchunksOf]
      exact h.indexed n (hnotes ▸ hn) hi
  exact hplaced.setState fun _ => rfl

/-! ### the other statements -/

/-- The rows of the notes change, but no note becomes indexed. -/
theorem Good.notes_of (h : Good db) {notes : List Note} (hkeyed : Keyed Note.id notes)
    (hindexed : ∀ n ∈ notes, n.indexState = .indexed → ∃ x ∈ db.notes, x.id = n.id ∧
      x.indexState = .indexed) : Good { db with notes := notes } := by
  refine ⟨hkeyed, h.agree, h.uniform, fun n hn hi => ?_⟩
  obtain ⟨x, hx, hid, hxi⟩ := hindexed n hn hi
  exact hid ▸ h.indexed x hx hxi

theorem deleteNote_good (h : Good db) : Good (db.deleteNote noteId) := by
  have hplacing : Placing (db.deleteChunks noteId (db.chunkDims noteId)) noteId none :=
    h.deleteChunks (fun _ hd => hd) none
  refine ⟨hplacing.notes.deleteWhere, hplacing.agree, fun m c hc c' hc' => ?_, fun n hn hi => ?_⟩
  · by_cases hm : m = noteId
    · subst hm
      exact (hplacing.placed c hc).trans (hplacing.placed c' hc').symm
    · exact hplacing.uniform m hm c hc c' hc'
  · obtain ⟨hn, hne⟩ := mem_deleteWhere.mp hn
    exact hplacing.indexed n hn (of_decide_eq_false hne) hi

theorem replaceChecked_good {a : Replace ν} {ids : List String} {g : ℕ} {applied : Bool} (h : Good db)
    (hok : db.replaceChecked a ids g = .ok (applied, db')) : Good db' := by
  obtain ⟨_, hcheck, hrest⟩ := bind_ok hok
  split at hrest
  · obtain ⟨db1, hreplace, hlast⟩ := bind_ok hrest
    cases hlast
    refine replaceWith_good ?_ hcheck (fun _ hd => hd) hreplace
    refine h.notes_of (h.notes.updateWhere fun _ => rfl) fun n hn hi => ?_
    rcases mem_updateWhere.mp hn with ⟨x, _, _, rfl⟩ | ⟨hn, _⟩
    · cases hi
    · exact ⟨n, hn, rfl, hi⟩
  · cases hrest
    exact h

/-! ## the runs -/

structure Inv (s : State ν) : Prop where
  good : Good s.db
  checked : ∀ a dims, .replaceWrite a dims ∈ s.calls → a.check = .ok ()

variable {s t : State ν} {op : Op ν}

theorem Inv.commit (h : Inv s) {r : Except Raised (Db ν)} (hr : ∀ db, r = .ok db → Good db) :
    Inv (s.commit r) := by
  cases r with
  | error e => exact h
  | ok db => exact ⟨hr db rfl, h.checked⟩

theorem Inv.drop (h : Inv s) (k : ℕ) : Inv (s.drop k) :=
  ⟨h.good, fun a dims hmem => h.checked a dims (List.mem_of_mem_eraseIdx hmem)⟩

theorem Inv.push (h : Inv s) {call : Call ν}
    (hcall : ∀ a dims, call = .replaceWrite a dims → a.check = .ok ()) : Inv (s.push call) := by
  refine ⟨h.good, fun a dims hmem => ?_⟩
  rcases List.mem_cons.mp hmem with heq | hmem
  · exact hcall a dims heq.symm
  · exact h.checked a dims hmem

theorem step_inv (h : Inv s) (hcurrent : Current s op) (hnext : step s op = some t) : Inv t := by
  cases op with
  | insertNote noteId =>
    simp only [step] at hnext
    split at hnext <;> cases hnext
    rename_i hnew
    refine ⟨h.good.notes_of ?_ fun n hn hi => ?_, h.checked⟩
    · refine uniqueOn_cons.mpr ⟨?_, h.good.notes⟩
      rintro k hk x hx hxk
      refine hnew (List.any_eq_true.mpr ⟨x, hx, decide_eq_true ?_⟩)
      exact (Option.some.inj hxk).trans (Option.some.inj hk).symm
    · rcases List.mem_cons.mp hn with rfl | hn
      · cases hi
      · exact ⟨n, hn, rfl, hi⟩
  | bumpGeneration noteId =>
    cases hnext
    refine ⟨h.good.notes_of (h.good.notes.updateWhere fun _ => rfl) fun n hn hi => ?_, h.checked⟩
    rcases mem_updateWhere.mp hn with ⟨x, hx, _, rfl⟩ | ⟨hn, _⟩
    · exact ⟨x, hx, rfl, hi⟩
    · exact ⟨n, hn, rfl, hi⟩
  | deleteNote noteId =>
    cases hnext
    exact ⟨deleteNote_good h.good, h.checked⟩
  | replaceChecked a ids g =>
    simp only [step] at hnext
    split at hnext <;> cases hnext
    have huse : Inv (s.use ids) := ⟨h.good, h.checked⟩
    refine huse.commit fun db hok => ?_
    cases hr : s.db.replaceChecked a ids g with
    | error e =>
      rw [hr] at hok
      cases hok
    | ok r =>
      rw [hr] at hok
      cases hok
      exact replaceChecked_good h.good hr
  | replaceChunks a =>
    simp only [step] at hnext
    split at hnext <;> cases hnext
    · exact h
    · rename_i hcheck
      refine h.push fun b dims hb => ?_
      cases hb
      exact hcheck
  | attachVectors a =>
    simp only [step] at hnext
    split at hnext
    · cases hnext
      exact h
    · split at hnext <;> cases hnext
      · exact h.push fun b dims hb => nomatch hb
      · exact h
  | run k ids =>
    simp only [step] at hnext
    simp only [Current] at hcurrent
    split at hnext
    · cases hnext
    · cases hnext
      exact (h.drop k).push fun b dims hb => nomatch hb
    · rename_i a rows dims hk
      cases hnext
      rw [hk] at hcurrent
      exact (h.drop k).commit fun db hok => attachWith_good h.good hcurrent.1 hcurrent.2 hok
    · rename_i a dims hk
      split at hnext <;> cases hnext
      rw [hk] at hcurrent
      have hcheck := h.checked a dims (List.mem_of_getElem? hk)
      have huse : Inv ((s.drop k).use ids) := ⟨h.good, (h.drop k).checked⟩
      exact huse.commit fun db hok => replaceWith_good h.good hcheck hcurrent hok
  | abandon k =>
    cases hnext
    exact h.drop k

theorem empty_inv : Inv (State.empty : State ν) := by
  refine ⟨⟨UniqueOn.nil, fun _ => List.Perm.refl _, ?_, ?_⟩, ?_⟩
  · exact fun _ _ hc => (nomatch hc)
  · exact fun _ hn => (nomatch hn)
  · exact fun _ _ hx => (nomatch hx)

/-- The conditional update finds no row under an older generation. -/
theorem Inv.superseded (h : Inv s) : Superseded s := by
  intro n hn a ids g t hid hg hnext
  simp only [step] at hnext
  split at hnext <;> cases hnext
  have hnone : s.db.notes.any (fun x => x.id = a.noteId ∧ x.indexGeneration = g) = false := by
    refine List.any_eq_false.mpr fun x hx hd => ?_
    obtain ⟨hxid, hxg⟩ := of_decide_eq_true hd
    rw [← h.good.notes.eq hn hx (hid.symm.trans hxid.symm)] at hxg
    omega
  unfold replaceChecked
  cases a.check with
  | error e => exact ⟨rfl, rfl⟩
  | ok _ =>
    simp only [hnone]
    exact ⟨rfl, rfl⟩

theorem vectors_consistent (h : (store ν).Reach Current s) :
    (∀ n ∈ s.db.notes, n.indexState = .indexed → Consistent s.db n.id) ∧ Superseded s := by
  have hinv : Inv s := h.inv (fun s (hs : s = State.empty) => hs ▸ empty_inv)
    fun _ _ _ _ hinv hcurrent hnext => step_inv hinv hcurrent hnext
  exact ⟨fun n hn hi => hinv.good.consistent hn hi, hinv.superseded⟩

end

/-! ## an embed worker and a replacement -/

def body : Chunk := ⟨0, [], "text", 0, 4⟩

/-- A note with the one chunk `a`, which a worker has read. -/
def reading : List (Op ℕ) :=
  [.insertNote "n",
    .replaceChecked ⟨"n", "ws", "u", "Title", [body], none, none⟩ ["a"] 1,
    .attachVectors ⟨"n", "ws", "u", ⟨"model", 2⟩, [("a", [0, 1])]⟩, .run 0 []]

theorem vectors_consistent_attached : ∃ s : State ℕ, (∃ n ∈ s.db.notes, n.indexState = .indexed ∧
    Consistent s.db n.id) ∧ Superseded s := by
  obtain ⟨s, hs, hnotes⟩ := Option.map_eq_some_iff.mp (show ((store ℕ).exec State.empty
    (reading ++ [.run 0 []])).map (fun s => s.db.notes) = some [⟨"n", 1, .indexed⟩] by decide +kernel)
  obtain ⟨hconsistent, hsuperseded⟩ := vectors_consistent (.of_guarded (.start rfl) (by decide +kernel) hs)
  have hn : (⟨"n", 1, .indexed⟩ : Note) ∈ s.db.notes := by
    rw [hnotes]
    exact List.mem_singleton_self _
  exact ⟨s, ⟨_, hn, rfl, hconsistent _ hn rfl⟩, hsuperseded⟩

/-- A replacement commits between the reads and the writes of the worker: the integer key is used again,
and the note is marked as indexed with the vector of the chunk that is gone. -/
theorem attach_outdated : ∃ s : State ℕ, (store ℕ).Reach free s ∧
    s.db.notes = [⟨"n", 1, .indexed⟩] ∧ ¬ Consistent s.db "n" := by
  obtain ⟨s, hs, hview⟩ := Option.map_eq_some_iff.mp (show ((store ℕ).exec State.empty
    (reading ++ [.replaceChecked ⟨"n", "ws", "u", "Title", [body], none, none⟩ ["b"] 1, .run 0 []])).map
      (fun s => decide (s.db.notes = [⟨"n", 1, .indexed⟩] ∧
        (s.db.vectorsOf "n").map VecRow.key = [(2, 1, "a")] ∧ s.db.chunkRows "n" = [("b", 1)])) =
          some true by decide +kernel)
  obtain ⟨hnotes, hvectors, hrows⟩ := of_decide_eq_true hview
  refine ⟨s, .of_exec (.start rfl) hs, hnotes, ?_⟩
  rintro ⟨d, _, hperm⟩
  rw [hvectors] at hperm
  -- the chunk id of the vector is not among those of the chunks
  obtain ⟨c, hc, heq⟩ := List.mem_map.mp (hperm.subset List.mem_cons_self)
  have hid : (c.id, c.chunkRowid) ∈ s.db.chunkRows "n" := List.mem_map_of_mem hc
  rw [hrows] at hid
  have ha : c.id = "a" := congrArg (fun x => x.2.2) heq
  have hb : c.id = "b" := congrArg Prod.fst (List.mem_singleton.mp hid)
  exact absurd (ha.symm.trans hb) (by decide)

end Kajet.Chunks
