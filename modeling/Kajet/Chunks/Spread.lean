import Kajet.Chunks.Store
import Kajet.Lib.Fallible
import Kajet.Lib.Rank
import Kajet.Lib.Round
import Kajet.Search.Related

/-!
# The chunks of a note that look for its neighbours

A note of many chunks sends only some of them to the search for related notes.  They are taken at the
multiples of a fractional step, rounded to positions of the list.

* `pickSpread`          the choice;
* `positions`           the positions it takes;
* `positions_pairwise`  they increase, since the step of a list longer than the cap is more than one;
* `head?_positions`, `getLast?_positions`   the ends;
* `exists_position`     a stretch of the list that is longer than the step by one has a position in it;
* `relatedChunks`       the choice at its caller, with the counts it returns.
-/

namespace Kajet.Spread
open Round Rank Chunks Related

inductive Raised where
  | indexError
  | keyError
  | valueError (message : String)
deriving DecidableEq

section
variable {α : Type}

/-- `rowids[k]`: a negative index counts from the end. -/
def item (rowids : List α) (k : ℤ) : Except Raised α :=
  let k := if k < 0 then k + rowids.length else k
  if k < 0 then .error .indexError
  else match rowids[k.toNat]? with
    | some rowid => .ok rowid
    | none => .error .indexError

def step (n cap : ℤ) : ℚ := (n - 1 : ℤ) / (max (cap - 1) 1 : ℤ)

/-- `_pick_spread` -/
def pickSpread (rowids : List α) (cap : ℤ) : Except Raised (List α) :=
  let n : ℤ := rowids.length
  if n ≤ cap then .ok rowids
  else (List.range cap.toNat).mapM fun i : ℕ => item rowids (roundHalfEven (i * step n cap))

theorem item_eq {rowids : List α} {k : ℤ} {rowid : α} (h0 : 0 ≤ k) (h : rowids[k.toNat]? = some rowid) :
    item rowids k = .ok rowid := by
  have hk : ¬ k < 0 := by omega
  simp only [item, if_neg hk, h]

end

/-! ## positions -/

/-- The positions that it takes of a list of `n`. -/
def positions (n : ℕ) (cap : ℤ) : List ℕ :=
  if n ≤ cap then List.range n
  else (List.range cap.toNat).map fun i : ℕ => (roundHalfEven (i * step n cap)).toNat

section
variable {n : ℕ} {cap : ℤ}

theorem positions_of_le (h : n ≤ cap) : positions n cap = List.range n := if_pos h

theorem positions_of_lt (h : cap < n) :
    positions n cap = (List.range cap.toNat).map fun i : ℕ => (roundHalfEven (i * step n cap)).toNat :=
  if_neg (not_le.mpr h)

theorem length_positions (hcap : 1 ≤ cap) : ((positions n cap).length : ℤ) = min (n : ℤ) cap := by
  rcases le_or_gt (n : ℤ) cap with h | h
  · rw [positions_of_le h, List.length_range]
    omega
  · rw [positions_of_lt h, List.length_map, List.length_range]
    omega

/-- The last multiple is the last index. -/
theorem last_mul_step (htwo : 2 ≤ cap) : ((cap - 1 : ℤ) : ℚ) * step n cap = ((n - 1 : ℤ) : ℚ) := by
  have hmax : max (cap - 1) 1 = cap - 1 := max_eq_left (by omega)
  have hne : ((cap - 1 : ℤ) : ℚ) ≠ 0 := by exact_mod_cast (by omega : cap - 1 ≠ 0)
  rw [step, hmax, mul_div_cancel₀ _ hne]

/-- Fewer elements are taken than there are, so that the step is more than one. -/
theorem one_lt_step (hlong : cap < n) (htwo : 2 ≤ cap) : 1 < step n cap := by
  have hmul := last_mul_step (n := n) htwo
  have hpos : (0 : ℚ) < ((cap - 1 : ℤ) : ℚ) := by exact_mod_cast (by omega : (0 : ℤ) < cap - 1)
  have hlt : ((cap - 1 : ℤ) : ℚ) * 1 < ((cap - 1 : ℤ) : ℚ) * step n cap := by
    rw [hmul, mul_one]
    exact_mod_cast (by omega : cap - 1 < (n : ℤ) - 1)
  exact lt_of_mul_lt_mul_left hlt hpos.le

theorem round_first : roundHalfEven (((0 : ℕ) : ℚ) * step n cap) = 0 := by
  rw [Nat.cast_zero, zero_mul]
  exact roundHalfEven_intCast 0

theorem round_last (htwo : 2 ≤ cap) : roundHalfEven (((cap.toNat - 1 : ℕ) : ℚ) * step n cap) = n - 1 := by
  have hcast : ((cap.toNat - 1 : ℕ) : ℚ) = ((cap - 1 : ℤ) : ℚ) := by
    exact_mod_cast (by omega : ((cap.toNat - 1 : ℕ) : ℤ) = cap - 1)
  rw [hcast, last_mul_step htwo, roundHalfEven_intCast]

section cut
variable (hcap : 1 ≤ cap) (hlong : cap < n)
include hcap hlong

theorem step_nonneg : 0 ≤ step n cap := by
  have hn : (0 : ℚ) ≤ ((n - 1 : ℤ) : ℚ) := by exact_mod_cast (by omega : (0 : ℤ) ≤ n - 1)
  have hmax : (0 : ℚ) ≤ ((max (cap - 1) 1 : ℤ) : ℚ) := by exact_mod_cast (by omega : (0 : ℤ) ≤ max (cap - 1) 1)
  exact div_nonneg hn hmax

theorem mul_step_le {i : ℕ} (hi : (i : ℤ) < cap) : (i : ℚ) * step n cap ≤ ((n - 1 : ℤ) : ℚ) := by
  rcases (by omega : cap = 1 ∨ 2 ≤ cap) with rfl | htwo
  · obtain rfl : i = 0 := by omega
    have hn : (0 : ℚ) ≤ ((n - 1 : ℤ) : ℚ) := by exact_mod_cast (by omega : (0 : ℤ) ≤ n - 1)
    simpa using hn
  · calc (i : ℚ) * step n cap
        ≤ ((cap - 1 : ℤ) : ℚ) * step n cap := by
          refine mul_le_mul_of_nonneg_right ?_ (step_nonneg hcap hlong)
          exact_mod_cast (by omega : (i : ℤ) ≤ cap - 1)
      _ = ((n - 1 : ℤ) : ℚ) := last_mul_step htwo

theorem round_nonneg (i : ℕ) : 0 ≤ roundHalfEven ((i : ℚ) * step n cap) := by
  apply le_roundHalfEven
  have hstep := step_nonneg hcap hlong
  have hmul : (0 : ℚ) ≤ (i : ℚ) * step n cap := by positivity
  simpa using hmul

theorem round_lt {i : ℕ} (hi : (i : ℤ) < cap) : roundHalfEven ((i : ℚ) * step n cap) < n := by
  have hle := roundHalfEven_le (mul_step_le hcap hlong hi)
  omega

/-- Two multiples are more than one apart, however their halves are rounded. -/
theorem round_strictMono {i j : ℕ} (hij : i < j) (hj : (j : ℤ) < cap) :
    roundHalfEven ((i : ℚ) * step n cap) < roundHalfEven ((j : ℚ) * step n cap) := by
  apply roundHalfEven_lt
  have hone := one_lt_step hlong (by omega)
  have hsucc : ((i + 1 : ℕ) : ℚ) ≤ (j : ℚ) := by exact_mod_cast hij
  calc (i : ℚ) * step n cap + 1
      < (i : ℚ) * step n cap + step n cap := by linarith
    _ = ((i + 1 : ℕ) : ℚ) * step n cap := by
      push_cast
      ring
    _ ≤ (j : ℚ) * step n cap := mul_le_mul_of_nonneg_right hsucc (by linarith)

end cut

theorem positions_pairwise (hcap : 1 ≤ cap) : (positions n cap).Pairwise (· < ·) := by
  rcases le_or_gt (n : ℤ) cap with h | h
  · rw [positions_of_le h]
    exact List.pairwise_lt_range
  · rw [positions_of_lt h, List.pairwise_map]
    refine List.pairwise_lt_range.imp_of_mem fun {i j} _ hj hij => ?_
    have hlt := round_strictMono hcap h hij (by have := List.mem_range.mp hj; omega : (j : ℤ) < cap)
    have hnonneg := round_nonneg hcap h i
    omega

theorem head?_positions (hcap : 1 ≤ cap) (hn : n ≠ 0) : (positions n cap).head? = some 0 := by
  rcases le_or_gt (n : ℤ) cap with h | h
  · rw [positions_of_le h, List.head?_range, if_neg hn]
  · have hne : cap.toNat ≠ 0 := by omega
    rw [positions_of_lt h, List.head?_map, List.head?_range, if_neg hne, Option.map_some, round_first]
    rfl

theorem getLast?_positions (hcap : 1 ≤ cap) (hn : n ≠ 0) (hends : 2 ≤ cap ∨ n ≤ cap) :
    (positions n cap).getLast? = some (n - 1) := by
  rcases le_or_gt (n : ℤ) cap with h | h
  · rw [positions_of_le h, List.getLast?_range, if_neg hn]
  · have hne : cap.toNat ≠ 0 := by omega
    rw [positions_of_lt h, List.getLast?_map, List.getLast?_range, if_neg hne, Option.map_some,
      round_last (by omega)]
    congr 1
    omega

/-- A stretch of the list that is longer than the step has a position in it. -/
theorem exists_position (hcap : 1 ≤ cap) {a b : ℕ} (hb : b ≤ n) (hab : a < b) (hstep : step n cap < b - a) :
    ∃ p ∈ positions n cap, a ≤ p ∧ p < b := by
  rcases le_or_gt (n : ℤ) cap with h | h
  · refine ⟨a, ?_, le_rfl, hab⟩
    rw [positions_of_le h]
    exact List.mem_range.mpr (by omega)
  · rcases Nat.eq_zero_or_pos a with rfl | ha
    · exact ⟨0, List.mem_of_mem_head? (head?_positions hcap (by omega)), le_rfl, hab⟩
    · have htwo : 2 ≤ cap := by
        by_contra hone
        obtain rfl : cap = 1 := by omega
        have hwhole : step n 1 = n - 1 := by simp [step]
        rw [hwhole] at hstep
        have hle : (b : ℚ) ≤ n := by exact_mod_cast hb
        have hone : (1 : ℚ) ≤ a := by exact_mod_cast ha
        linarith
      -- The first position that is not in front of the stretch.
      have hex : ∃ i : ℕ, (a : ℤ) ≤ roundHalfEven ((i : ℚ) * step n cap) := by
        refine ⟨cap.toNat - 1, ?_⟩
        rw [round_last htwo]
        omega
      have hmin : Nat.find hex ≤ cap.toNat - 1 := Nat.find_min' hex (by rw [round_last htwo]; omega)
      have hreached := Nat.find_spec hex
      have hbefore := fun j => Nat.find_min hex (m := j)
      generalize Nat.find hex = i at hmin hreached hbefore
      cases i with
      | zero =>
        rw [round_first] at hreached
        omega
      | succ j =>
        have hj : roundHalfEven ((j : ℚ) * step n cap) ≤ a - 1 := by
          have := hbefore j j.lt_succ_self
          omega
        have hlt := round_lt hcap h (by omega : ((j + 1 : ℕ) : ℤ) < cap)
        have hb' : roundHalfEven (((j + 1 : ℕ) : ℚ) * step n cap) < b := by
          have hup := le_roundHalfEven_add_half ((j : ℚ) * step n cap)
          have hlow := roundHalfEven_sub_half_le (((j + 1 : ℕ) : ℚ) * step n cap)
          have hjQ : (roundHalfEven ((j : ℚ) * step n cap) : ℚ) ≤ a - 1 := by exact_mod_cast hj
          have hlt : (roundHalfEven (((j + 1 : ℕ) : ℚ) * step n cap) : ℚ) < b := by
            push_cast at hlow ⊢
            linarith
          exact_mod_cast hlt
        refine ⟨(roundHalfEven (((j + 1 : ℕ) : ℚ) * step n cap)).toNat, ?_, by omega, by omega⟩
        rw [positions_of_lt h]
        exact List.mem_map_of_mem (List.mem_range.mpr (by omega))

end

/-! ## the choice -/

section
variable {α : Type} {rowids picked : List α} {cap : ℤ}

/-- `picked` stands at the increasing positions `ps`, the ends among them. -/
structure Spreads (rowids : List α) (cap : ℤ) (picked : List α) (ps : List ℕ) : Prop where
  increasing : ps.Pairwise (· < ·)
  stands : List.Forall₂ (fun p rowid => rowids[p]? = some rowid) ps picked
  length : (picked.length : ℤ) = min (rowids.length : ℤ) cap
  first : rowids ≠ [] → ps.head? = some 0
  last : rowids ≠ [] → 2 ≤ cap ∨ rowids.length ≤ cap → ps.getLast? = some (rowids.length - 1)

/-- No index of the choice is outside of the list. -/
theorem pickSpread_ok (rowids : List α) (hcap : 1 ≤ cap) : ∃ picked, pickSpread rowids cap = .ok picked ∧
    List.Forall₂ (fun p rowid => rowids[p]? = some rowid) (positions rowids.length cap) picked := by
  rcases le_or_gt (rowids.length : ℤ) cap with h | h
  · refine ⟨rowids, if_pos h, ?_⟩
    rw [positions_of_le h, List.forall₂_iff_get]
    refine ⟨List.length_range, fun i _ hi => ?_⟩
    simp
  · have hsome : ∀ i ∈ List.range cap.toNat, ∃ rowid,
        rowids[(roundHalfEven ((i : ℚ) * step rowids.length cap)).toNat]? = some rowid := by
      intro i hi
      have hlt := round_lt hcap h (by have := List.mem_range.mp hi; omega : (i : ℤ) < cap)
      have hnonneg := round_nonneg hcap h i
      exact ⟨_, List.getElem?_eq_getElem (by omega)⟩
    obtain ⟨picked, hpicked⟩ := Fallible.forall₂_of_forall_exists hsome
    refine ⟨picked, ?_, ?_⟩
    · rw [pickSpread, if_neg (not_le.mpr h)]
      exact Fallible.mapM_of_forall₂ (hpicked.imp fun i rowid hi => item_eq (round_nonneg hcap h i) hi)
    · rw [positions_of_lt h]
      exact List.forall₂_map_left_iff.mpr hpicked

theorem pickSpread_spreads (rowids : List α) (cap : ℤ) (hcap : 1 ≤ cap) :
    ∃ picked ps, pickSpread rowids cap = .ok picked ∧ Spreads rowids cap picked ps := by
  obtain ⟨picked, hpick, hstands⟩ := pickSpread_ok rowids hcap
  refine ⟨picked, positions rowids.length cap, hpick, ?_⟩
  exact {
    increasing := positions_pairwise hcap
    stands := hstands
    length := by rw [← hstands.length_eq, length_positions hcap]
    first := fun hne => head?_positions hcap (List.length_pos_iff.mpr hne).ne'
    last := fun hne => getLast?_positions hcap (List.length_pos_iff.mpr hne).ne' }

theorem pickSpread_half : pickSpread [10, 20, 30, 40, 50, 60] 3 = .ok [10, 30, 60] ∧
    ∃ picked ps, pickSpread [10, 20, 30, 40, 50, 60] 3 = .ok picked ∧
      Spreads [10, 20, 30, 40, 50, 60] 3 picked ps :=
  ⟨by decide +kernel, pickSpread_spreads [10, 20, 30, 40, 50, 60] 3 (by decide)⟩

/-- The choice has an element of every stretch that is longer than the step. -/
theorem exists_picked (hcap : 1 ≤ cap) (h : pickSpread rowids cap = .ok picked) {a b : ℕ} (hb : b ≤ rowids.length)
    (hab : a < b) (hstep : step rowids.length cap < b - a) : ∃ rowid ∈ picked, rowid ∈ (rowids.take b).drop a := by
  obtain ⟨picked', hpick, hstands⟩ := pickSpread_ok rowids hcap
  obtain rfl := Except.ok.inj (h.symm.trans hpick)
  obtain ⟨p, hp, hap, hpb⟩ := exists_position hcap hb hab hstep
  obtain ⟨rowid, hrowid, hat⟩ := Fallible.exists_of_forall₂ hstands hp
  refine ⟨rowid, hrowid, List.mem_of_getElem? (i := p - a) ?_⟩
  rw [List.getElem?_drop, Nat.add_sub_cancel' hap, List.getElem?_take_of_lt hpb, hat]

end

/-! ## its caller -/

/-- `RELATED_SOURCE_CAP` -/
def relatedSourceCap : ℤ := 16

/-- A row of the self-join over the vectors. -/
structure JoinRow where
  sourceRowid : ℕ
  targetNoteId : String
  targetChunkId : String
  distance : ℚ
deriving DecidableEq

structure RelatedChunkQuery where
  sourceChunksTotal : ℕ
  sourceChunksUsed : ℕ
  sourceChunksEmbedded : ℕ
  k : ℤ
  evidence : List RelatedEvidence
deriving DecidableEq

/-- `dict(all_chunks)` -/
def rowidToChunkId (all : List (ℕ × String)) : Dict ℕ String := all.foldl (fun d e => d.set e.1 e.2) .empty

def evidenceOf (all : List (ℕ × String)) (row : JoinRow) : Except Raised RelatedEvidence :=
  match (rowidToChunkId all).get? row.sourceRowid with
  | some chunkId => .ok ⟨chunkId, row.targetNoteId, row.targetChunkId, row.distance⟩
  | none => .error .keyError

section
variable {ν : Type} (db : Db ν) (noteId : String) (identity : IndexIdentity) (k : ℤ) (join : List ℕ → List JoinRow)

/-- `SELECT chunk_rowid, id … WHERE note_id = … ORDER BY ordinal` -/
def allChunks : List (ℕ × String) :=
  (ranked (·.chunk.ordinal) (db.chunksOf noteId)).map fun c => (c.chunkRowid, c.id)

/-- `src_rows`.  A table of vectors that does not exist yet has no rows here, and ends the search as it does there. -/
def srcRows (sourceRowids : List ℕ) : List (VecRow ν) :=
  db.vectors.filter fun v => v.dim = identity.dim ∧ v.chunkRowid ∈ sourceRowids ∧ v.identity = identity.key

def relatedChunks : Except Raised RelatedChunkQuery :=
  if identity.dim = 0 then .error (.valueError "dim must be a positive int, got 0")
  else
    let all := allChunks db noteId
    if all = [] then .ok ⟨0, 0, 0, k, []⟩
    else do
      let sourceRowids ← pickSpread (all.map Prod.fst) relatedSourceCap
      let embedded := (srcRows db identity sourceRowids).length
      if embedded = 0 then .ok ⟨all.length, sourceRowids.length, 0, k, []⟩
      else do
        let evidence ← (join sourceRowids).mapM (evidenceOf all)
        .ok ⟨all.length, sourceRowids.length, embedded, k, evidence⟩

end

section
variable {ν : Type} {db : Db ν} {noteId : String} {identity : IndexIdentity} {k : ℤ} {join : List ℕ → List JoinRow}
  {all : List (ℕ × String)} {rowid : ℕ} {chunkId : String}

theorem get?_rowids (h : (rowidToChunkId all).get? rowid = some chunkId) : (rowid, chunkId) ∈ all := by
  suffices hgen : ∀ d : Dict ℕ String, (all.foldl (fun d e => d.set e.1 e.2) d).get? rowid = some chunkId →
      (rowid, chunkId) ∈ all ∨ d.get? rowid = some chunkId by
    refine (hgen .empty h).resolve_right fun hempty => ?_
    rw [Dict.get?_empty] at hempty
    cases hempty
  clear h
  induction all with
  | nil => exact fun d h => .inr h
  | cons e all ih =>
    intro d h
    rcases ih _ h with hmem | hset
    · exact .inl (List.mem_cons_of_mem _ hmem)
    · rw [Dict.get?_set] at hset
      split at hset
      · rename_i heq
        cases hset
        subst heq
        exact .inl List.mem_cons_self
      · exact .inr hset

theorem exists_rowids (h : rowid ∈ all.map Prod.fst) : ∃ chunkId, (rowidToChunkId all).get? rowid = some chunkId := by
  rw [← Dict.mem_keys]
  suffices hgen : ∀ d : Dict ℕ String, rowid ∈ d.keys ∨ rowid ∈ all.map Prod.fst →
      rowid ∈ (all.foldl (fun d e => d.set e.1 e.2) d).keys from hgen .empty (.inr h)
  clear h
  induction all with
  | nil => exact fun d h => h.resolve_right (by simp)
  | cons e all ih =>
    intro d h
    refine ih _ ?_
    rw [Dict.mem_keys_set]
    rw [List.map_cons, List.mem_cons] at h
    tauto

theorem evidenceOf_ok (row : JoinRow) (h : row.sourceRowid ∈ all.map Prod.fst) : ∃ e, evidenceOf all row = .ok e := by
  obtain ⟨chunkId, hget⟩ := exists_rowids h
  exact ⟨_, by rw [evidenceOf, hget]⟩

theorem mem_allChunks {e : ℕ × String} :
    e ∈ allChunks db noteId ↔ ∃ c ∈ db.chunksOf noteId, (c.chunkRowid, c.id) = e := by
  simp [allChunks]

theorem length_allChunks : (allChunks db noteId).length = (db.chunksOf noteId).length := by
  rw [allChunks, List.length_map, (ranked_perm _ _).length_eq]

/-- A search whose join answers for the chunks it is asked about raises nothing.  It uses sixteen chunks of the note
or all that there are, and its evidence names chunks of the note. -/
theorem relatedChunks_ok (hdim : identity.dim ≠ 0)
    (hjoin : ∀ ids, ∀ row ∈ join ids, row.sourceRowid ∈ ids) :
    ∃ q, relatedChunks db noteId identity k join = .ok q ∧ q.sourceChunksTotal = (db.chunksOf noteId).length ∧
      q.sourceChunksUsed = min (db.chunksOf noteId).length 16 ∧
      ∀ e ∈ q.evidence, ∃ c ∈ db.chunksOf noteId, c.id = e.sourceChunkId := by
  by_cases hall : allChunks db noteId = []
  · have hlen : (db.chunksOf noteId).length = 0 := by rw [← length_allChunks, hall, List.length_nil]
    refine ⟨⟨0, 0, 0, k, []⟩, by rw [relatedChunks, if_neg hdim, if_pos hall], hlen.symm, ?_, by simp⟩
    show 0 = _
    omega
  have hcap : 1 ≤ relatedSourceCap := by decide
  obtain ⟨ids, hpick, hstands⟩ := pickSpread_ok ((allChunks db noteId).map Prod.fst) hcap
  have hused : ids.length = min (db.chunksOf noteId).length 16 := by
    have hlength := length_positions (n := ((allChunks db noteId).map Prod.fst).length) hcap
    rw [hstands.length_eq, List.length_map, length_allChunks] at hlength
    simp only [relatedSourceCap] at hlength
    omega
  by_cases hnone : (srcRows db identity ids).length = 0
  · refine ⟨⟨_, ids.length, 0, k, []⟩, ?_, length_allChunks, hused, by simp⟩
    simp only [relatedChunks, if_neg hdim, if_neg hall, hpick, bind, Except.bind, if_pos hnone]
  have hids : ∀ id ∈ ids, id ∈ (allChunks db noteId).map Prod.fst := by
    intro id hid
    obtain ⟨p, _, hat⟩ := Fallible.exists_of_forall₂ hstands.flip hid
    exact List.mem_of_getElem? hat
  obtain ⟨evidence, hevidence⟩ := Fallible.forall₂_of_forall_exists (l := join ids)
    fun row hrow => evidenceOf_ok row (hids _ (hjoin ids row hrow))
  have hmapM := Fallible.mapM_of_forall₂ hevidence
  refine ⟨⟨_, ids.length, (srcRows db identity ids).length, k, evidence⟩, ?_, length_allChunks, hused, ?_⟩
  · simp only [relatedChunks, if_neg hdim, if_neg hall, hpick, bind, Except.bind, if_neg hnone, hmapM]
  · intro e he
    obtain ⟨row, _, hrow⟩ := Fallible.mem_of_mapM_ok hmapM he
    unfold evidenceOf at hrow
    split at hrow
    · rename_i chunkId hget
      cases hrow
      obtain ⟨c, hc, heq⟩ := mem_allChunks.mp (get?_rowids hget)
      exact ⟨c, hc, congrArg Prod.snd heq⟩
    · cases hrow

end

end Kajet.Spread
