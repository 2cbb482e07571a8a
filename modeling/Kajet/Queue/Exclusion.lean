import Kajet.Queue.Machine

/-!
# Mutual exclusion per `dedup_key`

Two indexes describe who may hold a key: `pendingKey` (declared in the schema, scope
`(kind, dedup_key)`) and `runningKey` (declared nowhere, scope `dedup_key` alone).  The second is
kept by the guard of `_CLAIM_SQL`, because no other operation starts a row.

* `Inv`, `inv_reach`          both hold in every reachable state;
* `enqueueInSession_named`, `enqueueManyInSession_named`   the id an enqueue returns for a key is
                              the id of a pending row of that key;
* `claim_least`               a claim takes an eligible row that no eligible row precedes;
* `queue_exclusive`           the three together, for every reachable state.
-/

namespace Kajet.Queue
open Table Machine

/-- A running row holds its key, whatever its kind. -/
def runningKey (r : Job) : Option String := if r.status = .running then r.dedupKey else none

theorem runningKey_eq_some {r : Job} {k : String} :
    runningKey r = some k ↔ r.status = .running ∧ r.dedupKey = some k := by
  unfold runningKey
  split <;> simp [*]

structure Inv (rows : List Job) : Prop where
  ok : constraintsOk rows
  exclusive : UniqueOn runningKey rows

section
variable {rows rows' : List Job}

theorem Keeps.runningKey {r r' : Job} (h : Keeps r r') {k : String}
    (hk : runningKey r' = some k) : runningKey r = some k := by
  rw [runningKey_eq_some] at hk ⊢
  exact ⟨h.running hk.1, h.dedupKey ▸ hk.2⟩

theorem uniqueOn_append_of_none {κ : Type} {key : Job → Option κ} {js : List Job}
    (hj : ∀ j ∈ js, key j = none) (h : UniqueOn key rows) : UniqueOn key (rows ++ js) := by
  have hnil : js.filterMap key = [] := List.filterMap_eq_nil_iff.mpr hj
  rw [UniqueOn, List.filterMap_append, hnil, List.append_nil]
  exact h

theorem Change.exclusive (h : Change Keeps rows rows') (hu : UniqueOn runningKey rows) :
    UniqueOn runningKey rows' := by
  induction h with
  | refl => exact hu
  | insert js hj _ =>
    refine uniqueOn_append_of_none (fun j hjs => ?_) hu
    rw [runningKey, (hj j hjs).1]; rfl
  | update p f hf _ => exact hu.updateWhere fun r hr hp k hk => (hf r hr hp).runningKey hk
  | delete p => exact hu.deleteWhere
  | trans _ _ ih ih' => exact ih' (ih hu)

theorem constraintsOk.nodup (h : constraintsOk rows) : rows.Nodup := h.1.nodup fun _ _ => rfl

theorem constraintsOk.eq_of_id (h : constraintsOk rows) {a b : Job} (ha : a ∈ rows) (hb : b ∈ rows)
    (hid : a.id = b.id) : a = b := h.1.eq (k := b.id) ha hb (congrArg some hid) rfl

theorem claimable_mem {now cut : ℚ} {j : Job} (h : j ∈ claimable rows now cut) :
    j ∈ rows ∧ eligible rows now cut j = true ∧
      ∀ x ∈ rows, eligible rows now cut x = true → claimsBefore j x = true := by
  obtain ⟨h1, h2⟩ := List.mem_filter.mp h
  obtain ⟨h3, h4⟩ := List.mem_filter.mp h1
  refine ⟨h3, h4, fun x hx hex => ?_⟩
  exact List.all_eq_true.mp h2 x (List.mem_filter.mpr ⟨hx, hex⟩)

/-- A claim does nothing, or locks an eligible row that may come first. -/
theorem claim_cases (rows : List Job) (worker : String) (now staleAfter : ℚ) (tie : Nat) :
    claim rows worker now staleAfter tie = (rows, none) ∨
      ∃ j ∈ claimable rows now (now - staleAfter), claim rows worker now staleAfter tie =
        (updateWhere (fun r => r.id = j.id) (lock worker now) rows, some (lock worker now j)) := by
  unfold claim
  simp only
  cases h : (claimable rows now (now - staleAfter))[tie %
      (claimable rows now (now - staleAfter)).length]? with
  | none => exact .inl rfl
  | some j => exact .inr ⟨j, List.mem_of_getElem? h, rfl⟩

/-- No other running row shares the key of an eligible row. -/
theorem eligible_free {now cut : ℚ} {j r : Job} (hj : eligible rows now cut j = true) (hr : r ∈ rows)
    (hrun : r.status = .running) {k : String} (hk : r.dedupKey = some k) (hjk : j.dedupKey = some k) :
    r.id = j.id := by
  by_contra hne
  simp only [eligible, decide_eq_true_eq] at hj
  exact hj.2 ⟨r, hr, hrun, by rw [hk]; simp, by rw [hk, hjk], hne⟩

theorem lock_constraintsOk {worker : String} {now : ℚ} {id : String} (hc : constraintsOk rows) :
    constraintsOk (updateWhere (fun r => r.id = id) (lock worker now) rows) :=
  hc.update (fun _ => rfl) fun _ _ _ _ hk => by rw [pendingKey_of_ne (by simp [lock])] at hk; cases hk

theorem claim_inv (h : Inv rows) (worker : String) (now staleAfter : ℚ) (tie : Nat) :
    Inv (claim rows worker now staleAfter tie).1 := by
  rcases claim_cases rows worker now staleAfter tie with e | ⟨j, hj, e⟩
  · rw [e]; exact h
  rw [e]
  obtain ⟨hjr, hel, _⟩ := claimable_mem hj
  refine ⟨lock_constraintsOk h.ok, ?_⟩
  -- the locked row is `j`; it can only clash with a running row of its key, which the guard
  -- excluded
  have hclash : ∀ b ∈ rows, b.id ≠ j.id → ∀ k, runningKey (lock worker now j) = some k →
      runningKey b ≠ some k := by
    intro b hb hne k hk hkb
    rw [runningKey_eq_some] at hk hkb
    exact hne (eligible_free hel hb hkb.1 hkb.2 hk.2)
  rw [uniqueOn_updateWhere_iff h.ok.nodup]
  intro a ha b hb hne
  by_cases hai : a.id = j.id <;> by_cases hbi : b.id = j.id
  · exact absurd (h.ok.eq_of_id ha hb (hai.trans hbi.symm)) hne
  · rw [h.ok.eq_of_id ha hjr hai]
    simp only [decide_true, if_true, hbi, decide_false, Bool.false_eq_true, if_false]
    exact hclash b hb hbi
  · rw [h.ok.eq_of_id hb hjr hbi]
    simp only [decide_true, if_true, hai, decide_false, Bool.false_eq_true, if_false]
    exact Std.Symm.symm _ _ (hclash a ha hai)
  · simp only [hai, hbi, decide_false, Bool.false_eq_true, if_false]
    intro k hka hkb
    exact hne (h.exclusive.eq ha hb hka hkb)

theorem step_inv {db db' : Db} {op : Op} (h : Inv db.rows) (hs : step db op = some db') :
    Inv db'.rows := by
  rcases step_cases h.ok hs with hch | ⟨worker, now, staleAfter, tie, _, rfl⟩
  · exact ⟨hch.constraintsOk h.ok, hch.exclusive h.exclusive⟩
  · exact claim_inv h worker now staleAfter tie

end

/-- Both key scopes hold in every reachable state. -/
theorem inv_reach {db : Db} {ok : Db → Op → Prop} (h : Reach queue ok db) : Inv db.rows := by
  refine Reach.inv (P := fun db => Inv db.rows) (fun s hs => ?_) (fun s op t _ hinv _ hst => step_inv hinv hst) h
  rw [show s = ⟨[], []⟩ from hs]
  exact ⟨⟨.nil, .nil⟩, .nil⟩

/-! ## what an enqueue returns -/

/-- `id` is the id of a pending row of `(kind, key)`. -/
def Named (rows : List Job) (kind : String) (key : Option String) (id : String) : Prop :=
  ∃ r ∈ rows, r.id = id ∧ r.status = .pending ∧ r.kind = kind ∧ r.dedupKey = key

section
variable {rows rows' : List Job} {kind : String} {key : Option String} {id : String}

theorem selectPendingOne_named {k : String} (h : selectPendingOne rows kind k = .ok id) :
    Named rows kind (some k) id := by
  unfold selectPendingOne at h
  split at h
  · cases h
  · rename_i r hr
    have hmem : r ∈ rows.filter (fun r => r.kind = kind ∧ r.dedupKey = some k ∧ r.status = .pending) := by
      rw [hr]; exact List.mem_singleton_self r
    obtain ⟨h1, h2⟩ := List.mem_filter.mp hmem
    simp only [decide_eq_true_eq] at h2
    exact ⟨r, h1, Except.ok.inj h, h2.2.2, h2.1, h2.2.1⟩
  · cases h

theorem enqueueInSession_named {jobId : String} {e : JobEntry} {a : EnqueueArgs} {k : String}
    (hk : e.dedupKey = some k) (h : enqueueInSession rows jobId kind e a = .ok (rows', id)) :
    Named rows' kind (some k) id := by
  unfold enqueueInSession at h
  rw [hk] at h
  obtain ⟨rows1, _, h2⟩ := bind_ok h
  obtain ⟨id1, h3, h4⟩ := bind_ok h2
  cases h4
  exact selectPendingOne_named h3

/-- An upsert leaves the pending rows pending under their ids. -/
theorem upsert_named {job : Job} {a : EnqueueArgs} (h : upsert rows job a = .ok rows')
    (hn : Named rows kind key id) : Named rows' kind key id := by
  obtain ⟨r, hr, h1, h2, h3, h4⟩ := hn
  unfold upsert at h
  split at h
  · cases h
  split at h
  · rw [← Except.ok.inj h]
    by_cases hp : pendingKey r = pendingKey job
    · exact ⟨rearm a r, mem_updateWhere_of_sel hr (by simp [hp]), h1, h2, h3, h4⟩
    · exact ⟨r, mem_updateWhere_of_not hr (by simp [hp]), h1, h2, h3, h4⟩
  · obtain ⟨rfl, _⟩ := flush_ok h
    exact ⟨r, List.mem_append_left _ hr, h1, h2, h3, h4⟩

theorem upsertReturning_named {a : EnqueueArgs} {acc acc' : List Job × List (Option String × String)}
    {x : JobEntry × String} (hx : x.1.dedupKey ≠ none)
    (hacc : ∀ p ∈ acc.2, Named acc.1 kind p.1 p.2) (h : upsertReturning kind a acc x = .ok acc') :
    (∀ p ∈ acc'.2, Named acc'.1 kind p.1 p.2) ∧ ∀ key id, Named acc.1 kind key id →
      Named acc'.1 kind key id := by
  unfold upsertReturning at h
  obtain ⟨rows1, h1, h2⟩ := bind_ok h
  split at h2
  · rename_i r hr
    cases h2
    refine ⟨fun p hp => ?_, fun _ _ => upsert_named h1⟩
    rcases List.mem_append.mp hp with hp | hp
    · exact upsert_named h1 (hacc p hp)
    · rw [List.mem_singleton.mp hp]
      obtain ⟨k, hk⟩ := Option.ne_none_iff_exists'.mp hx
      have hkey : pendingKey r = some (kind, k) := by
        have h3 := List.find?_some hr
        rw [decide_eq_true_eq] at h3
        rw [h3, pendingKey_eq_some]
        exact ⟨rfl, rfl, hk⟩
      obtain ⟨hs, hkd, _⟩ := pendingKey_eq_some.mp hkey
      exact ⟨r, List.mem_of_find?_eq_some hr, rfl, hs, hkd, rfl⟩
  · cases h2

/-- What the `RETURNING` rows of one statement name stays named to its end. -/
theorem upsertFold_named {a : EnqueueArgs} (xs : List (JobEntry × String))
    (hx : ∀ x ∈ xs, x.1.dedupKey ≠ none) (acc acc' : List Job × List (Option String × String))
    (hacc : ∀ p ∈ acc.2, Named acc.1 kind p.1 p.2)
    (h : xs.foldlM (upsertReturning kind a) acc = .ok acc') :
    (∀ p ∈ acc'.2, Named acc'.1 kind p.1 p.2) ∧ ∀ key id, Named acc.1 kind key id →
      Named acc'.1 kind key id := by
  induction xs generalizing acc with
  | nil => cases h; exact ⟨hacc, fun _ _ hn => hn⟩
  | cons x xs ih =>
    rw [List.foldlM_cons] at h
    obtain ⟨acc1, h1, h2⟩ := bind_ok h
    obtain ⟨hacc1, hkeep1⟩ := upsertReturning_named (hx x List.mem_cons_self) hacc h1
    obtain ⟨hacc2, hkeep2⟩ := ih (fun y hy => hx y (List.mem_cons_of_mem _ hy)) acc1 hacc1 h2
    exact ⟨hacc2, fun key id hn => hkeep2 key id (hkeep1 key id hn)⟩

/-- The positions of the entries with a key, as `enumerate` pairs them. -/
theorem mem_dedupIndexed {entries : List (JobEntry × String)} {x : Nat × JobEntry × String} :
    x ∈ (entries.zipIdx.map fun x => (x.2, x.1)).filter (fun x => x.2.1.dedupKey ≠ none) ↔
      entries[x.1]? = some x.2 ∧ x.2.1.dedupKey ≠ none := by
  simp only [List.mem_filter, List.mem_map, decide_eq_true_eq, Prod.exists]
  constructor
  · rintro ⟨⟨e, i, n, hmem, rfl⟩, hk⟩
    exact ⟨List.mk_mem_zipIdx_iff_getElem?.mp hmem, hk⟩
  · rintro ⟨hget, hk⟩
    exact ⟨⟨x.2.1, x.2.2, x.1, List.mk_mem_zipIdx_iff_getElem?.mpr hget, rfl⟩, hk⟩

theorem mapM_lookup {ret : List (Option String × String)} {chunk : List (Nat × JobEntry × String)}
    {ids : List (Nat × String)}
    (h : chunk.mapM (fun x => match ret.lookup x.2.1.dedupKey with
      | some id => Except.ok (x.1, id)
      | none => Except.error DbError.keyError) = .ok ids) :
    (∀ p ∈ ids, ∃ x ∈ chunk, x.1 = p.1 ∧ (x.2.1.dedupKey, p.2) ∈ ret) ∧
      ∀ x ∈ chunk, ∃ p ∈ ids, p.1 = x.1 := by
  induction chunk generalizing ids with
  | nil => cases h; simp
  | cons x chunk ih =>
    rw [List.mapM_cons] at h
    obtain ⟨p, hp, h2⟩ := bind_ok h
    obtain ⟨ps, hps, h3⟩ := bind_ok h2
    cases h3
    obtain ⟨ih1, ih2⟩ := ih hps
    split at hp
    · rename_i id hid
      cases hp
      constructor
      · intro q hq
        rcases List.mem_cons.mp hq with rfl | hq
        · exact ⟨x, List.mem_cons_self, rfl, mem_of_lookup hid⟩
        · obtain ⟨y, hy, h4⟩ := ih1 q hq
          exact ⟨y, List.mem_cons_of_mem _ hy, h4⟩
      · intro y hy
        rcases List.mem_cons.mp hy with rfl | hy
        · exact ⟨_, List.mem_cons_self, rfl⟩
        · obtain ⟨q, hq, h4⟩ := ih2 y hy
          exact ⟨q, List.mem_cons_of_mem _ hq, h4⟩
    · cases hp

/-- The ids assigned so far name pending rows of their entries' keys. -/
def Assigned (entries : List (JobEntry × String)) (kind : String)
    (acc : List Job × List (Nat × String)) : Prop :=
  ∀ p ∈ acc.2, ∃ x, entries[p.1]? = some x ∧ x.1.dedupKey ≠ none ∧
    Named acc.1 kind x.1.dedupKey p.2

theorem upsertChunk_assigned {entries : List (JobEntry × String)} {a : EnqueueArgs}
    {acc acc' : List Job × List (Nat × String)} {chunk : List (Nat × JobEntry × String)}
    (hchunk : ∀ x ∈ chunk, entries[x.1]? = some x.2 ∧ x.2.1.dedupKey ≠ none)
    (hacc : Assigned entries kind acc) (h : upsertChunk kind a acc chunk = .ok acc') :
    Assigned entries kind acc' ∧ (∀ x ∈ chunk, ∃ p ∈ acc'.2, p.1 = x.1) ∧
      ∀ p ∈ acc.2, p ∈ acc'.2 := by
  unfold upsertChunk at h
  obtain ⟨⟨rows1, returned⟩, h1, h2⟩ := bind_ok h
  obtain ⟨ids, h3, h4⟩ := bind_ok h2
  cases h4
  obtain ⟨hret, hkeep⟩ := upsertFold_named (chunk.map (·.2))
    (fun x hx => by
      obtain ⟨y, hy, rfl⟩ := List.mem_map.mp hx
      exact (hchunk y hy).2)
    (acc.1, []) _ (fun p hp => absurd hp List.not_mem_nil) h1
  obtain ⟨hids, hcov⟩ := mapM_lookup h3
  refine ⟨?_, ?_, fun p hp => List.mem_append_left _ hp⟩
  · intro p hp
    rcases List.mem_append.mp hp with hp | hp
    · obtain ⟨x, hx, hk, hn⟩ := hacc p hp
      exact ⟨x, hx, hk, hkeep _ _ hn⟩
    · obtain ⟨x, hx, hi, hmem⟩ := hids p hp
      obtain ⟨hget, hk⟩ := hchunk x hx
      exact ⟨x.2, hi ▸ hget, hk, hret _ (List.mem_reverse.mp hmem)⟩
  · intro x hx
    obtain ⟨p, hp, hi⟩ := hcov x hx
    exact ⟨p, List.mem_append_right _ hp, hi⟩

theorem upsertChunks_assigned {entries : List (JobEntry × String)} {a : EnqueueArgs}
    (chunks : List (List (Nat × JobEntry × String))) (acc acc' : List Job × List (Nat × String))
    (hchunks : ∀ c ∈ chunks, ∀ x ∈ c, entries[x.1]? = some x.2 ∧ x.2.1.dedupKey ≠ none)
    (hacc : Assigned entries kind acc) (h : chunks.foldlM (upsertChunk kind a) acc = .ok acc') :
    Assigned entries kind acc' ∧ (∀ c ∈ chunks, ∀ x ∈ c, ∃ p ∈ acc'.2, p.1 = x.1) ∧
      ∀ p ∈ acc.2, p ∈ acc'.2 := by
  induction chunks generalizing acc with
  | nil => cases h; exact ⟨hacc, fun c hc => absurd hc List.not_mem_nil, fun _ hp => hp⟩
  | cons c chunks ih =>
    rw [List.foldlM_cons] at h
    obtain ⟨acc1, h1, h2⟩ := bind_ok h
    obtain ⟨hacc1, hcov1, hsub1⟩ := upsertChunk_assigned (hchunks c List.mem_cons_self) hacc h1
    obtain ⟨hacc2, hcov2, hsub2⟩ :=
      ih acc1 (fun d hd => hchunks d (List.mem_cons_of_mem _ hd)) hacc1 h2
    refine ⟨hacc2, fun d hd x hx => ?_, fun p hp => hsub2 p (hsub1 p hp)⟩
    rcases List.mem_cons.mp hd with rfl | hd
    · obtain ⟨p, hp, hi⟩ := hcov1 x hx
      exact ⟨p, hsub2 p hp, hi⟩
    · exact hcov2 d hd x hx

theorem enqueueManyInSession_named {entries : List (JobEntry × String)} {a : EnqueueArgs}
    {ids : List String} (h : enqueueManyInSession rows kind entries a = .ok (rows', ids))
    {i : Nat} {x : JobEntry × String} (hx : entries[i]? = some x) {k : String}
    (hk : x.1.dedupKey = some k) :
    ∃ id, ids[i]? = some id ∧ Named rows' kind (some k) id := by
  unfold enqueueManyInSession at h
  obtain ⟨rows1, _, h2⟩ := bind_ok h
  obtain ⟨⟨rows2, pairs⟩, h3, h4⟩ := bind_ok h2
  cases h4
  have hne : x.1.dedupKey ≠ none := by rw [hk]; simp
  have hmem : ((i, x) : Nat × JobEntry × String) ∈
      (entries.zipIdx.map fun x => (x.2, x.1)).filter (fun x => x.2.1.dedupKey ≠ none) :=
    mem_dedupIndexed.mpr ⟨hx, hne⟩
  obtain ⟨c, hc, hxc⟩ := (batched_mem enqueueUpsertChunkSize _ [] _).mpr (.inr hmem)
  obtain ⟨hass, hcov, _⟩ := upsertChunks_assigned _ (rows1, []) _
    (fun c hc y hy => mem_dedupIndexed.mp
      (((batched_mem enqueueUpsertChunkSize _ [] y).mp ⟨c, hc, hy⟩).resolve_left List.not_mem_nil))
    (fun p hp => absurd hp List.not_mem_nil) h3
  obtain ⟨⟨i', id⟩, hp, hi⟩ := hcov c hc _ hxc
  obtain rfl : i' = i := hi
  obtain ⟨id', hid'⟩ := exists_lookup hp
  refine ⟨id', ?_, ?_⟩
  · rw [List.getElem?_map, List.getElem?_zipIdx, hx]
    simp [hne, hid']
  · obtain ⟨y, hy, _, hn⟩ := hass _ (mem_of_lookup hid')
    simp only [hx, Option.some.injEq] at hy
    rw [← hk, hy]
    exact hn

/-! ## what a claim takes -/

theorem claim_least {worker : String} {now staleAfter : ℚ} {tie : Nat} {job : Job}
    (h : claim rows worker now staleAfter tie = (rows', some job)) :
    ∃ j ∈ rows, eligible rows now (now - staleAfter) j = true ∧ job = lock worker now j ∧
      rows' = updateWhere (fun r => r.id = j.id) (lock worker now) rows ∧
      ∀ x ∈ rows, eligible rows now (now - staleAfter) x = true →
        j.priority < x.priority ∨ (j.priority = x.priority ∧ j.nextRunAt ≤ x.nextRunAt) := by
  rcases claim_cases rows worker now staleAfter tie with e | ⟨j, hj, e⟩
  · rw [e] at h; cases h
  · rw [e] at h
    cases h
    obtain ⟨h1, h2, h3⟩ := claimable_mem hj
    refine ⟨j, h1, h2, rfl, rfl, fun x hx hex => ?_⟩
    simpa only [claimsBefore, decide_eq_true_eq] using h3 x hx hex

end

/-- In every reachable state of the queue: one running row per key across all kinds, one pending
row per `(kind, key)`; an enqueue with a key returns the id of a row that is pending when it
commits; a claim takes an eligible row that is least in `(priority, next_run_at)`. -/
theorem queue_exclusive {db : Db} (h : Reach queue free db) :
    (∀ r ∈ db.rows, ∀ r' ∈ db.rows, r.status = .running → r'.status = .running →
      r.dedupKey ≠ none → r.dedupKey = r'.dedupKey → r = r') ∧
    (∀ r ∈ db.rows, ∀ r' ∈ db.rows, r.status = .pending → r'.status = .pending →
      r.dedupKey ≠ none → r.kind = r'.kind → r.dedupKey = r'.dedupKey → r = r') ∧
    (∀ jobId kind e a key rows' id, e.dedupKey = some key →
      enqueueInSession db.rows jobId kind e a = .ok (rows', id) → Named rows' kind (some key) id) ∧
    (∀ kind entries a rows' ids, enqueueManyInSession db.rows kind entries a = .ok (rows', ids) →
      ∀ (i : Nat) x key, entries[i]? = some x → x.1.dedupKey = some key →
        ∃ id, ids[i]? = some id ∧ Named rows' kind (some key) id) ∧
    (∀ worker now staleAfter tie rows' job,
      claim db.rows worker now staleAfter tie = (rows', some job) →
      ∃ j ∈ db.rows, eligible db.rows now (now - staleAfter) j = true ∧ job = lock worker now j ∧
        rows' = updateWhere (fun r => r.id = j.id) (lock worker now) db.rows ∧
        ∀ x ∈ db.rows, eligible db.rows now (now - staleAfter) x = true →
          j.priority < x.priority ∨ (j.priority = x.priority ∧ j.nextRunAt ≤ x.nextRunAt)) := by
  have hinv := inv_reach h
  refine ⟨?_, ?_, fun _ _ _ _ _ _ _ hk h => enqueueInSession_named hk h,
    fun _ _ _ _ _ h _ _ _ hx hk => enqueueManyInSession_named h hx hk,
    fun _ _ _ _ _ _ h => claim_least h⟩
  · intro r hr r' hr' hs hs' hk he
    obtain ⟨k, hk⟩ := Option.ne_none_iff_exists'.mp hk
    exact hinv.exclusive.eq hr hr' (runningKey_eq_some.mpr ⟨hs, hk⟩)
      (runningKey_eq_some.mpr ⟨hs', he ▸ hk⟩)
  · intro r hr r' hr' hs hs' hk hkind he
    obtain ⟨k, hk⟩ := Option.ne_none_iff_exists'.mp hk
    exact hinv.ok.2.eq (k := (r.kind, k)) hr hr' (pendingKey_eq_some.mpr ⟨hs, rfl, hk⟩)
      (pendingKey_eq_some.mpr ⟨hs', hkind.symm, he ▸ hk⟩)

/-- A job of the link repair of one workspace. -/
def reconcileEntry : JobEntry := ⟨[("workspace", "work")], some "reconcile:u1:work", some "u1"⟩

/-- Two enqueues of one key around a claim. -/
def twinRun : List Op :=
  [.enqueue "j1" "reconcile_links" reconcileEntry ⟨3, 0, priorityBulk, 100⟩,
   .claim "w1" 101 300 0,
   .enqueue "j2" "reconcile_links" reconcileEntry ⟨3, 0, priorityBulk, 102⟩]

theorem queue_exclusive_twinRun : ∃ db, queue.exec ⟨[], []⟩ twinRun = some db ∧
    db.rows.map (fun r => (r.id, r.status)) = [("j1", .running), ("j2", .pending)] ∧
    (∀ r ∈ db.rows, ∀ r' ∈ db.rows, r.status = .running → r'.status = .running →
      r.dedupKey ≠ none → r.dedupKey = r'.dedupKey → r = r') := by
  have hview : (queue.exec ⟨[], []⟩ twinRun).map (fun db => db.rows.map fun r => (r.id, r.status)) =
      some [("j1", .running), ("j2", .pending)] := by decide +kernel
  obtain ⟨db, hdb, hv⟩ := Option.map_eq_some_iff.mp hview
  exact ⟨db, hdb, hv, (queue_exclusive (.of_exec (.start rfl) hdb)).1⟩

end Kajet.Queue
