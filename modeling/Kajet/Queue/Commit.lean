import Kajet.Queue.Exclusion

/-!
# Which transitions commit

`uq_jobs_pending_dedup` covers pending rows only, so a running or failed row may share its
`(kind, dedup_key)` with a pending one, its *twin*.  Moving such a row back to `pending` violates
the index and the transaction is rolled back.

* `constraintsOk_requeue_iff`   an update that moves rows to `pending` is legal exactly when none
                                of them has a twin;
* `transitions_commit_iff`      `fail`, `resetRunningToPending` and `retry` do what they promise
                                exactly when they move no row with a twin back to `pending`.
-/

namespace Kajet.Queue
open Table Machine

/-- Another pending row carries the `(kind, dedup_key)` of `r`. -/
def HasPendingTwin (rows : List Job) (r : Job) : Prop :=
  r.dedupKey ≠ none ∧ ∃ t ∈ rows, t.id ≠ r.id ∧ t.status = .pending ∧ t.kind = r.kind ∧
    t.dedupKey = r.dedupKey

instance (rows : List Job) (r : Job) : Decidable (HasPendingTwin rows r) :=
  inferInstanceAs (Decidable (_ ∧ _))

/-! ## what the three methods promise -/

/-- `fail` commits: the row is pending with one more attempt than was read, or failed. -/
def FailEnds (rows : List Job) (seen : Job) (a : FailArgs) : Prop :=
  ∃ rows' res, failWrite rows seen a = .ok (rows', res) ∧ ∃ r ∈ rows', r.id = seen.id ∧
    ((r.status = .pending ∧ r.attempts = seen.attempts + 1) ∨ r.status = .failed)

/-- `reset_running_to_pending` commits: the worker holds nothing. -/
def ResetEnds (rows : List Job) (worker : String) (now : ℚ) : Prop :=
  ∃ rows' n, resetRunningToPending rows worker now = .ok (rows', n) ∧
    ∀ r ∈ rows', heldBy worker r = false

/-- `retry` commits: the row is pending. -/
def RetryEnds (rows : List Job) (seen : Job) (now : ℚ) : Prop :=
  ∃ rows', retryWrite rows seen now = .ok rows' ∧ ∃ r ∈ rows', r.id = seen.id ∧ r.status = .pending

/-! ## the index against a move to `pending` -/

section
variable {rows : List Job} {p : Job → Bool} {f : Job → Job}

/-- `f` moves the rows that `p` selects to `pending` and leaves their identity alone. -/
structure Requeues (rows : List Job) (p : Job → Bool) (f : Job → Job) : Prop where
  id : ∀ r, (f r).id = r.id
  kind : ∀ r, (f r).kind = r.kind
  dedupKey : ∀ r, (f r).dedupKey = r.dedupKey
  pending : ∀ r ∈ rows, p r = true → (f r).status = .pending
  /-- the selected rows do not clash among themselves -/
  apart : ∀ a ∈ rows, ∀ b ∈ rows, p a = true → p b = true → a.dedupKey ≠ none →
    a.kind = b.kind → a.dedupKey = b.dedupKey → a = b

theorem Requeues.primaryKey (h : Requeues rows p f) (hc : constraintsOk rows) :
    UniqueOn primaryKey (updateWhere p f rows) :=
  hc.1.updateWhere fun r _ _ k hk => by rw [Queue.primaryKey, h.id] at hk; exact hk

/-- A twin of a selected row makes the update illegal. -/
theorem Requeues.no_twin (h : Requeues rows p f) {r : Job} (hr : r ∈ rows) (hp : p r = true)
    (hu : constraintsOk (updateWhere p f rows)) : ¬ HasPendingTwin rows r := by
  rintro ⟨hk, t, ht, hne, hpend, hkind, hkey⟩
  obtain ⟨k, hk'⟩ := Option.ne_none_iff_exists'.mp hk
  have hpt : p t = false := by
    by_contra hpt
    rw [Bool.not_eq_false] at hpt
    exact hne (congrArg Job.id (h.apart t ht r hr hpt hp (by rw [hkey, hk']; simp) hkind hkey))
  have hfr : pendingKey (f r) = some (r.kind, k) :=
    pendingKey_eq_some.mpr ⟨h.pending r hr hp, h.kind r, (h.dedupKey r).trans hk'⟩
  have htk : pendingKey t = some (r.kind, k) := pendingKey_eq_some.mpr ⟨hpend, hkind, hkey.trans hk'⟩
  have heq : t = f r :=
    hu.2.eq (mem_updateWhere_of_not ht hpt) (mem_updateWhere_of_sel hr hp) htk hfr
  exact hne (by rw [heq, h.id])

theorem Requeues.differ (h : Requeues rows p f) {a b : Job} (hb : b ∈ rows) (hid : a.id ≠ b.id)
    (hno : ¬ HasPendingTwin rows a) : Differ pendingKey (f a) b := by
  intro k hka hkb
  rw [pendingKey_eq_some, h.kind, h.dedupKey] at hka
  rw [pendingKey_eq_some] at hkb
  exact hno ⟨by rw [hka.2.2]; simp, b, hb, fun e => hid e.symm, hkb.1, hkb.2.1.trans hka.2.1.symm,
    hkb.2.2.trans hka.2.2.symm⟩

/-- Moving rows to `pending` is legal exactly when none of them has a twin. -/
theorem constraintsOk_requeue_iff (hc : constraintsOk rows) (h : Requeues rows p f) :
    constraintsOk (updateWhere p f rows) ↔ ∀ r ∈ rows, p r = true → ¬ HasPendingTwin rows r := by
  constructor
  · exact fun hu r hr hp => h.no_twin hr hp hu
  intro hno
  refine ⟨h.primaryKey hc, (uniqueOn_updateWhere_iff hc.nodup).mpr ?_⟩
  intro a ha b hb hne
  have hid : a.id ≠ b.id := fun e => hne (hc.eq_of_id ha hb e)
  cases hpa : p a <;> cases hpb : p b <;> simp only [Bool.false_eq_true, if_true, if_false]
  · exact uniqueOn_iff_pairwise.mp hc.2 |>.forall ha hb hne
  · exact Std.Symm.symm _ _ (h.differ ha hid.symm (hno b hb hpb))
  · exact h.differ hb hid (hno a ha hpa)
  · intro k hka hkb
    rw [pendingKey_eq_some, h.kind, h.dedupKey] at hka hkb
    exact hne (h.apart a ha b hb hpa hpb (by rw [hka.2.2]; simp) (hka.2.1.trans hkb.2.1.symm)
      (hka.2.2.trans hkb.2.2.symm))

theorem fence_iff {jobId worker : String} {r : Job} :
    fence jobId worker r = true ↔ r.id = jobId ∧ r.lockedBy = some worker := by
  simp only [fence, decide_eq_true_eq]

theorem heldBy_iff {worker : String} {r : Job} :
    heldBy worker r = true ↔ r.status = .running ∧ r.lockedBy = some worker := by
  simp only [heldBy, decide_eq_true_eq]

/-! ## fail -/

theorem failValues_failed {seen : Job} {a : FailArgs} (h : seen.maxAttempts ≤ seen.attempts + 1)
    (r : Job) : (failValues seen a r).status = .failed := by
  unfold failValues
  have h' : seen.maxAttempts ≤ ((seen.attempts + 1 : Nat) : Int) := by push_cast; exact h
  simp only [h', if_true]

theorem failValues_pending {seen : Job} {a : FailArgs} (h : ¬ seen.maxAttempts ≤ seen.attempts + 1)
    (r : Job) : (failValues seen a r).status = .pending ∧
      (failValues seen a r).attempts = seen.attempts + 1 := by
  unfold failValues
  have h' : ¬ seen.maxAttempts ≤ ((seen.attempts + 1 : Nat) : Int) := by push_cast; exact h
  simp only [h', if_false, and_self]

theorem failValues_id (seen : Job) (a : FailArgs) (r : Job) : (failValues seen a r).id = r.id ∧
    (failValues seen a r).kind = r.kind ∧ (failValues seen a r).dedupKey = r.dedupKey := by
  unfold failValues
  simp only
  split <;> exact ⟨rfl, rfl, rfl⟩

/-- Rows selected by their id are one row. -/
theorem requeues_of_id (hc : constraintsOk rows) {jobId : String}
    (hp : ∀ r ∈ rows, p r = true → r.id = jobId) (hid : ∀ r, (f r).id = r.id ∧ (f r).kind = r.kind ∧
      (f r).dedupKey = r.dedupKey) (hpend : ∀ r ∈ rows, p r = true → (f r).status = .pending) :
    Requeues rows p f where
  id r := (hid r).1
  kind r := (hid r).2.1
  dedupKey r := (hid r).2.2
  pending := hpend
  apart a ha b hb hpa hpb _ _ _ := hc.eq_of_id ha hb ((hp a ha hpa).trans (hp b hb hpb).symm)

/-- The legality of the update of `fail`. -/
theorem failWrite_legal_iff (hc : constraintsOk rows) {seen r : Job} {a : FailArgs} (hr : r ∈ rows)
    (hf : fence seen.id a.worker r = true) :
    constraintsOk (updateWhere (fence seen.id a.worker) (failValues seen a) rows) ↔
      (seen.maxAttempts ≤ seen.attempts + 1 ∨ ¬ HasPendingTwin rows r) := by
  by_cases hmax : seen.maxAttempts ≤ seen.attempts + 1
  · refine iff_of_true (hc.update (fun r => (failValues_id seen a r).1) fun x _ _ k hk => ?_) (.inl hmax)
    rw [pendingKey_of_ne (by rw [failValues_failed hmax]; simp)] at hk
    cases hk
  · have hrq : Requeues rows (fence seen.id a.worker) (failValues seen a) :=
      requeues_of_id hc (fun x _ hx => (fence_iff.mp hx).1) (failValues_id seen a)
        fun x _ _ => (failValues_pending hmax x).1
    rw [constraintsOk_requeue_iff hc hrq, or_iff_right hmax]
    constructor
    · exact fun h => h r hr hf
    · intro h x hx hxf
      rw [hc.eq_of_id hx hr ((fence_iff.mp hxf).1.trans (fence_iff.mp hf).1.symm)]
      exact h

theorem failEnds_iff (hc : constraintsOk rows) {seen r : Job} {a : FailArgs} (hr : r ∈ rows)
    (hid : r.id = seen.id) (hl : r.lockedBy = some a.worker) :
    FailEnds rows seen a ↔ (seen.maxAttempts ≤ seen.attempts + 1 ∨ ¬ HasPendingTwin rows r) := by
  have hf : fence seen.id a.worker r = true := fence_iff.mpr ⟨hid, hl⟩
  rw [← failWrite_legal_iff hc hr hf]
  constructor
  · rintro ⟨rows', res, hw, _⟩
    obtain ⟨rows1, h1, _⟩ := bind_ok hw
    exact (flush_ok h1).2
  · intro hok
    have hany : rows.any (fence seen.id a.worker) = true := List.any_eq_true.mpr ⟨r, hr, hf⟩
    refine ⟨updateWhere (fence seen.id a.worker) (failValues seen a) rows,
      if seen.maxAttempts ≤ seen.attempts + 1 then .failed else .pending, ?_,
      failValues seen a r, mem_updateWhere_of_sel hr hf, (failValues_id seen a r).1.trans hid, ?_⟩
    · simp only [failWrite, flush_eq hok, hany, if_true]
      rfl
    · by_cases hmax : seen.maxAttempts ≤ seen.attempts + 1
      · exact .inr (failValues_failed hmax r)
      · exact .inl (failValues_pending hmax r)

/-! ## reset -/

theorem resetEnds_iff (h : Inv rows) (worker : String) (now : ℚ) : ResetEnds rows worker now ↔
    ∀ r ∈ rows, heldBy worker r = true → ¬ HasPendingTwin rows r := by
  have hrq : Requeues rows (heldBy worker) (requeue now) := {
    id := fun _ => rfl
    kind := fun _ => rfl
    dedupKey := fun _ => rfl
    pending := fun _ _ _ => rfl
    -- two running rows of one key do not exist
    apart := by
      intro a ha b hb hpa hpb hk _ he
      obtain ⟨k, hk⟩ := Option.ne_none_iff_exists'.mp hk
      exact h.exclusive.eq ha hb (runningKey_eq_some.mpr ⟨(heldBy_iff.mp hpa).1, hk⟩)
        (runningKey_eq_some.mpr ⟨(heldBy_iff.mp hpb).1, he ▸ hk⟩) }
  rw [← constraintsOk_requeue_iff h.ok hrq]
  constructor
  · rintro ⟨rows', n, hw, _⟩
    obtain ⟨rows1, h1, _⟩ := bind_ok hw
    exact (flush_ok h1).2
  · intro hok
    refine ⟨updateWhere (heldBy worker) (requeue now) rows, (rows.filter (heldBy worker)).length, ?_,
      fun r hr => ?_⟩
    · simp only [resetRunningToPending, flush_eq hok]
      rfl
    · rcases mem_updateWhere.mp hr with ⟨x, _, _, rfl⟩ | ⟨_, hno⟩
      · rfl
      · exact hno

/-! ## retry -/

theorem retryEnds_iff (hc : constraintsOk rows) {seen r : Job} {now : ℚ} (hs : seen.status = .failed)
    (hr : r ∈ rows) (hid : r.id = seen.id) : RetryEnds rows seen now ↔ ¬ HasPendingTwin rows r := by
  have hpend : ∀ x, (retryValues seen now x).status = .pending := fun x => by
    simp only [retryValues, assign, hs, reduceCtorEq, if_false]
  have hsel : decide (r.id = seen.id) = true := decide_eq_true hid
  have hrq : Requeues rows (fun x => x.id = seen.id) (retryValues seen now) :=
    requeues_of_id hc (fun x _ hx => of_decide_eq_true hx) (fun _ => ⟨rfl, rfl, rfl⟩)
      fun x _ _ => hpend x
  have hlegal : constraintsOk (updateWhere (fun x => x.id = seen.id) (retryValues seen now) rows) ↔
      ¬ HasPendingTwin rows r := by
    rw [constraintsOk_requeue_iff hc hrq]
    constructor
    · exact fun h => h r hr hsel
    · intro h x hx hxs
      rw [hc.eq_of_id hx hr ((of_decide_eq_true hxs).trans hid.symm)]
      exact h
  have hany : rows.any (fun x => x.id = seen.id) = true := List.any_eq_true.mpr ⟨r, hr, hsel⟩
  rw [← hlegal]
  constructor
  · rintro ⟨rows', hw, _⟩
    rw [retryWrite, if_pos hany] at hw
    exact (flush_ok hw).1 ▸ (flush_ok hw).2
  · intro hok
    exact ⟨updateWhere (fun x => x.id = seen.id) (retryValues seen now) rows,
      by rw [retryWrite, if_pos hany, flush_eq hok], retryValues seen now r,
      mem_updateWhere_of_sel hr hsel, hid, hpend r⟩

end

/-- An open `retry` has read a failed row. -/
theorem retry_seen {db : Db} {ok : Db → Op → Prop} (h : Reach queue ok db) :
    ∀ s ∈ db.sessions, ∀ seen now, s.call = .retry seen now → seen.status = .failed := by
  induction h with
  | start h0 =>
    intro s hs
    rw [show _ = (⟨[], []⟩ : Db) from h0] at hs
    cases hs
  | step _ _ hst ih =>
    intro s hs seen now he
    rcases step_sessions hst s hs with h1 | h1
    · exact ih s h1 seen now he
    · rw [he] at h1
      exact h1.2

/-- In every reachable state: `fail` by the lock holder of the row, `reset_running_to_pending` and
`retry` of a failed row end as promised exactly when no row that they move to `pending` has a
twin. -/
theorem transitions_commit_iff {db : Db} (h : Reach queue free db) :
    (∀ s ∈ db.sessions, ∀ seen a, s.call = .fail seen a → ∀ r ∈ db.rows, r.id = seen.id →
      r.lockedBy = some a.worker →
      (FailEnds db.rows seen a ↔
        (seen.maxAttempts ≤ seen.attempts + 1 ∨ ¬ HasPendingTwin db.rows r))) ∧
    (∀ worker now, ResetEnds db.rows worker now ↔
      ∀ r ∈ db.rows, heldBy worker r = true → ¬ HasPendingTwin db.rows r) ∧
    (∀ s ∈ db.sessions, ∀ seen now, s.call = .retry seen now → ∀ r ∈ db.rows, r.id = seen.id →
      r.status = .failed → (RetryEnds db.rows seen now ↔ ¬ HasPendingTwin db.rows r)) := by
  have hinv := inv_reach h
  refine ⟨?_, fun worker now => resetEnds_iff hinv worker now, ?_⟩
  · intro s _ seen a _ r hr hid hl
    exact failEnds_iff hinv.ok hr hid hl
  · intro s hs seen now he r hr hid _
    exact retryEnds_iff hinv.ok (retry_seen h s hs seen now he) hr hid

/-! ### a failing job whose key was enqueued again -/

def twinArgs : EnqueueArgs := ⟨3, 0, priorityBulk, 100⟩

def twinFail : FailArgs := ⟨"w1", "OSError", 110, 10, 3600⟩

/-- The state after `twinRun` and the read half of `fail`. -/
def twinDb : Db :=
  ⟨[lock "w1" 101 (newJob "j1" "reconcile_links" reconcileEntry twinArgs),
    newJob "j2" "reconcile_links" reconcileEntry { twinArgs with now := 102 }],
   [⟨.attempt 0, .fail (lock "w1" 101 (newJob "j1" "reconcile_links" reconcileEntry twinArgs))
      twinFail⟩]⟩

/-- The lock holder's `fail` is rejected, and so is the reset of its worker. -/
theorem transitions_commit_twin :
    queue.exec ⟨[], []⟩ (twinRun ++ [.beginFail (.attempt 0) "j1" twinFail]) = some twinDb ∧
    ∃ s ∈ twinDb.sessions, ∃ seen, s.call = .fail seen twinFail ∧ ∃ r ∈ twinDb.rows,
      r.id = seen.id ∧ r.status = .running ∧ r.lockedBy = some twinFail.worker ∧
      ¬ FailEnds twinDb.rows seen twinFail ∧ ¬ ResetEnds twinDb.rows "w1" 120 := by
  have hinv : Inv twinDb.rows := ⟨by decide +kernel, by unfold UniqueOn; decide +kernel⟩
  have hr : lock "w1" 101 (newJob "j1" "reconcile_links" reconcileEntry twinArgs) ∈ twinDb.rows :=
    List.mem_cons_self
  refine ⟨by decide +kernel, _, List.mem_singleton_self _, _, rfl, _, hr, rfl, rfl, rfl, ?_, ?_⟩
  · rw [failEnds_iff hinv.ok hr rfl rfl]
    decide +kernel
  · rw [resetEnds_iff hinv]
    exact fun h => absurd (h _ hr (by decide +kernel)) (by decide +kernel)

/-- Without the second enqueue the three transitions commit. -/
theorem transitions_commit_single : ∃ db,
    queue.exec ⟨[], []⟩ (twinRun.take 2 ++ [.beginFail (.attempt 0) "j1" twinFail]) = some db ∧
    (∀ s ∈ db.sessions, ∀ seen a, s.call = .fail seen a → ∀ r ∈ db.rows, r.id = seen.id →
      r.lockedBy = some a.worker → FailEnds db.rows seen a) ∧ ResetEnds db.rows "w1" 120 := by
  have hrun : queue.exec ⟨[], []⟩ (twinRun.take 2 ++ [.beginFail (.attempt 0) "j1" twinFail]) =
      some ⟨twinDb.rows.take 1, twinDb.sessions⟩ := by decide +kernel
  have hno : ∀ r ∈ twinDb.rows.take 1, ¬ HasPendingTwin (twinDb.rows.take 1) r := by decide +kernel
  obtain ⟨h1, h2, _⟩ := transitions_commit_iff (.of_exec (.start rfl) hrun)
  exact ⟨_, hrun, fun s hs seen a he r hr hid hl => (h1 s hs seen a he r hr hid hl).mpr (.inr (hno r hr)),
    (h2 "w1" 120).mpr fun r hr _ => hno r hr⟩

end Kajet.Queue
