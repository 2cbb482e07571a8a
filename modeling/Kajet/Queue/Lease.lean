import Kajet.Queue.Cover

/-!
# Leases

A claim starts a lease on its row, `renew_claim` of the worker renews it, and a row whose lease is older than
`stale_after` may be claimed again.  A beat is the time that the latest of these has written for an attempt.

* `Leases`, `leases`     the fleet, and a beat for each attempt;
* `inTime`               at a claim no attempt at work is without a beat for `stale_after`; a worker requeues its
                         rows when none of its attempts is at work; no user call takes a row from an attempt at work;
* `LeaseInv`             the row of an attempt at work is running, locked by its worker at its beat;
* `LeaseInv.afresh`      so that no claim takes it: the runs are those of `superseded_fenced`;
* `lease_exclusive`      no two attempts are at work on one row or one key, and none has been superseded.
-/

namespace Kajet.Queue
open Table Machine

structure Leases where
  fleet : Fleet
  beats : List ℚ
deriving DecidableEq

def beat (s : Leases) : FleetOp → List ℚ
  | .claim worker now staleAfter tie =>
    s.beats ++ ((claim s.fleet.db.rows worker now staleAfter tie).2.map fun _ => now).toList
  | .other (.renewClaim worker now) =>
    List.zipWith (fun A b => if A.worker = worker then now else b) s.fleet.attempts s.beats
  | _ => s.beats

def leases : Machine Leases FleetOp where
  start s := s = ⟨⟨⟨[], []⟩, []⟩, []⟩
  next s op := (fleetStep s.fleet op).map fun f => ⟨f, beat s op⟩

/-- The row that a call has read. -/
def Call.seen : Call → Job
  | .fail seen _ => seen
  | .retry seen _ => seen
  | .dismiss seen => seen

/-- Heartbeats are in time, workers stop when their attempts have, and users leave the rows at work alone. -/
def inTime (s : Leases) : FleetOp → Prop
  | .claim _ now staleAfter _ =>
    ∀ x ∈ s.fleet.attempts.zip s.beats, x.1.phase ≠ .reported → now - staleAfter ≤ x.2
  | .other (.resetRunningToPending worker _) =>
    ∀ A ∈ s.fleet.attempts, A.phase ≠ .reported → A.worker ≠ worker
  | .other (.deleteForWorkspace userId workspace) =>
    ∀ A ∈ s.fleet.attempts, A.phase ≠ .reported → ∀ r ∈ s.fleet.db.rows, r.id = A.row →
      ¬ (r.userId = some userId ∧ r.payload.workspace = some workspace)
  | .other (.finish c) =>
    ∀ A ∈ s.fleet.attempts, A.phase ≠ .reported → ∀ x ∈ s.fleet.db.sessions, x.caller = c → x.call.seen.id ≠ A.row
  | _ => True

instance (s : Leases) : (op : FleetOp) → Decidable (inTime s op)
  | .claim _ now staleAfter _ => inferInstanceAs (Decidable
      (∀ x ∈ s.fleet.attempts.zip s.beats, x.1.phase ≠ .reported → now - staleAfter ≤ x.2))
  | .other (.resetRunningToPending worker _) => inferInstanceAs (Decidable
      (∀ A ∈ s.fleet.attempts, A.phase ≠ .reported → A.worker ≠ worker))
  | .other (.deleteForWorkspace userId workspace) => inferInstanceAs (Decidable
      (∀ A ∈ s.fleet.attempts, A.phase ≠ .reported → ∀ r ∈ s.fleet.db.rows, r.id = A.row →
        ¬ (r.userId = some userId ∧ r.payload.workspace = some workspace)))
  | .other (.finish c) => inferInstanceAs (Decidable
      (∀ A ∈ s.fleet.attempts, A.phase ≠ .reported → ∀ x ∈ s.fleet.db.sessions, x.caller = c → x.call.seen.id ≠ A.row))
  | .other (.enqueue ..) | .other (.enqueueMany ..) | .other (.claim ..) | .other (.renewClaim ..) => isTrue trivial
  | .other (.complete ..) | .other (.failTerminal ..) | .other (.sweepDone ..) | .other (.beginFail ..) => isTrue trivial
  | .other (.beginRetry ..) | .other (.beginDismiss ..) | .other (.abandon ..) | .complete .. => isTrue trivial
  | .failTerminal .. | .beginFail .. | .finishFail _ | .lose _ | .abandonFail _ => isTrue trivial

/-- The row is running, locked by the worker of the attempt at its beat. -/
def Leased (rows : List Job) (A : Attempt) (b : ℚ) : Prop :=
  ∃ r ∈ rows, r.id = A.row ∧ heldBy A.worker r = true ∧ r.lockedAt = some b

structure LeaseInv (s : Leases) : Prop where
  fleet : FleetInv s.fleet
  length : s.beats.length = s.fleet.attempts.length
  leased : ∀ (k : Nat) (A : Attempt) (b : ℚ), s.fleet.attempts[k]? = some A → A.phase ≠ .reported →
    s.beats[k]? = some b → Leased s.fleet.db.rows A b
  apart : ∀ (i j : Nat) (A B : Attempt), s.fleet.attempts[i]? = some A → s.fleet.attempts[j]? = some B →
    A.phase ≠ .reported → B.phase ≠ .reported → A.row = B.row → i = j

section
variable {s : Leases} {rows rows' : List Job} {A : Attempt} {b : ℚ} {k : Nat} {db' : Db} {ph : Phase}

theorem Leased.grows (h : Leased rows A b) (hg : Grows rows rows') : Leased rows' A b := by
  obtain ⟨r, hr, hid, hheld, hat⟩ := h
  obtain ⟨hrun, hlock⟩ := heldBy_iff.mp hheld
  obtain ⟨r', hr', hs⟩ := hg.keeps r hr
  exact ⟨r', hr', hs.id.trans hid, heldBy_iff.mpr ⟨hs.status.trans hrun, hs.lockedBy.trans hlock⟩, hs.lockedAt.trans hat⟩

/-- Rows that an update or a deletion does not select. -/
theorem Leased.keep (h : Leased rows A b)
    (hkeep : ∀ r ∈ rows, r.id = A.row → heldBy A.worker r = true → r ∈ rows') : Leased rows' A b := by
  obtain ⟨r, hr, hid, hheld, hat⟩ := h
  exact ⟨r, hkeep r hr hid hheld, hid, hheld, hat⟩

theorem LeaseInv.beat_of (h : LeaseInv s) (hA : s.fleet.attempts[k]? = some A) : ∃ b, s.beats[k]? = some b := by
  obtain ⟨hk, _⟩ := List.getElem?_eq_some_iff.mp hA
  exact ⟨_, List.getElem?_eq_getElem (h.length ▸ hk)⟩

/-- The lease of an attempt at work is not stale at a claim in time. -/
theorem LeaseInv.fresh (h : LeaseInv s) {worker : String} {now staleAfter : ℚ} {tie : Nat}
    (hok : inTime s (.claim worker now staleAfter tie)) (hA : s.fleet.attempts[k]? = some A) (hlive : A.phase ≠ .reported)
    {j : Job} (hj : j ∈ claimable s.fleet.db.rows now (now - staleAfter)) : A.row ≠ j.id := by
  intro he
  obtain ⟨b, hb⟩ := h.beat_of hA
  obtain ⟨r, hr, hid, hheld, hat⟩ := h.leased k A b hA hlive hb
  obtain ⟨hjr, hel, _⟩ := claimable_mem hj
  have hjeq : r = j := h.fleet.table.ok.eq_of_id hr hjr (hid.trans he)
  subst hjeq
  have hbeat : now - staleAfter ≤ b := by
    refine hok (A, b) (List.mem_of_getElem? (i := k) ?_) hlive
    rw [List.getElem?_zip_eq_some]
    exact ⟨hA, hb⟩
  simp only [eligible, decide_eq_true_eq] at hel
  rcases hel.1 with ⟨hpend, _⟩ | ⟨_, at', hat', hstale⟩
  · cases hpend.symm.trans (heldBy_iff.mp hheld).1
  · rw [hat] at hat'
    rw [← Option.some.inj hat'] at hstale
    exact absurd hbeat (not_le.mpr hstale)

/-- In time, no claim takes a row on which an attempt is at work. -/
theorem LeaseInv.afresh (h : LeaseInv s) {op : FleetOp} (hok : inTime s op) : claimsAfresh s.fleet op := by
  cases op with
  | claim worker now staleAfter tie =>
    intro job hjob A hA hrow _
    rcases claim_cases s.fleet.db.rows worker now staleAfter tie with e | ⟨j, hj, e⟩
    · rw [e] at hjob
      cases hjob
    · rw [e] at hjob
      by_contra hlive
      obtain ⟨k, hk⟩ := List.mem_iff_getElem?.mp hA
      refine h.fresh hok hk hlive hj (hrow.trans ?_)
      rw [← Option.some.inj hjob]
      rfl
  | _ => trivial

/-- The phase of an attempt at work is set; the rows of the others stay. -/
theorem LeaseInv.record (h : LeaseInv s) (hA : s.fleet.attempts[k]? = some A) (hlive : A.phase ≠ .reported)
    (hf : FleetInv (s.fleet.record k A ph db')) (hother : ∀ r ∈ s.fleet.db.rows, r.id ≠ A.row → r ∈ db'.rows)
    (hself : ph ≠ .reported → db'.rows = s.fleet.db.rows) : LeaseInv ⟨s.fleet.record k A ph db', s.beats⟩ where
  fleet := hf
  length := by rw [h.length, Fleet.record, List.length_set]
  leased j B b hB hBlive hb := by
    rcases (getElem?_setPhase hA j B).mp hB with ⟨rfl, rfl⟩ | ⟨hj, hB⟩
    · have hl := h.leased j A b hA hlive hb
      show Leased db'.rows _ b
      rw [hself hBlive]
      exact hl
    · refine (h.leased j B b hB hBlive hb).keep fun r hr hid _ => hother r hr fun e => ?_
      exact hj (h.apart j k B A hB hA hBlive hlive (hid.symm.trans e))
  apart i j B C hB hC hBlive hClive hrow := by
    rcases (getElem?_setPhase hA i B).mp hB with ⟨hi, rfl⟩ | ⟨_, hB⟩ <;>
      rcases (getElem?_setPhase hA j C).mp hC with ⟨hj, rfl⟩ | ⟨_, hC⟩
    · exact hi.trans hj.symm
    · exact hi.trans (h.apart k j A C hA hC hlive hClive hrow)
    · exact (h.apart i k B A hB hA hBlive hlive hrow).trans hj.symm
    · exact h.apart i j B C hB hC hBlive hClive hrow

/-- What leaves the attempts and their rows alone. -/
theorem LeaseInv.quiet (h : LeaseInv s) (hf : FleetInv ⟨db', s.fleet.attempts⟩)
    (hkeep : ∀ A ∈ s.fleet.attempts, A.phase ≠ .reported → ∀ b, Leased s.fleet.db.rows A b → Leased db'.rows A b) :
    LeaseInv ⟨⟨db', s.fleet.attempts⟩, s.beats⟩ where
  fleet := hf
  length := h.length
  leased k A b hA hlive hb := hkeep A (List.mem_of_getElem? hA) hlive b (h.leased k A b hA hlive hb)
  apart := h.apart

/-- A heartbeat renews the leases of its worker. -/
theorem LeaseInv.renew (h : LeaseInv s) {worker : String} {now : ℚ} {db' : Db}
    (hf : FleetInv ⟨db', s.fleet.attempts⟩) (hrows : db'.rows = (renewClaim s.fleet.db.rows worker now).1) :
    LeaseInv ⟨⟨db', s.fleet.attempts⟩, beat s (.other (.renewClaim worker now))⟩ where
  fleet := hf
  length := by
    show (List.zipWith _ _ _).length = _
    rw [List.length_zipWith, h.length, Nat.min_self]
  leased k A b hA hlive hb := by
    obtain ⟨A', b', hA', hb', hbe⟩ := List.getElem?_zipWith_eq_some.mp hb
    obtain rfl : A = A' := Option.some.inj (hA.symm.trans hA')
    obtain ⟨r, hr, hid, hheld, hat⟩ := h.leased k A b' hA hlive hb'
    show Leased db'.rows A b
    rw [hrows, ← hbe]
    by_cases hw : A.worker = worker
    · rw [if_pos hw]
      exact ⟨_, mem_updateWhere_of_sel hr (hw ▸ hheld), hid, hheld, rfl⟩
    · rw [if_neg hw]
      refine ⟨r, mem_updateWhere_of_not hr (Bool.not_eq_true _ ▸ fun hsel => hw ?_), hid, hheld, hat⟩
      exact Option.some.inj ((heldBy_iff.mp hheld).2.symm.trans (heldBy_iff.mp hsel).2)
  apart := h.apart

/-- A claim takes a row on which nobody is at work. -/
theorem LeaseInv.claim (h : LeaseInv s) {worker : String} {now staleAfter : ℚ} {tie : Nat}
    (hok : inTime s (.claim worker now staleAfter tie)) {f' : Fleet}
    (hs : fleetStep s.fleet (.claim worker now staleAfter tie) = some f') :
    LeaseInv ⟨f', beat s (.claim worker now staleAfter tie)⟩ := by
  have hf := fleetStep_inv h.fleet (h.afresh hok) hs
  rw [← Option.some.inj hs] at hf ⊢
  rcases claim_cases s.fleet.db.rows worker now staleAfter tie with e | ⟨j, hj, e⟩
  · simp only [beat, e, Option.map_none, Option.toList_none, List.append_nil] at hf ⊢
    exact h.quiet hf fun A _ _ b hl => hl
  simp only [beat, e, Option.map_some, Option.toList_some] at hf ⊢
  obtain ⟨hjr, _, _⟩ := claimable_mem hj
  have hsplit : ∀ (i : Nat) (A : Attempt), (s.fleet.attempts ++ [(⟨j.id, worker, .executing⟩ : Attempt)])[i]? = some A →
      s.fleet.attempts[i]? = some A ∨ (i = s.fleet.attempts.length ∧ A = ⟨j.id, worker, .executing⟩) := fun i A hA => by
    rcases claimed_getElem? (some ⟨j.id, worker, .executing⟩) hA with hold | ⟨hi, hnew⟩
    · exact .inl hold
    · exact .inr ⟨hi, (Option.some.inj hnew).symm⟩
  refine ⟨hf, by simp [h.length], fun k A b hA hlive hb => ?_, fun i k A B hA hB hAlive hBlive hrow => ?_⟩
  · rcases hsplit k A hA with hold | ⟨rfl, rfl⟩
    · obtain ⟨b', hb'⟩ := h.beat_of hold
      rw [List.getElem?_append_left (List.getElem?_eq_some_iff.mp hb').1, hb'] at hb
      rw [← Option.some.inj hb]
      refine (h.leased k A b' hold hlive hb').keep fun r hr hid _ => mem_updateWhere_of_not hr (decide_eq_false ?_)
      exact fun he => h.fresh hok hold hlive hj (hid.symm.trans he)
    · rw [List.getElem?_append_right h.length.le, h.length, Nat.sub_self] at hb
      rw [← Option.some.inj hb]
      exact ⟨_, mem_updateWhere_of_sel hjr (decide_eq_true rfl), rfl, heldBy_iff.mpr ⟨rfl, rfl⟩, rfl⟩
  · rcases hsplit i A hA with hA | ⟨hi, rfl⟩ <;> rcases hsplit k B hB with hB | ⟨hk, rfl⟩
    · exact h.apart i k A B hA hB hAlive hBlive hrow
    · exact absurd hrow (h.fresh hok hA hAlive hj)
    · exact absurd hrow.symm (h.fresh hok hB hBlive hj)
    · exact hi.trans hk.symm

/-- A terminal write touches the row of its attempt only. -/
theorem fenced_keeps {jobId worker : String} {g : Job → Job} {r : Job} (hr : r ∈ rows) (hid : r.id ≠ jobId) :
    r ∈ updateWhere (fence jobId worker) g rows :=
  mem_updateWhere_of_not hr (Bool.not_eq_true _ ▸ fun hf => hid (fence_iff.mp hf).1)

/-- What no attempt issues leaves the rows at work alone. -/
theorem LeaseInv.plain (h : LeaseInv s) {op : Op} (hp : op.plain = true) (hok : inTime s (.other op))
    (hs : step s.fleet.db op = some db') : LeaseInv ⟨⟨db', s.fleet.attempts⟩, beat s (.other op)⟩ := by
  have hf : FleetInv ⟨db', s.fleet.attempts⟩ := h.fleet.other hp hs
  cases op with
  | enqueue jobId kind e a =>
    rw [← Option.some.inj hs] at hf ⊢
    exact h.quiet hf fun A _ _ b hl => hl.grows (commit_grows fun _ _ hx => enqueueInSession_grows hx)
  | enqueueMany kind entries a =>
    rw [← Option.some.inj hs] at hf ⊢
    exact h.quiet hf fun A _ _ b hl => hl.grows (commit_grows fun _ _ hx => enqueueManyInSession_grows hx)
  | renewClaim worker now =>
    rw [← Option.some.inj hs] at hf ⊢
    exact h.renew hf rfl
  | resetRunningToPending worker now =>
    rw [← Option.some.inj hs] at hf ⊢
    refine h.quiet hf fun A hA hlive b hl => ?_
    cases hreset : resetRunningToPending s.fleet.db.rows worker now with
    | error e => exact hl
    | ok x =>
      obtain ⟨rows1, h1, h2⟩ := bind_ok hreset
      obtain ⟨rfl, _⟩ := flush_ok h1
      cases h2
      refine hl.keep fun r hr _ hheld => mem_updateWhere_of_not hr (Bool.not_eq_true _ ▸ fun hsel => ?_)
      exact hok A hA hlive (Option.some.inj ((heldBy_iff.mp hheld).2.symm.trans (heldBy_iff.mp hsel).2))
  | sweepDone olderThan now =>
    rw [← Option.some.inj hs] at hf ⊢
    refine h.quiet hf fun A _ _ b hl => hl.keep fun r hr _ hheld => mem_deleteWhere.mpr ⟨hr, decide_eq_false ?_⟩
    exact fun hsel => nomatch hsel.1.symm.trans (heldBy_iff.mp hheld).1
  | deleteForWorkspace userId workspace =>
    rw [← Option.some.inj hs] at hf ⊢
    exact h.quiet hf fun A hA hlive b hl =>
      hl.keep fun r hr hid _ => mem_deleteWhere.mpr ⟨hr, decide_eq_false (hok A hA hlive r hr hid)⟩
  | beginRetry c jobId userId now =>
    rw [← Option.some.inj hs] at hf ⊢
    exact h.quiet hf fun A _ _ b hl => by rw [begin_rows]; exact hl
  | beginDismiss c jobId userId =>
    rw [← Option.some.inj hs] at hf ⊢
    exact h.quiet hf fun A _ _ b hl => by rw [begin_rows]; exact hl
  | finish c =>
    cases c with
    | attempt k => cases hp
    | user n =>
      obtain ⟨x, hfind, rfl⟩ := Option.map_eq_some_iff.mp hs
      have hmem := List.mem_of_find?_eq_some hfind
      have hcaller : x.caller = .user n := by simpa using List.find?_some hfind
      have hb := h.fleet.calls x hmem
      simp only [Backed, hcaller] at hb
      refine h.quiet hf fun A hA hlive b hl => hl.keep fun r hr hid _ => ?_
      have hne : r.id ≠ x.call.seen.id := fun e => hok A hA hlive x hmem hcaller (e.symm.trans hid)
      cases hc : x.call with
      | fail seen a => exact absurd hc (hb seen a)
      | retry seen now =>
        rw [hc] at hne
        cases hw : retryWrite s.fleet.db.rows seen now with
        | error e => simp only [Call.write, hw]; exact hr
        | ok rows1 =>
          simp only [Call.write, hw]
          unfold retryWrite at hw
          split at hw
          · obtain ⟨rfl, _⟩ := flush_ok hw
            exact mem_updateWhere_of_not hr (decide_eq_false hne)
          · cases hw
      | dismiss seen =>
        rw [hc] at hne
        exact mem_deleteWhere.mpr ⟨hr, decide_eq_false hne⟩
  | abandon c =>
    obtain ⟨x, _, rfl⟩ := Option.map_eq_some_iff.mp hs
    exact h.quiet hf fun A _ _ b hl => hl
  | claim => cases hp
  | complete => cases hp
  | failTerminal => cases hp
  | beginFail => cases hp

/-- The write of the `fail` of an attempt. -/
theorem finishFail_rows (h : FleetInv s.fleet) (hA : s.fleet.attempts[k]? = some A)
    (hs : step s.fleet.db (.finish (.attempt k)) = some db') :
    ∀ r ∈ s.fleet.db.rows, r.id ≠ A.row → r ∈ db'.rows := by
  obtain ⟨x, hfind, rfl⟩ := Option.map_eq_some_iff.mp hs
  have hcaller : x.caller = .attempt k := by simpa using List.find?_some hfind
  have hb := h.calls x (List.mem_of_find?_eq_some hfind)
  simp only [Backed, hcaller] at hb
  obtain ⟨B, seen, a, hB, _, hcall, hid, _⟩ := hb
  obtain rfl : A = B := Option.some.inj (hA.symm.trans hB)
  intro r hr hne
  simp only [hcall, Call.write]
  cases hw : failWrite s.fleet.db.rows seen a with
  | error e => exact hr
  | ok x =>
    obtain ⟨rows1, h1, h2⟩ := bind_ok hw
    have hrows : x.1 = updateWhere (fence seen.id a.worker) (failValues seen a) s.fleet.db.rows := by
      rw [← (flush_ok h1).1]
      split at h2 <;> cases h2 <;> rfl
    show r ∈ x.1
    rw [hrows]
    exact fenced_keeps hr (hid ▸ hne)

/-- Every step in time keeps the leases of the attempts at work. -/
theorem leases_step (h : LeaseInv s) {op : FleetOp} {s' : Leases} (hok : inTime s op)
    (hs : leases.next s op = some s') : LeaseInv s' := by
  obtain ⟨f', hf', rfl⟩ := Option.map_eq_some_iff.mp hs
  have hf := fleetStep_inv h.fleet (h.afresh hok) hf'
  cases op with
  | claim worker now staleAfter tie => exact h.claim hok hf'
  | complete k now =>
    obtain ⟨A, hA, h1⟩ := Option.bind_eq_some_iff.mp hf'
    obtain ⟨hA, hx⟩ := Fleet.at_some hA
    rw [← Option.some.inj h1] at hf ⊢
    exact h.record hA (by rw [hx]; simp) hf (fun r hr hne => fenced_keeps hr hne) fun hr => absurd rfl hr
  | failTerminal k error now =>
    obtain ⟨A, hA, h1⟩ := Option.bind_eq_some_iff.mp hf'
    obtain ⟨hA, hx⟩ := Fleet.at_some hA
    rw [← Option.some.inj h1] at hf ⊢
    exact h.record hA (by rw [hx]; simp) hf (fun r hr hne => fenced_keeps hr hne) fun hr => absurd rfl hr
  | beginFail k error now base cap =>
    obtain ⟨A, hA, h1⟩ := Option.bind_eq_some_iff.mp hf'
    obtain ⟨hA, hx⟩ := Fleet.at_some hA
    rw [← Option.some.inj h1] at hf ⊢
    exact h.record hA (by rw [hx]; simp) hf (fun r hr _ => by rw [begin_rows]; exact hr) fun _ => begin_rows ..
  | finishFail k =>
    obtain ⟨A, hA, h1⟩ := Option.bind_eq_some_iff.mp hf'
    obtain ⟨hA, hx⟩ := Fleet.at_some hA
    obtain ⟨db, hdb, rfl⟩ := Option.map_eq_some_iff.mp h1
    exact h.record hA (by rw [hx]; simp) hf (finishFail_rows h.fleet hA hdb) fun hr => absurd rfl hr
  | lose k =>
    obtain ⟨A, hA, rfl⟩ := Option.map_eq_some_iff.mp hf'
    obtain ⟨hA, hx⟩ := Fleet.at_some hA
    exact h.record hA (by rw [hx]; simp) hf (fun r hr _ => hr) fun _ => rfl
  | abandonFail k =>
    obtain ⟨A, hA, h1⟩ := Option.bind_eq_some_iff.mp hf'
    obtain ⟨hA, hx⟩ := Fleet.at_some hA
    obtain ⟨db, hdb, rfl⟩ := Option.map_eq_some_iff.mp h1
    obtain ⟨x, _, rfl⟩ := Option.map_eq_some_iff.mp hdb
    exact h.record hA (by rw [hx]; simp) hf (fun r hr _ => hr) fun _ => rfl
  | other op =>
    simp only [fleetStep] at hf'
    split at hf'
    · rename_i hp
      obtain ⟨db, hdb, rfl⟩ := Option.map_eq_some_iff.mp hf'
      exact h.plain hp hok hdb
    · cases hf'

theorem leases_inv (h : Reach leases inTime s) : LeaseInv s := by
  refine h.inv (fun s hs => ?_) fun s op t _ hi hok hst => leases_step hi hok hst
  rw [show s = ⟨⟨⟨[], []⟩, []⟩, []⟩ from hs]
  exact ⟨fleetInv_reach (.start rfl), rfl, fun k A b hA => by simp at hA, fun i j A B hA => by simp at hA⟩

/-- A run in time is a run whose claims are all afresh. -/
theorem leases_afresh (h : Reach leases inTime s) : Reach fleet claimsAfresh s.fleet := by
  induction h with
  | start h0 => exact .start (by rw [show _ = (⟨⟨⟨[], []⟩, []⟩, []⟩ : Leases) from h0]; rfl)
  | step h hok hst ih =>
    obtain ⟨f', hf', rfl⟩ := Option.map_eq_some_iff.mp hst
    exact .step ih ((leases_inv h).afresh hok) hf'

end

/-- **One handler to a key.**  On the runs in time, two attempts at work are on different rows, and on rows of
different keys; an attempt at work has not been superseded, and its terminal write will find its row. -/
theorem lease_exclusive {s : Leases} (h : Reach leases inTime s) :
    (∀ (i j : Nat) (A B : Attempt), i ≠ j → s.fleet.attempts[i]? = some A → s.fleet.attempts[j]? = some B →
      A.phase ≠ .reported → B.phase ≠ .reported → ∀ r ∈ s.fleet.db.rows, ∀ r' ∈ s.fleet.db.rows,
        r.id = A.row → r'.id = B.row → r.id ≠ r'.id ∧ (r.dedupKey = r'.dedupKey → r.dedupKey = none)) ∧
    (∀ (k : Nat) (A : Attempt), s.fleet.attempts[k]? = some A → A.phase ≠ .reported → ¬ s.fleet.Superseded k A ∧
      (∃ r ∈ s.fleet.db.rows, r.id = A.row ∧ r.status = .running) ∧
      ∀ now, (complete s.fleet.db.rows A.row A.worker now).2 = true) := by
  have hi := leases_inv h
  have hrunning : ∀ (k : Nat) (A : Attempt), s.fleet.attempts[k]? = some A → A.phase ≠ .reported →
      ∃ r ∈ s.fleet.db.rows, r.id = A.row ∧ r.status = .running ∧ r.lockedBy = some A.worker := by
    intro k A hA hlive
    obtain ⟨b, hb⟩ := hi.beat_of hA
    obtain ⟨r, hr, hid, hheld, _⟩ := hi.leased k A b hA hlive hb
    exact ⟨r, hr, hid, (heldBy_iff.mp hheld).1, (heldBy_iff.mp hheld).2⟩
  constructor
  · intro i j A B hij hA hB hAlive hBlive r hr r' hr' hid hid'
    have hne : r.id ≠ r'.id := fun e => hij (hi.apart i j A B hA hB hAlive hBlive (hid.symm.trans (e.trans hid')))
    refine ⟨hne, fun hkey => ?_⟩
    -- both rows are running, and a key has one running row
    have hrun : ∀ (k : Nat) (C : Attempt) (q : Job), s.fleet.attempts[k]? = some C → C.phase ≠ .reported →
        q ∈ s.fleet.db.rows → q.id = C.row → q.status = .running := by
      intro k C q hC hClive hq hqid
      obtain ⟨q', hq', hid', hrun', _⟩ := hrunning k C hC hClive
      rw [hi.fleet.table.ok.eq_of_id hq hq' (hqid.trans hid'.symm)]
      exact hrun'
    by_contra hsome
    obtain ⟨key, hk⟩ := Option.ne_none_iff_exists'.mp hsome
    have hsame : r = r' := hi.fleet.table.exclusive.eq hr hr'
      (runningKey_eq_some.mpr ⟨hrun i A r hA hAlive hr hid, hk⟩)
      (runningKey_eq_some.mpr ⟨hrun j B r' hB hBlive hr' hid', hkey ▸ hk⟩)
    exact hne (congrArg Job.id hsame)
  · intro k A hA hlive
    obtain ⟨r, hr, hid, hrun, hlock⟩ := hrunning k A hA hlive
    have hfence : fence A.row A.worker r = true := fence_iff.mpr ⟨hid, hlock⟩
    exact ⟨(hi.fleet.live_fence hA hlive hr hfence).1, ⟨r, hr, hid, hrun⟩,
      fun now => List.any_eq_true.mpr ⟨r, hr, hfence⟩⟩

/-- The lease of the first worker is renewed in time, and the second worker finds nothing to claim: the one row is
at work, and the other has its key. -/
def renewedRun : List FleetOp :=
  [.other (.enqueue "j1" "reconcile_links" reconcileEntry ⟨3, 0, priorityBulk, 100⟩),
   .claim "w1" 101 300 0,
   .other (.enqueue "j2" "reconcile_links" reconcileEntry ⟨3, 0, priorityBulk, 110⟩),
   .other (.renewClaim "w1" 350),
   .claim "w2" 500 300 0,
   .beginFail 0 "OSError" 510 2 300]

theorem lease_exclusive_renewed : ∃ s, leases.exec ⟨⟨⟨[], []⟩, []⟩, []⟩ renewedRun = some s ∧
    s.fleet.attempts = [⟨"j1", "w1", .failing⟩] ∧ ∀ now, (complete s.fleet.db.rows "j1" "w1" now).2 = true := by
  have hview : (leases.exec ⟨⟨⟨[], []⟩, []⟩, []⟩ renewedRun).map (·.fleet.attempts) = some [⟨"j1", "w1", .failing⟩] := by
    decide +kernel
  obtain ⟨s, hs, hatt⟩ := Option.map_eq_some_iff.mp hview
  have hreach : Reach leases inTime s := .of_guarded (.start rfl) (by decide +kernel) hs
  exact ⟨s, hs, hatt, ((lease_exclusive hreach).2 0 ⟨"j1", "w1", .failing⟩ (by rw [hatt]; rfl) (by simp)).2.2⟩

end Kajet.Queue
