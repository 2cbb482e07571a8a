import Kajet.Queue.Exclusion

/-!
# Attempts and the fence on `locked_by`

An attempt is one successful claim of a row.  `run_job` executes the handler and then issues one
terminal write under the worker id of the claim: `complete`, `fail` or `fail_terminal`, fenced by
`WHERE id = … AND locked_by = …`.  The fleet runs the attempts of all workers over the queue; two
attempts may share a worker id.

* `Fleet`, `fleetStep`, `fleet`   the table and every attempt with its phase; `fleetSim` maps it
        to the queue;
* `claimsAfresh`        no claim takes a row under the worker id of an earlier attempt on that row
                        that may still write;
* `FleetInv`            the lock of a row names the latest attempt on it, and that attempt has
                        reported when the row has ended;
* `superseded_fenced`   on the runs whose claims are all afresh, a superseded attempt changes
                        nothing, and no attempt changes a row that has ended.
-/

namespace Kajet.Queue
open Table Machine

inductive Phase where
  | executing
  | failing
  | reported
deriving DecidableEq

structure Attempt where
  row : String
  worker : String
  phase : Phase
deriving DecidableEq

/-- The queue, and the attempts in the order of their claims. -/
structure Fleet where
  db : Db
  attempts : List Attempt
deriving DecidableEq

inductive FleetOp where
  | claim (worker : String) (now staleAfter : ℚ) (tie : Nat)
  | complete (k : Nat) (now : ℚ)
  | failTerminal (k : Nat) (error : String) (now : ℚ)
  | beginFail (k : Nat) (error : String) (now baseBackoff maxBackoff : ℚ)
  | finishFail (k : Nat)
  /-- the attempt ends without its terminal write -/
  | lose (k : Nat)
  | abandonFail (k : Nat)
  | other (op : Op)

/-- The operations that no attempt issues. -/
def Op.plain : Op → Bool
  | .enqueue .. => true
  | .enqueueMany .. => true
  | .renewClaim .. => true
  | .resetRunningToPending .. => true
  | .sweepDone .. => true
  | .deleteForWorkspace .. => true
  | .beginRetry (.user _) .. => true
  | .beginDismiss (.user _) .. => true
  | .finish (.user _) => true
  | .abandon (.user _) => true
  | _ => false

/-- The `k`-th attempt, if it is in phase `ph`. -/
def Fleet.at (f : Fleet) (k : Nat) (ph : Phase) : Option Attempt :=
  f.attempts[k]?.filter fun A => A.phase = ph

def Fleet.record (f : Fleet) (k : Nat) (A : Attempt) (ph : Phase) (db : Db) : Fleet :=
  ⟨db, f.attempts.set k { A with phase := ph }⟩

def fleetStep (f : Fleet) : FleetOp → Option Fleet
  | .claim worker now staleAfter tie => (step f.db (.claim worker now staleAfter tie)).map fun db =>
      ⟨db, f.attempts ++ ((claim f.db.rows worker now staleAfter tie).2.map fun job =>
        ⟨job.id, worker, .executing⟩).toList⟩
  | .complete k now => (f.at k .executing).bind fun A =>
      (step f.db (.complete A.row A.worker now)).map (f.record k A .reported)
  | .failTerminal k error now => (f.at k .executing).bind fun A =>
      (step f.db (.failTerminal A.row A.worker error now)).map (f.record k A .reported)
  | .beginFail k error now base cap => (f.at k .executing).bind fun A =>
      (step f.db (.beginFail (.attempt k) A.row ⟨A.worker, error, now, base, cap⟩)).map
        -- `fail` returns `None` at once when the row is gone
        (f.record k A (if (get f.db.rows A.row).isSome then .failing else .reported))
  | .finishFail k => (f.at k .failing).bind fun A =>
      (step f.db (.finish (.attempt k))).map (f.record k A .reported)
  | .lose k => (f.at k .executing).map fun A => f.record k A .reported f.db
  | .abandonFail k => (f.at k .failing).bind fun A =>
      (step f.db (.abandon (.attempt k))).map (f.record k A .reported)
  | .other op => if op.plain then (step f.db op).map fun db => ⟨db, f.attempts⟩ else none

def fleet : Machine Fleet FleetOp where
  start f := f = ⟨⟨[], []⟩, []⟩
  next := fleetStep

/-- The claim takes no row that an attempt under the same worker id may still write to. -/
def claimsAfresh (f : Fleet) : FleetOp → Prop
  | .claim worker now staleAfter tie =>
    ∀ job ∈ (claim f.db.rows worker now staleAfter tie).2,
      ∀ A ∈ f.attempts, A.row = job.id → A.worker = worker → A.phase = .reported
  | _ => True

instance (f : Fleet) (op : FleetOp) : Decidable (claimsAfresh f op) := by
  cases op <;> unfold claimsAfresh <;> infer_instance

/-- The row of the `k`-th attempt has been claimed again. -/
def Fleet.Superseded (f : Fleet) (k : Nat) (A : Attempt) : Prop :=
  ∃ j B, k < j ∧ f.attempts[j]? = some B ∧ B.row = A.row

theorem Fleet.at_some {f : Fleet} {k : Nat} {ph : Phase} {A : Attempt} (h : f.at k ph = some A) :
    f.attempts[k]? = some A ∧ A.phase = ph := by
  obtain ⟨h1, h2⟩ := Option.filter_eq_some_iff.mp h
  exact ⟨h1, of_decide_eq_true h2⟩

/-- A step of the fleet is a step of the queue, or leaves it alone. -/
theorem fleetStep_db {f f' : Fleet} {op : FleetOp} (h : fleetStep f op = some f') :
    f'.db = f.db ∨ ∃ op', step f.db op' = some f'.db := by
  cases op with
  | claim worker now staleAfter tie =>
    exact .inr ⟨.claim worker now staleAfter tie, by rw [← Option.some.inj h]; rfl⟩
  | lose k =>
    obtain ⟨A, _, rfl⟩ := Option.map_eq_some_iff.mp h
    exact .inl rfl
  | other op =>
    simp only [fleetStep] at h
    split at h
    · obtain ⟨db, hdb, rfl⟩ := Option.map_eq_some_iff.mp h
      exact .inr ⟨_, hdb⟩
    · cases h
  | _ =>
    obtain ⟨A, _, h1⟩ := Option.bind_eq_some_iff.mp h
    obtain ⟨db, hdb, rfl⟩ := Option.map_eq_some_iff.mp h1
    exact .inr ⟨_, hdb⟩

/-- The fleet refines the queue. -/
def fleetSim : Sim fleet queue where
  abs := Fleet.db
  start f h := by rw [show f = ⟨⟨[], []⟩, []⟩ from h]; rfl
  step _ _ _ h := fleetStep_db h

/-! ## the lock names the latest attempt -/

def Ended (r : Job) : Prop := r.status = .done ∨ r.status = .failed

/-- Attempt `k` is the latest on the row, and is the worker's. -/
structure Holder (as : List Attempt) (jobId worker : String) (k : Nat) (A : Attempt) : Prop where
  get : as[k]? = some A
  row_eq : A.row = jobId
  worker_eq : A.worker = worker
  last : ∀ j B, k < j → as[j]? = some B → B.row ≠ jobId

/-- A locked row is held by the latest attempt on it; once the row has ended that attempt has
reported. -/
def Held (as : List Attempt) (r : Job) : Prop :=
  ∀ w, r.lockedBy = some w → ∃ k A, Holder as r.id w k A ∧ (Ended r → A.phase = .reported)

/-- Of two attempts of one worker on one row the earlier has reported. -/
def Alone (as : List Attempt) : Prop :=
  ∀ (i j : Nat) (A B : Attempt), i < j → as[i]? = some A → as[j]? = some B → A.row = B.row →
    A.worker = B.worker → A.phase = .reported

/-- An open call of an attempt is its `fail`; the others are calls of users. -/
def Backed (as : List Attempt) (s : Session) : Prop :=
  match s.caller with
  | .attempt k => ∃ A seen a, as[k]? = some A ∧ A.phase = .failing ∧ s.call = .fail seen a ∧
      seen.id = A.row ∧ a.worker = A.worker
  | .user _ => ∀ seen a, s.call ≠ .fail seen a

def attemptOf (s : Session) : Option Nat :=
  match s.caller with
  | .attempt k => some k
  | .user _ => none

structure FleetInv (f : Fleet) : Prop where
  table : Inv f.db.rows
  held : ∀ r ∈ f.db.rows, Held f.attempts r
  alone : Alone f.attempts
  calls : ∀ s ∈ f.db.sessions, Backed f.attempts s
  single : UniqueOn attemptOf f.db.sessions

section
variable {as : List Attempt} {A B : Attempt} {r r' : Job} {k m : Nat} {ph : Phase} {w : String}

theorem attemptOf_eq_some {s : Session} : attemptOf s = some k ↔ s.caller = .attempt k := by
  unfold attemptOf
  split <;> simp [*]

theorem Held.of_keeps (h : Held as r) (hk : Keeps r r') (he : Ended r' → Ended r) : Held as r' := by
  intro w hw
  obtain ⟨k, A, hA, hp⟩ := h w (hk.lockedBy w hw)
  exact ⟨k, A, hk.id ▸ hA, fun e => hp (he e)⟩

theorem Held.calm (h : Held as r) (hk : Calm r r') : Held as r' :=
  h.of_keeps hk.toKeeps fun e => by rw [Ended, hk.ended e]; exact e

theorem Held.unlocked (h : r.lockedBy = none) : Held as r := fun w hw => by rw [h] at hw; cases hw

/-- An entry of the list in which the phase of attempt `m` has been set. -/
theorem getElem?_setPhase (hB : as[m]? = some B) (j : Nat) (A : Attempt) :
    (as.set m { B with phase := ph })[j]? = some A ↔
      (j = m ∧ A = { B with phase := ph }) ∨ (j ≠ m ∧ as[j]? = some A) := by
  obtain ⟨hm, _⟩ := List.getElem?_eq_some_iff.mp hB
  rw [List.getElem?_set]
  by_cases h : m = j
  · subst h
    simp [hm, eq_comm]
  · have h' : j ≠ m := fun e => h e.symm
    simp [h, h']

theorem Held.setPhase (h : Held as r) (hB : as[m]? = some B) (hlive : B.phase ≠ .reported) :
    Held (as.set m { B with phase := ph }) r := by
  intro w hw
  obtain ⟨k, A, hA, hp⟩ := h w hw
  have hlast : ∀ j C, k < j → (as.set m { B with phase := ph })[j]? = some C → C.row ≠ r.id := by
    intro j C hj hC
    rcases (getElem?_setPhase hB j C).mp hC with ⟨rfl, rfl⟩ | ⟨_, hC⟩
    · exact hA.last j B hj hB
    · exact hA.last j C hj hC
  by_cases hk : k = m
  · subst hk
    obtain rfl : A = B := Option.some.inj (hA.get.symm.trans hB)
    exact ⟨k, _, ⟨(getElem?_setPhase hB k _).mpr (.inl ⟨rfl, rfl⟩), hA.row_eq, hA.worker_eq, hlast⟩,
      fun e => absurd (hp e) hlive⟩
  · exact ⟨k, A, ⟨(getElem?_setPhase hB k _).mpr (.inr ⟨hk, hA.get⟩), hA.row_eq, hA.worker_eq, hlast⟩, hp⟩

theorem Alone.setPhase (h : Alone as) (hB : as[m]? = some B) (hlive : B.phase ≠ .reported) :
    Alone (as.set m { B with phase := ph }) := by
  intro i j A C hij hA hC hrow hworker
  have hC' : ∃ C', as[j]? = some C' ∧ C'.row = C.row ∧ C'.worker = C.worker := by
    rcases (getElem?_setPhase hB j C).mp hC with ⟨rfl, rfl⟩ | ⟨_, hC⟩
    · exact ⟨B, hB, rfl, rfl⟩
    · exact ⟨C, hC, rfl, rfl⟩
  obtain ⟨C', hC', hr, hw⟩ := hC'
  rcases (getElem?_setPhase hB i A).mp hA with ⟨rfl, rfl⟩ | ⟨_, hA⟩
  · exact absurd (h i j B C' hij hB hC' (hrow.trans hr.symm) (hworker.trans hw.symm)) hlive
  · exact h i j A C' hij hA hC' (hrow.trans hr.symm) (hworker.trans hw.symm)

/-- Only the calls of attempt `m` notice that its phase has been set. -/
theorem Backed.setPhase {s : Session} (h : Backed as s) (hB : as[m]? = some B)
    (hs : s.caller ≠ .attempt m) : Backed (as.set m { B with phase := ph }) s := by
  unfold Backed at h ⊢
  split at h
  · rename_i k hk
    obtain ⟨A, seen, a, hA, hrest⟩ := h
    have hkm : k ≠ m := fun e => hs (by rw [hk, e])
    exact ⟨A, seen, a, (getElem?_setPhase hB k A).mpr (.inr ⟨hkm, hA⟩), hrest⟩
  · exact h

end

section
variable {f : Fleet} {k : Nat} {A : Attempt} {r : Job}

/-- An attempt that may still write and passes the fence of its row is the latest attempt on the
row, and the row has not ended. -/
theorem FleetInv.live_fence (h : FleetInv f) (hA : f.attempts[k]? = some A)
    (hlive : A.phase ≠ .reported) (hr : r ∈ f.db.rows) (hf : fence A.row A.worker r = true) :
    ¬ f.Superseded k A ∧ ¬ Ended r := by
  simp only [fence, decide_eq_true_eq] at hf
  obtain ⟨m, C, hC, hp⟩ := h.held r hr A.worker hf.2
  have hkm : k = m := by
    rcases Nat.lt_trichotomy k m with hlt | heq | hgt
    · exact absurd (h.alone k m A C hlt hA hC.get (hf.1.symm.trans hC.row_eq.symm)
        hC.worker_eq.symm) hlive
    · exact heq
    · exact absurd hf.1.symm (hC.last k A hgt hA)
  subst hkm
  obtain rfl : A = C := Option.some.inj (hA.symm.trans hC.get)
  refine ⟨?_, fun e => hlive (hp e)⟩
  rintro ⟨j, B, hj, hB, hrow⟩
  exact hC.last j B hj hB (hrow.trans hf.1.symm)

/-- The terminal write of an attempt, or its end without one: every row is as it was, or passed
the fence. -/
theorem FleetInv.write (h : FleetInv f) (hA : f.attempts[k]? = some A) (hlive : A.phase ≠ .reported)
    {db' : Db} (htable : Inv db'.rows)
    (hrows : ∀ r' ∈ db'.rows, r' ∈ f.db.rows ∨
      ∃ r ∈ f.db.rows, fence A.row A.worker r = true ∧ Keeps r r')
    (hcalls : ∀ s ∈ db'.sessions, s ∈ f.db.sessions ∧ s.caller ≠ .attempt k)
    (hsingle : UniqueOn attemptOf db'.sessions) : FleetInv (f.record k A .reported db') where
  table := htable
  alone := h.alone.setPhase hA hlive
  calls s hs := (h.calls s (hcalls s hs).1).setPhase hA (hcalls s hs).2
  single := hsingle
  held r' hr' := by
    rcases hrows r' hr' with hold | ⟨r, hr, hf, hk⟩
    · exact (h.held r' hold).setPhase hA hlive
    · -- the row names the writing attempt, which has reported now
      intro w hw
      have hl := hk.lockedBy w hw
      simp only [fence, decide_eq_true_eq] at hf
      have hset : Held (f.attempts.set k { A with phase := .reported }) r :=
        (h.held r hr).setPhase hA hlive
      obtain ⟨m, C, hC, _⟩ := hset w hl
      have hmk : m = k := by
        have hns := (h.live_fence hA hlive hr (by simpa [fence] using hf)).1
        rcases Nat.lt_trichotomy m k with hlt | heq | hgt
        · exact absurd hf.1.symm (hC.last k { A with phase := .reported } hlt
            ((getElem?_setPhase hA k _).mpr (.inl ⟨rfl, rfl⟩)))
        · exact heq
        · rcases (getElem?_setPhase hA m C).mp hC.get with ⟨e, _⟩ | ⟨_, hget⟩
          · exact e
          · exact absurd ⟨m, C, hgt, hget, hC.row_eq.trans hf.1⟩ hns
      subst hmk
      rcases (getElem?_setPhase hA m C).mp hC.get with ⟨_, rfl⟩ | ⟨hne, _⟩
      · exact ⟨m, _, ⟨hC.get, hC.row_eq.trans hk.id.symm, hC.worker_eq,
          fun j B hj hB => by rw [hk.id]; exact hC.last j B hj hB⟩, fun _ => rfl⟩
      · exact absurd rfl hne

/-- An executing attempt has no open call. -/
theorem FleetInv.no_call (h : FleetInv f) (hA : f.attempts[k]? = some A) (hx : A.phase ≠ .failing) :
    ∀ s ∈ f.db.sessions, s ∈ f.db.sessions ∧ s.caller ≠ .attempt k := by
  refine fun s hs => ⟨hs, fun e => ?_⟩
  have hb := h.calls s hs
  simp only [Backed, e] at hb
  obtain ⟨B, _, _, hB, hp, _⟩ := hb
  exact hx (Option.some.inj (hA.symm.trans hB) ▸ hp)

/-- Erasing the open call of an attempt leaves it none. -/
theorem FleetInv.erase_call (h : FleetInv f) {s : Session}
    (hs : f.db.sessions.find? (fun s => s.caller = .attempt k) = some s) :
    (∀ s' ∈ f.db.sessions.erase s, s' ∈ f.db.sessions ∧ s'.caller ≠ .attempt k) ∧
      UniqueOn attemptOf (f.db.sessions.erase s) := by
  have hc : s.caller = .attempt k := by simpa using List.find?_some hs
  have hmem := List.mem_of_find?_eq_some hs
  have hnd : UniqueOn attemptOf (s :: f.db.sessions.erase s) := by
    have hperm := (List.perm_cons_erase hmem).filterMap attemptOf
    exact (hperm.nodup_iff).mp h.single
  refine ⟨fun s' hs' => ⟨List.mem_of_mem_erase hs', fun e => ?_⟩, (uniqueOn_cons.mp hnd).2⟩
  exact (uniqueOn_cons.mp hnd).1 k (attemptOf_eq_some.mpr hc) s' hs' (attemptOf_eq_some.mpr e)

end

/-! ## the steps keep it -/

theorem Calm.refl (r : Job) : Calm r r := ⟨⟨rfl, rfl, rfl, fun _ h => h, fun h => h⟩, fun _ => rfl⟩

theorem Calm.trans {a b c : Job} (h : Calm a b) (h' : Calm b c) : Calm a c where
  id := h'.id.trans h.id
  kind := h'.kind.trans h.kind
  dedupKey := h'.dedupKey.trans h.dedupKey
  lockedBy w hw := h.lockedBy w (h'.lockedBy w hw)
  running hc := h.running (h'.running hc)
  ended e := by
    have hbc := h'.ended e
    rw [← hbc] at e ⊢
    exact h.ended e

/-- Where the rows of a calm change come from. -/
theorem Change.origin {rows rows' : List Job} (h : Change Calm rows rows') {r' : Job}
    (hr : r' ∈ rows') : r'.lockedBy = none ∨ ∃ r ∈ rows, Calm r r' := by
  induction h generalizing r' with
  | refl => exact .inr ⟨r', hr, .refl r'⟩
  | insert js hj _ =>
    rcases List.mem_append.mp hr with hr | hr
    · exact .inr ⟨r', hr, .refl r'⟩
    · exact .inl (hj r' hr).2
  | update p f hf _ =>
    rcases mem_updateWhere.mp hr with ⟨r, hmem, hp, rfl⟩ | ⟨hmem, _⟩
    · exact .inr ⟨r, hmem, hf r hmem hp⟩
    · exact .inr ⟨r', hmem, .refl r'⟩
  | delete => exact .inr ⟨r', (mem_deleteWhere.mp hr).1, .refl r'⟩
  | trans _ _ ih ih' =>
    rcases ih' hr with hn | ⟨b, hb, hbr⟩
    · exact .inl hn
    rcases ih hb with hn | ⟨a, ha, hab⟩
    · refine .inl (Option.eq_none_iff_forall_ne_some.mpr fun w hw => ?_)
      have hbw := hbr.lockedBy w hw
      rw [hn] at hbw
      cases hbw
    · exact .inr ⟨a, ha, hab.trans hbr⟩

section
variable {f : Fleet} {db' : Db}

/-- A user's call appears at the end of the open calls. -/
theorem begin_user {n : Nat} {jobId : String} {g : Job → Bool} (call : Job → Call)
    (hcall : ∀ seen seen' a, call seen ≠ .fail seen' a) (h : FleetInv f) :
    (∀ s ∈ (f.db.begin (.user n) jobId g call).sessions, Backed f.attempts s) ∧
      UniqueOn attemptOf (f.db.begin (.user n) jobId g call).sessions := by
  unfold Db.begin
  split
  · rename_i seen _
    split
    · constructor
      · intro s hs
        rcases List.mem_append.mp hs with hs | hs
        · exact h.calls s hs
        · rw [List.mem_singleton.mp hs]
          exact hcall seen
      · rw [UniqueOn, List.filterMap_append, show [(⟨.user n, call seen⟩ : Session)].filterMap attemptOf = []
          from rfl, List.append_nil]
        exact h.single
    · exact ⟨h.calls, h.single⟩
  · exact ⟨h.calls, h.single⟩

/-- What is not issued by an attempt is a calm change and leaves the attempts' calls alone. -/
theorem FleetInv.plain_step (h : FleetInv f) {op : Op} (hp : op.plain = true)
    (hs : step f.db op = some db') : Change Calm f.db.rows db'.rows ∧
      (∀ s ∈ db'.sessions, Backed f.attempts s) ∧ UniqueOn attemptOf db'.sessions := by
  have hc := h.table.ok
  cases op with
  | enqueue jobId kind e a =>
    rw [← Option.some.inj hs, commit_sessions]
    exact ⟨commit_change fun _ _ hx => enqueueInSession_change hc hx, h.calls, h.single⟩
  | enqueueMany kind entries a =>
    rw [← Option.some.inj hs, commit_sessions]
    exact ⟨commit_change fun _ _ hx => enqueueManyInSession_change hx, h.calls, h.single⟩
  | renewClaim worker now =>
    rw [← Option.some.inj hs]
    exact ⟨renewClaim_change hc worker now, h.calls, h.single⟩
  | resetRunningToPending worker now =>
    rw [← Option.some.inj hs, commit_sessions]
    exact ⟨commit_change fun _ _ hx => resetRunningToPending_change hx, h.calls, h.single⟩
  | sweepDone olderThan now =>
    rw [← Option.some.inj hs]
    exact ⟨.delete _, h.calls, h.single⟩
  | deleteForWorkspace userId workspace =>
    rw [← Option.some.inj hs]
    exact ⟨.delete _, h.calls, h.single⟩
  | beginRetry c jobId userId now =>
    cases c with
    | attempt k => cases hp
    | user n =>
      rw [← Option.some.inj hs, begin_rows]
      exact ⟨.refl _, begin_user (.retry · now) (fun _ _ _ e => by cases e) h⟩
  | beginDismiss c jobId userId =>
    cases c with
    | attempt k => cases hp
    | user n =>
      rw [← Option.some.inj hs, begin_rows]
      exact ⟨.refl _, begin_user .dismiss (fun _ _ _ e => by cases e) h⟩
  | finish c =>
    cases c with
    | attempt k => cases hp
    | user n =>
      obtain ⟨s, hfind, rfl⟩ := Option.map_eq_some_iff.mp hs
      have hb := h.calls s (List.mem_of_find?_eq_some hfind)
      have hcaller : s.caller = .user n := by simpa using List.find?_some hfind
      simp only [Backed, hcaller] at hb
      exact ⟨commit_change fun _ _ hx => (write_change hx).2 hb,
        fun s' hs' => h.calls s' (List.mem_of_mem_erase hs'),
        h.single.sublist (List.erase_sublist.filterMap attemptOf)⟩
  | abandon c =>
    cases c with
    | attempt k => cases hp
    | user n =>
      obtain ⟨s, _, rfl⟩ := Option.map_eq_some_iff.mp hs
      exact ⟨.refl _, fun s' hs' => h.calls s' (List.mem_of_mem_erase hs'),
        h.single.sublist (List.erase_sublist.filterMap attemptOf)⟩
  | claim => cases hp
  | complete => cases hp
  | failTerminal => cases hp
  | beginFail => cases hp

theorem FleetInv.other (h : FleetInv f) {op : Op} (hp : op.plain = true)
    (hs : step f.db op = some db') : FleetInv ⟨db', f.attempts⟩ := by
  obtain ⟨hch, hcalls, hsingle⟩ := h.plain_step hp hs
  refine ⟨step_inv h.table hs, fun r' hr' => ?_, h.alone, hcalls, hsingle⟩
  rcases hch.origin hr' with hn | ⟨r, hr, hk⟩
  · exact Held.unlocked hn
  · exact (h.held r hr).calm hk

/-- The rows that a fenced update leaves. -/
theorem fenced_origin {rows : List Job} {jobId worker : String} {g : Job → Job}
    (hg : ∀ r, fence jobId worker r = true → Keeps r (g r)) :
    ∀ r' ∈ updateWhere (fence jobId worker) g rows, r' ∈ rows ∨
      ∃ r ∈ rows, fence jobId worker r = true ∧ Keeps r r' := by
  intro r' hr'
  rcases mem_updateWhere.mp hr' with ⟨r, hr, hp, rfl⟩ | ⟨hr, _⟩
  · exact .inr ⟨r, hr, hp, hg r hp⟩
  · exact .inl hr

theorem FleetInv.beginFail (h : FleetInv f) {k : Nat} {A : Attempt} {a : FailArgs}
    (hA : f.attempts[k]? = some A) (hx : A.phase = .executing) (ha : a.worker = A.worker) :
    FleetInv (f.record k A (if (get f.db.rows A.row).isSome then .failing else .reported)
      (f.db.begin (.attempt k) A.row (fun _ => true) (.fail · a))) := by
  have hlive : A.phase ≠ .reported := by rw [hx]; simp
  have hno := h.no_call hA (by rw [hx]; simp)
  cases hget : get f.db.rows A.row with
  | none =>
    have hbegin : f.db.begin (.attempt k) A.row (fun _ => true) (.fail · a) = f.db := by
      simp only [Db.begin, hget]
    rw [hbegin]
    exact h.write hA hlive h.table (fun r hr => .inl hr) hno h.single
  | some seen =>
    have hbegin : f.db.begin (.attempt k) A.row (fun _ => true) (.fail · a) =
        { f.db with sessions := f.db.sessions ++ [⟨.attempt k, .fail seen a⟩] } := by
      simp only [Db.begin, hget, if_true]
    rw [hbegin]
    refine ⟨h.table, fun r hr => (h.held r hr).setPhase hA hlive, h.alone.setPhase hA hlive, ?_, ?_⟩
    · intro s hs
      rcases List.mem_append.mp hs with hs | hs
      · exact (h.calls s hs).setPhase hA (hno s hs).2
      · rw [List.mem_singleton.mp hs]
        exact ⟨_, seen, a, (getElem?_setPhase hA k _).mpr (.inl ⟨rfl, rfl⟩), rfl, rfl,
          (get_mem hget).2, ha⟩
    · have hperm := List.perm_append_singleton (⟨.attempt k, .fail seen a⟩ : Session) f.db.sessions
      refine ((hperm.filterMap attemptOf).nodup_iff).mpr (uniqueOn_cons.mpr ⟨?_, h.single⟩)
      intro m hm s hs hsm
      obtain rfl : k = m := Option.some.inj hm
      exact (hno s hs).2 (attemptOf_eq_some.mp hsm)

theorem FleetInv.finishFail (h : FleetInv f) {k : Nat} {A : Attempt}
    (hA : f.attempts[k]? = some A) (hx : A.phase = .failing)
    (hs : step f.db (.finish (.attempt k)) = some db') : FleetInv (f.record k A .reported db') := by
  have hlive : A.phase ≠ .reported := by rw [hx]; simp
  have htable := step_inv h.table hs
  obtain ⟨s, hfind, rfl⟩ := Option.map_eq_some_iff.mp hs
  obtain ⟨hcalls, hsingle⟩ := h.erase_call hfind
  refine h.write hA hlive htable ?_ hcalls hsingle
  have hb := h.calls s (List.mem_of_find?_eq_some hfind)
  have hcaller : s.caller = .attempt k := by simpa using List.find?_some hfind
  simp only [Backed, hcaller] at hb
  obtain ⟨B, seen, a, hB, _, hcall, hid, hworker⟩ := hb
  obtain rfl : A = B := Option.some.inj (hA.symm.trans hB)
  intro r' hr'
  simp only [hcall, Call.write] at hr'
  cases hw : failWrite f.db.rows seen a with
  | error e => rw [hw] at hr'; exact .inl hr'
  | ok x =>
    have hrows : x.1 = updateWhere (fence seen.id a.worker) (failValues seen a) f.db.rows := by
      obtain ⟨rows1, h1, h2⟩ := bind_ok hw
      rw [← (flush_ok h1).1]
      split at h2 <;> cases h2 <;> rfl
    rw [hw] at hr'
    have hmem : r' ∈ x.1 := hr'
    rw [hrows] at hmem
    rw [← hid, ← hworker]
    exact fenced_origin (fun r hr => keeps_failValues hr) r' hmem

theorem FleetInv.claim (h : FleetInv f) {worker : String} {now staleAfter : ℚ} {tie : Nat}
    (hok : claimsAfresh f (.claim worker now staleAfter tie)) :
    FleetInv ⟨{ f.db with rows := (claim f.db.rows worker now staleAfter tie).1 },
      f.attempts ++ ((claim f.db.rows worker now staleAfter tie).2.map fun job =>
        (⟨job.id, worker, .executing⟩ : Attempt)).toList⟩ := by
  have htable := claim_inv h.table worker now staleAfter tie
  rcases claim_cases f.db.rows worker now staleAfter tie with e | ⟨j, hj, e⟩
  · rw [e] at htable ⊢
    rw [Option.map_none, Option.toList_none, List.append_nil]
    exact h
  have hfresh := hok (lock worker now j) (by rw [e]; rfl)
  rw [e] at htable ⊢
  set new : Attempt := ⟨(lock worker now j).id, worker, .executing⟩ with hnew
  have hsplit : ∀ (i : Nat) (A : Attempt), (f.attempts ++ [new])[i]? = some A →
      f.attempts[i]? = some A ∨ (i = f.attempts.length ∧ A = new) := by
    intro i A hi
    rcases Nat.lt_or_ge i f.attempts.length with hlt | hge
    · exact .inl (by rwa [List.getElem?_append_left hlt] at hi)
    · rw [List.getElem?_append_right hge] at hi
      have hz : i - f.attempts.length = 0 := by
        by_contra hne
        rw [List.getElem?_eq_none (by simp; omega)] at hi
        cases hi
      rw [hz] at hi
      exact .inr ⟨by omega, (Option.some.inj hi).symm⟩
  have hold : ∀ (i : Nat) (A : Attempt), f.attempts[i]? = some A →
      (f.attempts ++ [new])[i]? = some A := by
    intro i A hi
    rw [List.getElem?_append_left (List.getElem?_eq_some_iff.mp hi).1]
    exact hi
  show FleetInv ⟨_, f.attempts ++ [new]⟩
  refine ⟨htable, ?_, ?_, ?_, h.single⟩
  · intro r' hr' w hw
    rcases mem_updateWhere.mp hr' with ⟨r, hr, hid, rfl⟩ | ⟨hr, hid⟩
    · -- the claimed row: its holder is the new attempt
      refine ⟨f.attempts.length, new, ⟨by simp, (of_decide_eq_true hid).symm, Option.some.inj hw,
        fun i B hi hB => ?_⟩, fun he => ?_⟩
      · have := (List.getElem?_eq_some_iff.mp hB).1
        simp only [List.length_append, List.length_singleton] at this
        omega
      · rcases he with he | he <;> cases he
    · obtain ⟨k, A, hA, hp⟩ := h.held r' hr w hw
      refine ⟨k, A, ⟨hold k A hA.get, hA.row_eq, hA.worker_eq, fun i B hi hB => ?_⟩, hp⟩
      rcases hsplit i B hB with hB | ⟨_, rfl⟩
      · exact hA.last i B hi hB
      · exact fun he => (of_decide_eq_false hid) he.symm
  · intro i k A B hik hA hB hrow hworker
    rcases hsplit k B hB with hB | ⟨hk, rfl⟩
    · rcases hsplit i A hA with hA | ⟨hi, _⟩
      · exact h.alone i k A B hik hA hB hrow hworker
      · have := (List.getElem?_eq_some_iff.mp hB).1
        omega
    · rcases hsplit i A hA with hA | ⟨hi, _⟩
      · exact hfresh A (List.mem_of_getElem? hA) hrow hworker
      · omega
  · intro s hs
    have hb := h.calls s hs
    unfold Backed at hb ⊢
    split at hb
    · obtain ⟨A, seen, a, hA, hrest⟩ := hb
      exact ⟨A, seen, a, hold _ A hA, hrest⟩
    · exact hb

end

theorem fleetStep_inv {f f' : Fleet} {op : FleetOp} (h : FleetInv f) (hok : claimsAfresh f op)
    (hs : fleetStep f op = some f') : FleetInv f' := by
  cases op with
  | claim worker now staleAfter tie =>
    rw [← Option.some.inj hs]
    exact h.claim hok
  | complete k now =>
    obtain ⟨A, hA, hs⟩ := Option.bind_eq_some_iff.mp hs
    obtain ⟨hA, hx⟩ := Fleet.at_some hA
    rw [← Option.some.inj hs]
    have hstep : step f.db (.complete A.row A.worker now) =
        some { f.db with rows := (complete f.db.rows A.row A.worker now).1 } := rfl
    exact h.write hA (by rw [hx]; simp) (step_inv h.table hstep)
      (fenced_origin fun r _ => ⟨rfl, rfl, rfl, fun _ hw => hw, fun e => by cases e⟩)
      (h.no_call hA (by rw [hx]; simp)) h.single
  | failTerminal k error now =>
    obtain ⟨A, hA, hs⟩ := Option.bind_eq_some_iff.mp hs
    obtain ⟨hA, hx⟩ := Fleet.at_some hA
    rw [← Option.some.inj hs]
    have hstep : step f.db (.failTerminal A.row A.worker error now) =
        some { f.db with rows := (failTerminal f.db.rows A.row A.worker error now).1 } := rfl
    exact h.write hA (by rw [hx]; simp) (step_inv h.table hstep)
      (fenced_origin fun r _ => ⟨rfl, rfl, rfl, fun _ hw => hw, fun e => by cases e⟩)
      (h.no_call hA (by rw [hx]; simp)) h.single
  | beginFail k error now base cap =>
    obtain ⟨A, hA, hs⟩ := Option.bind_eq_some_iff.mp hs
    obtain ⟨hA, hx⟩ := Fleet.at_some hA
    rw [← Option.some.inj hs]
    exact h.beginFail hA hx rfl
  | finishFail k =>
    obtain ⟨A, hA, hs⟩ := Option.bind_eq_some_iff.mp hs
    obtain ⟨hA, hx⟩ := Fleet.at_some hA
    obtain ⟨db, hdb, rfl⟩ := Option.map_eq_some_iff.mp hs
    exact h.finishFail hA hx hdb
  | lose k =>
    obtain ⟨A, hA, rfl⟩ := Option.map_eq_some_iff.mp hs
    obtain ⟨hA, hx⟩ := Fleet.at_some hA
    exact h.write hA (by rw [hx]; simp) h.table (fun r hr => .inl hr)
      (h.no_call hA (by rw [hx]; simp)) h.single
  | abandonFail k =>
    obtain ⟨A, hA, hs⟩ := Option.bind_eq_some_iff.mp hs
    obtain ⟨hA, hx⟩ := Fleet.at_some hA
    obtain ⟨db, hdb, rfl⟩ := Option.map_eq_some_iff.mp hs
    obtain ⟨s, hfind, rfl⟩ := Option.map_eq_some_iff.mp hdb
    obtain ⟨hcalls, hsingle⟩ := h.erase_call hfind
    exact h.write hA (by rw [hx]; simp) h.table (fun r hr => .inl hr) hcalls hsingle
  | other op =>
    simp only [fleetStep] at hs
    split at hs
    · rename_i hp
      obtain ⟨db, hdb, rfl⟩ := Option.map_eq_some_iff.mp hs
      exact h.other hp hdb
    · cases hs

theorem fleetInv_reach {f : Fleet} (h : Reach fleet claimsAfresh f) : FleetInv f := by
  induction h with
  | start h0 =>
    rw [show _ = (⟨⟨[], []⟩, []⟩ : Fleet) from h0]
    exact ⟨⟨⟨.nil, .nil⟩, .nil⟩, fun r hr => absurd hr List.not_mem_nil,
      fun i j A B _ hA => by simp at hA, fun s hs => absurd hs List.not_mem_nil, .nil⟩
  | step _ hok hst ih => exact fleetStep_inv ih hok hst

/-! ## superseded attempts -/

section
variable {f : Fleet} {k : Nat} {A : Attempt}

/-- The write of the attempt finds its row fenced off. -/
theorem FleetInv.call_fenced (h : FleetInv f) (hA : f.attempts[k]? = some A)
    (hno : ∀ r ∈ f.db.rows, fence A.row A.worker r = false) {s : Session} (hs : s ∈ f.db.sessions)
    (hc : s.caller = .attempt k) : s.call.write f.db.rows = .ok (f.db.rows, some .superseded) := by
  have hb := h.calls s hs
  simp only [Backed, hc] at hb
  obtain ⟨B, seen, a, hB, _, hcall, hid, hworker⟩ := hb
  obtain rfl : A = B := Option.some.inj (hA.symm.trans hB)
  have hany : f.db.rows.any (fence A.row A.worker) = false := List.any_eq_false.mpr fun r hr => by
    simp [hno r hr]
  simp only [hcall, Call.write, failWrite, hid, hworker, updateWhere_of_none hno,
    flush_eq h.table.ok, hany]
  rfl

theorem complete_fenced {rows : List Job} {jobId worker : String} (now : ℚ)
    (hno : ∀ r ∈ rows, fence jobId worker r = false) :
    complete rows jobId worker now = (rows, false) := by
  rw [complete, updateWhere_of_none hno, List.any_eq_false.mpr fun r hr => by simp [hno r hr]]

theorem failTerminal_fenced {rows : List Job} {jobId worker : String} (error : String) (now : ℚ)
    (hno : ∀ r ∈ rows, fence jobId worker r = false) :
    failTerminal rows jobId worker error now = (rows, false) := by
  rw [failTerminal, updateWhere_of_none hno, List.any_eq_false.mpr fun r hr => by simp [hno r hr]]

/-- A call of the attempt changes the rows that pass its fence and no others. -/
theorem FleetInv.call_frame (h : FleetInv f) (hA : f.attempts[k]? = some A) {r : Job}
    (hr : r ∈ f.db.rows) (hno : fence A.row A.worker r = false) {s : Session}
    (hs : s ∈ f.db.sessions) (hc : s.caller = .attempt k) {rows' : List Job}
    {res : Option FailResult} (hw : s.call.write f.db.rows = .ok (rows', res)) : r ∈ rows' := by
  have hb := h.calls s hs
  simp only [Backed, hc] at hb
  obtain ⟨B, seen, a, hB, _, hcall, hid, hworker⟩ := hb
  obtain rfl : A = B := Option.some.inj (hA.symm.trans hB)
  simp only [hcall, Call.write] at hw
  cases hf : failWrite f.db.rows seen a with
  | error e => rw [hf] at hw; cases hw
  | ok x =>
    rw [hf] at hw
    cases hw
    obtain ⟨rows1, h1, h2⟩ := bind_ok hf
    have hrows : x.1 = updateWhere (fence seen.id a.worker) (failValues seen a) f.db.rows := by
      rw [← (flush_ok h1).1]
      split at h2 <;> cases h2 <;> rfl
    rw [hrows, hid, hworker]
    exact mem_updateWhere_of_not hr hno

end

/-- On the runs whose claims are all afresh: the terminal write of a superseded attempt changes no
row and reports it, and no terminal write changes a row that is `done` or `failed`. -/
theorem superseded_fenced {f : Fleet} (h : Reach fleet claimsAfresh f) :
    ∀ k A, f.attempts[k]? = some A → A.phase ≠ .reported →
      (f.Superseded k A →
        (∀ now, complete f.db.rows A.row A.worker now = (f.db.rows, false)) ∧
        (∀ error now, failTerminal f.db.rows A.row A.worker error now = (f.db.rows, false)) ∧
        (∀ s ∈ f.db.sessions, s.caller = .attempt k →
          s.call.write f.db.rows = .ok (f.db.rows, some .superseded))) ∧
      (∀ r ∈ f.db.rows, Ended r →
        (∀ now, r ∈ (complete f.db.rows A.row A.worker now).1) ∧
        (∀ error now, r ∈ (failTerminal f.db.rows A.row A.worker error now).1) ∧
        (∀ s ∈ f.db.sessions, s.caller = .attempt k → ∀ rows' res,
          s.call.write f.db.rows = .ok (rows', res) → r ∈ rows')) := by
  have hinv := fleetInv_reach h
  intro k A hA hlive
  constructor
  · intro hsup
    have hno : ∀ r ∈ f.db.rows, fence A.row A.worker r = false := fun r hr => by
      rw [← Bool.not_eq_true]
      exact fun hf => (hinv.live_fence hA hlive hr hf).1 hsup
    exact ⟨fun now => complete_fenced now hno, fun error now => failTerminal_fenced error now hno,
      fun s hs hc => hinv.call_fenced hA hno hs hc⟩
  · intro r hr hend
    have hno : fence A.row A.worker r = false := by
      rw [← Bool.not_eq_true]
      exact fun hf => (hinv.live_fence hA hlive hr hf).2 hend
    exact ⟨fun now => mem_updateWhere_of_not hr hno, fun error now => mem_updateWhere_of_not hr hno,
      fun s hs hc rows' res hw => hinv.call_frame hA hr hno hs hc hw⟩

/-! ### one worker id, two attempts -/

/-- `w1` claims its own row again 400 s later; its second attempt completes. -/
def reclaimRun (second : String) : List FleetOp :=
  [.other (.enqueue "j1" "reconcile_links" reconcileEntry ⟨3, 0, priorityBulk, 100⟩),
   .claim "w1" 101 300 0,
   .claim second 501 300 0,
   .complete 1 510]

/-- The first attempt's `fail` still passes the fence, and moves the row from `done` to
`pending`. -/
theorem superseded_reclaim : ∃ f A r,
    fleet.exec ⟨⟨[], []⟩, []⟩ (reclaimRun "w1" ++ [.beginFail 0 "OSError" 520 2 300]) = some f ∧
    f.attempts[0]? = some A ∧ A.phase = .failing ∧ f.Superseded 0 A ∧ f.db.rows = [r] ∧
    r.status = .done ∧ (fleetStep f (.finishFail 0)).map (fun f => f.db.rows.map (·.status)) =
      some [.pending] := by
  have hview : (fleet.exec ⟨⟨[], []⟩, []⟩ (reclaimRun "w1" ++ [.beginFail 0 "OSError" 520 2 300])).map
      (fun f => (f.attempts, f.db.rows.map (·.status),
        (fleetStep f (.finishFail 0)).map fun f => f.db.rows.map (·.status))) =
      some ([⟨"j1", "w1", .failing⟩, ⟨"j1", "w1", .reported⟩], [.done], some [.pending]) := by
    decide +kernel
  obtain ⟨f, hf, hv⟩ := Option.map_eq_some_iff.mp hview
  simp only [Prod.mk.injEq] at hv
  obtain ⟨hatt, hrows, hfin⟩ := hv
  obtain ⟨r, hr, hst⟩ := List.map_eq_singleton_iff.mp hrows
  exact ⟨f, ⟨"j1", "w1", .failing⟩, r, hf, by rw [hatt]; rfl, rfl,
    ⟨1, ⟨"j1", "w1", .reported⟩, by decide, by rw [hatt]; rfl, rfl⟩, hr, hst, hfin⟩

/-- Reclaimed by another worker, the first attempt is fenced off. -/
theorem superseded_fenced_other : ∃ f,
    fleet.exec ⟨⟨[], []⟩, []⟩ ((reclaimRun "w2").take 3) = some f ∧
    ∀ now, complete f.db.rows "j1" "w1" now = (f.db.rows, false) := by
  have hview : (fleet.exec ⟨⟨[], []⟩, []⟩ ((reclaimRun "w2").take 3)).map (·.attempts) =
      some [⟨"j1", "w1", .executing⟩, ⟨"j1", "w2", .executing⟩] := by decide +kernel
  obtain ⟨f, hf, hatt⟩ := Option.map_eq_some_iff.mp hview
  have hreach : Reach fleet claimsAfresh f := .of_guarded (.start rfl) (by decide +kernel) hf
  have h := superseded_fenced hreach 0 ⟨"j1", "w1", .executing⟩ (by rw [hatt]; rfl) (by simp)
  exact ⟨f, hf, (h.1 ⟨1, ⟨"j1", "w2", .executing⟩, by decide, by rw [hatt]; rfl, rfl⟩).1⟩

end Kajet.Queue
