import Kajet.Lib.Machine
import Kajet.Queue.Job

/-!
# The queue as a machine

`Db` is the committed table together with the method calls that have read their row and have not
written yet.  SQLite serialises the writes; a plain `SELECT` takes no lock, so any number of other
transactions may commit between the two halves of `fail`, `retry` and `dismiss`.

* `Op`, `step`, `queue`   the operations of all workers and users, and the machine;
* `Keeps`, `Calm`         what an `UPDATE` other than a claim may do to a row;
* `Change`                what a transaction may do to the table: one lemma per method
                          (`enqueueInSession_change`, …), and `step_cases` for the machine.
-/

namespace Kajet.Queue
open Table

/-- Who runs a call: the `k`-th claimed attempt, or a user request. -/
inductive Caller where
  | attempt (k : Nat)
  | user (n : Nat)
deriving DecidableEq

/-- A call between its read and its write. -/
inductive Call where
  | fail (seen : Job) (a : FailArgs)
  | retry (seen : Job) (now : ℚ)
  | dismiss (seen : Job)
deriving DecidableEq

structure Session where
  caller : Caller
  call : Call
deriving DecidableEq

structure Db where
  rows : List Job
  sessions : List Session
deriving DecidableEq

inductive Op where
  | enqueue (jobId kind : String) (e : JobEntry) (a : EnqueueArgs)
  | enqueueMany (kind : String) (entries : List (JobEntry × String)) (a : EnqueueArgs)
  | claim (worker : String) (now staleAfter : ℚ) (tie : Nat)
  | renewClaim (worker : String) (now : ℚ)
  | complete (jobId worker : String) (now : ℚ)
  | failTerminal (jobId worker error : String) (now : ℚ)
  | resetRunningToPending (worker : String) (now : ℚ)
  | sweepDone (olderThan now : ℚ)
  | deleteForWorkspace (userId workspace : String)
  | beginFail (c : Caller) (jobId : String) (a : FailArgs)
  | beginRetry (c : Caller) (jobId userId : String) (now : ℚ)
  | beginDismiss (c : Caller) (jobId userId : String)
  | finish (c : Caller)
  | abandon (c : Caller)

/-- The transaction commits, or is rolled back. -/
def Db.commit {β : Type} (db : Db) : Except DbError (List Job × β) → Db
  | .ok x => { db with rows := x.1 }
  | .error _ => db

/-- The write half of a call. -/
def Call.write (rows : List Job) : Call → Except DbError (List Job × Option FailResult)
  | .fail seen a => (failWrite rows seen a).map fun x => (x.1, some x.2)
  | .retry seen now => (retryWrite rows seen now).map fun rows => (rows, none)
  | .dismiss seen => .ok (dismissWrite rows seen, none)

/-- The read half: the call goes on if the row is there and the guard lets it. -/
def Db.begin (db : Db) (c : Caller) (jobId : String) (guard : Job → Bool) (call : Job → Call) : Db :=
  match get db.rows jobId with
  | some seen => if guard seen then { db with sessions := db.sessions ++ [⟨c, call seen⟩] } else db
  | none => db

def Db.finish (db : Db) (c : Caller) : Option Db :=
  (db.sessions.find? fun s => s.caller = c).map fun s =>
    { db.commit (s.call.write db.rows) with sessions := db.sessions.erase s }

/-- The process dies, or the database refuses the write: the open transaction is gone. -/
def Db.abandon (db : Db) (c : Caller) : Option Db :=
  (db.sessions.find? fun s => s.caller = c).map fun s =>
    { db with sessions := db.sessions.erase s }

def step (db : Db) : Op → Option Db
  | .enqueue jobId kind e a => some (db.commit (enqueueInSession db.rows jobId kind e a))
  | .enqueueMany kind entries a => some (db.commit (enqueueManyInSession db.rows kind entries a))
  | .claim worker now staleAfter tie => some { db with rows := (claim db.rows worker now staleAfter tie).1 }
  | .renewClaim worker now => some { db with rows := (renewClaim db.rows worker now).1 }
  | .complete jobId worker now => some { db with rows := (complete db.rows jobId worker now).1 }
  | .failTerminal jobId worker error now =>
    some { db with rows := (failTerminal db.rows jobId worker error now).1 }
  | .resetRunningToPending worker now => some (db.commit (resetRunningToPending db.rows worker now))
  | .sweepDone olderThan now => some { db with rows := sweepDone db.rows olderThan now }
  | .deleteForWorkspace userId workspace =>
    some { db with rows := deleteForWorkspace db.rows userId workspace }
  | .beginFail c jobId a => some (db.begin c jobId (fun _ => true) (.fail · a))
  | .beginRetry c jobId userId now => some (db.begin c jobId (mayRetry · userId) (.retry · now))
  | .beginDismiss c jobId userId => some (db.begin c jobId (mayDismiss · userId) .dismiss)
  | .finish c => db.finish c
  | .abandon c => db.abandon c

/-- The queue: an empty table, no open call. -/
def queue : Machine Db Op where
  start db := db = ⟨[], []⟩
  next := step

/-! ## what a transaction may do to the table -/

/-- An `UPDATE` of the queue other than a claim: the row keeps its identity, it is not started,
and a lock is never handed over. -/
structure Keeps (r r' : Job) : Prop where
  id : r'.id = r.id
  kind : r'.kind = r.kind
  dedupKey : r'.dedupKey = r.dedupKey
  lockedBy : ∀ w, r'.lockedBy = some w → r.lockedBy = some w
  running : r'.status = .running → r.status = .running

/-- A kept row that has not ended by this update. -/
structure Calm (r r' : Job) : Prop extends Keeps r r' where
  ended : r'.status = .done ∨ r'.status = .failed → r.status = r'.status

/-- A transaction of the queue other than a claim, over rows updated along `K`. -/
inductive Change (K : Job → Job → Prop) : List Job → List Job → Prop
  | refl (rows : List Job) : Change K rows rows
  | insert {rows : List Job} (js : List Job)
      (hj : ∀ j ∈ js, j.status = .pending ∧ j.lockedBy = none) (hc : constraintsOk (rows ++ js)) :
      Change K rows (rows ++ js)
  | update {rows : List Job} (p : Job → Bool) (f : Job → Job)
      (hf : ∀ r ∈ rows, p r = true → K r (f r)) (hc : constraintsOk (updateWhere p f rows)) :
      Change K rows (updateWhere p f rows)
  | delete {rows : List Job} (p : Job → Bool) : Change K rows (deleteWhere p rows)
  | trans {a b c : List Job} (h : Change K a b) (h' : Change K b c) : Change K a c

theorem Change.mono {K K' : Job → Job → Prop} (hK : ∀ r r', K r r' → K' r r') {a b : List Job}
    (h : Change K a b) : Change K' a b := by
  induction h with
  | refl rows => exact .refl rows
  | insert js hj hc => exact .insert js hj hc
  | update p f hf hc => exact .update p f (fun r hr hp => hK _ _ (hf r hr hp)) hc
  | delete p => exact .delete p
  | trans _ _ ih ih' => exact .trans ih ih'

theorem Change.keeps {a b : List Job} (h : Change Calm a b) : Change Keeps a b :=
  h.mono fun _ _ h => h.toKeeps

theorem flush_ok {rows rows' : List Job} (h : flush rows = .ok rows') :
    rows' = rows ∧ constraintsOk rows := by
  unfold flush at h
  split at h
  · exact ⟨(Except.ok.inj h).symm, ‹_›⟩
  · cases h

theorem flush_eq {rows : List Job} (h : constraintsOk rows) : flush rows = .ok rows := if_pos h

/-- An update that moves no row into an index passes the check. -/
theorem constraintsOk.update {rows : List Job} {p : Job → Bool} {f : Job → Job}
    (h : constraintsOk rows) (hid : ∀ r, (f r).id = r.id)
    (hk : ∀ r ∈ rows, p r = true → ∀ k, pendingKey (f r) = some k → pendingKey r = some k) :
    constraintsOk (updateWhere p f rows) :=
  ⟨h.1.updateWhere fun r _ _ k hk => by rw [primaryKey, hid] at hk; exact hk,
    h.2.updateWhere hk⟩

theorem constraintsOk.delete {rows : List Job} {p : Job → Bool} (h : constraintsOk rows) :
    constraintsOk (deleteWhere p rows) := ⟨h.1.deleteWhere, h.2.deleteWhere⟩

theorem pendingKey_eq_some {r : Job} {k : String × String} :
    pendingKey r = some k ↔ r.status = .pending ∧ r.kind = k.1 ∧ r.dedupKey = some k.2 := by
  unfold pendingKey
  split
  · rename_i h
    simp only [Option.map_eq_some_iff, h, true_and]
    constructor
    · rintro ⟨d, hd, rfl⟩; exact ⟨rfl, hd⟩
    · rintro ⟨h1, h2⟩; exact ⟨k.2, h2, by rw [h1]⟩
  · rename_i h
    simp [h]

@[simp] theorem rearm_id (a : EnqueueArgs) (r : Job) : (rearm a r).id = r.id := rfl
@[simp] theorem rearm_pendingKey (a : EnqueueArgs) (r : Job) :
    pendingKey (rearm a r) = pendingKey r := rfl

theorem calm_rearm (a : EnqueueArgs) (r : Job) : Calm r (rearm a r) :=
  ⟨⟨rfl, rfl, rfl, fun _ h => h, fun h => h⟩, fun _ => rfl⟩

section
variable {rows rows' : List Job}

theorem Change.constraintsOk {K : Job → Job → Prop} (h : Change K rows rows')
    (hc : Queue.constraintsOk rows) : Queue.constraintsOk rows' := by
  induction h with
  | refl => exact hc
  | insert _ _ h => exact h
  | update _ _ _ h => exact h
  | delete => exact hc.delete
  | trans _ _ ih ih' => exact ih' (ih hc)

/-! ### enqueue -/

theorem upsert_change (hc : constraintsOk rows) {id kind : String} {e : JobEntry} {a : EnqueueArgs}
    (h : upsert rows (newJob id kind e a) a = .ok rows') : Change Calm rows rows' := by
  unfold upsert at h
  split at h
  · cases h
  split at h
  · rw [← Except.ok.inj h]
    exact .update _ _ (fun r _ _ => calm_rearm a r)
      (hc.update (fun _ => rfl) fun _ _ _ _ hk => hk)
  · obtain ⟨rfl, hok⟩ := flush_ok h
    exact .insert _ (fun j hj => by rw [List.mem_singleton.mp hj]; exact ⟨rfl, rfl⟩) hok

theorem enqueueInSession_change (hc : constraintsOk rows) {jobId kind : String} {e : JobEntry}
    {a : EnqueueArgs} {id : String} (h : enqueueInSession rows jobId kind e a = .ok (rows', id)) :
    Change Calm rows rows' := by
  unfold enqueueInSession at h
  cases hd : e.dedupKey with
  | none =>
    rw [hd] at h
    obtain ⟨rows1, h1, h2⟩ := bind_ok h
    obtain ⟨rfl, hok⟩ := flush_ok h1
    cases h2
    exact .insert _ (fun j hj => by rw [List.mem_singleton.mp hj]; exact ⟨rfl, rfl⟩) hok
  | some key =>
    rw [hd] at h
    obtain ⟨rows1, h1, h2⟩ := bind_ok h
    obtain ⟨_, _, h3⟩ := bind_ok h2
    cases h3
    exact upsert_change hc h1

/-- A fold of steps that each make a change makes a change. -/
theorem foldlM_change {α β : Type} {f : List Job × β → α → Except DbError (List Job × β)}
    (hf : ∀ acc x acc', constraintsOk acc.1 → f acc x = .ok acc' → Change Calm acc.1 acc'.1)
    (xs : List α) (acc acc' : List Job × β) (hc : constraintsOk acc.1)
    (h : xs.foldlM f acc = .ok acc') : Change Calm acc.1 acc'.1 := by
  induction xs generalizing acc with
  | nil => cases h; exact .refl _
  | cons x xs ih =>
    rw [List.foldlM_cons] at h
    obtain ⟨acc1, h1, h2⟩ := bind_ok h
    have hchange := hf acc x acc1 hc h1
    exact .trans hchange (ih acc1 (hchange.constraintsOk hc) h2)

theorem upsertReturning_change {kind : String} {a : EnqueueArgs}
    {acc acc' : List Job × List (Option String × String)} {x : JobEntry × String}
    (hc : constraintsOk acc.1) (h : upsertReturning kind a acc x = .ok acc') :
    Change Calm acc.1 acc'.1 := by
  unfold upsertReturning at h
  obtain ⟨rows1, h1, h2⟩ := bind_ok h
  split at h2
  · cases h2; exact upsert_change hc h1
  · cases h2

theorem upsertChunk_change {kind : String} {a : EnqueueArgs}
    {acc acc' : List Job × List (Nat × String)} {chunk : List (Nat × JobEntry × String)}
    (hc : constraintsOk acc.1) (h : upsertChunk kind a acc chunk = .ok acc') :
    Change Calm acc.1 acc'.1 := by
  unfold upsertChunk at h
  obtain ⟨⟨rows1, returned⟩, h1, h2⟩ := bind_ok h
  obtain ⟨ids, _, h3⟩ := bind_ok h2
  cases h3
  exact foldlM_change (fun _ _ _ hc h => upsertReturning_change hc h) _ (acc.1, []) _ hc h1

theorem enqueueManyInSession_change {kind : String}
    {entries : List (JobEntry × String)} {a : EnqueueArgs} {ids : List String}
    (h : enqueueManyInSession rows kind entries a = .ok (rows', ids)) : Change Calm rows rows' := by
  unfold enqueueManyInSession at h
  obtain ⟨rows1, h1, h2⟩ := bind_ok h
  obtain ⟨⟨rows2, pairs⟩, h3, h4⟩ := bind_ok h2
  obtain ⟨rfl, hok⟩ := flush_ok h1
  cases h4
  refine .trans (.insert _ (fun j hj => ?_) hok)
    (foldlM_change (fun _ _ _ hc h => upsertChunk_change hc h) _ _ _ hok h3)
  obtain ⟨x, _, rfl⟩ := List.mem_map.mp hj
  exact ⟨rfl, rfl⟩

/-! ### lease, terminal writes, user actions -/

theorem renewClaim_change (hc : constraintsOk rows) (worker : String) (now : ℚ) :
    Change Calm rows (renewClaim rows worker now).1 :=
  .update _ _ (fun _ _ _ => ⟨⟨rfl, rfl, rfl, fun _ h => h, fun h => h⟩, fun _ => rfl⟩)
    (hc.update (fun _ => rfl) fun _ _ _ _ hk => hk)

/-- A status other than `pending` is outside `uq_jobs_pending_dedup`. -/
theorem pendingKey_of_ne {r : Job} (h : r.status ≠ .pending) : pendingKey r = none := if_neg h

theorem complete_change (hc : constraintsOk rows) (jobId worker : String) (now : ℚ) :
    Change Keeps rows (complete rows jobId worker now).1 :=
  .update _ _ (fun _ _ _ => ⟨rfl, rfl, rfl, fun _ h => h, fun h => by cases h⟩)
    (hc.update (fun _ => rfl) fun _ _ _ _ hk => by rw [pendingKey_of_ne (by simp)] at hk; cases hk)

theorem failTerminal_change (hc : constraintsOk rows) (jobId worker error : String) (now : ℚ) :
    Change Keeps rows (failTerminal rows jobId worker error now).1 :=
  .update _ _ (fun _ _ _ => ⟨rfl, rfl, rfl, fun _ h => h, fun h => by cases h⟩)
    (hc.update (fun _ => rfl) fun _ _ _ _ hk => by rw [pendingKey_of_ne (by simp)] at hk; cases hk)

theorem keeps_failValues {seen r : Job} {a : FailArgs} {jobId : String}
    (hr : fence jobId a.worker r = true) : Keeps r (failValues seen a r) := by
  have hl : r.lockedBy = some a.worker := by simp only [fence, decide_eq_true_eq] at hr; exact hr.2
  unfold failValues
  by_cases h : seen.maxAttempts ≤ ((seen.attempts + 1 : Nat) : Int)
  · simp only [h, if_true]
    exact ⟨rfl, rfl, rfl, fun w hw => hl.trans hw, fun h => by cases h⟩
  · simp only [h, if_false]
    exact ⟨rfl, rfl, rfl, fun w hw => (by cases hw), fun h => by cases h⟩

theorem failWrite_change {seen : Job} {a : FailArgs} {res : FailResult}
    (h : failWrite rows seen a = .ok (rows', res)) : Change Keeps rows rows' := by
  unfold failWrite at h
  obtain ⟨rows1, h1, h2⟩ := bind_ok h
  obtain ⟨rfl, hok⟩ := flush_ok h1
  have hrows : updateWhere (fence seen.id a.worker) (failValues seen a) rows = rows' := by
    split at h2 <;> cases h2 <;> rfl
  rw [← hrows]
  exact .update _ _ (fun r _ hr => keeps_failValues hr) hok

theorem resetRunningToPending_change {worker : String} {now : ℚ} {n : Nat}
    (h : resetRunningToPending rows worker now = .ok (rows', n)) : Change Calm rows rows' := by
  unfold resetRunningToPending at h
  obtain ⟨rows1, h1, h2⟩ := bind_ok h
  obtain ⟨rfl, hok⟩ := flush_ok h1
  cases h2
  exact .update _ _ (fun _ _ _ => ⟨⟨rfl, rfl, rfl, fun _ h => (by cases h), fun h => (by cases h)⟩,
    fun h => by rcases h with h | h <;> cases h⟩) hok

theorem assign_eq {α : Type*} [DecidableEq α] (seen new cur : α) :
    assign seen new cur = new ∨ assign seen new cur = cur := by
  unfold assign
  split
  · exact .inr rfl
  · exact .inl rfl

theorem calm_retryValues (seen : Job) (now : ℚ) (r : Job) : Calm r (retryValues seen now r) where
  id := rfl
  kind := rfl
  dedupKey := rfl
  lockedBy w h := by
    rcases assign_eq seen.lockedBy none r.lockedBy with e | e
    · rw [retryValues, e] at h; cases h
    · rw [retryValues, e] at h; exact h
  running h := by
    rcases assign_eq seen.status .pending r.status with e | e
    · rw [retryValues, e] at h; cases h
    · rw [retryValues, e] at h; exact h
  ended h := by
    rcases assign_eq seen.status .pending r.status with e | e
    · rw [retryValues, e] at h; rcases h with h | h <;> cases h
    · rw [retryValues, e]

theorem retryWrite_change {seen : Job} {now : ℚ} (h : retryWrite rows seen now = .ok rows') :
    Change Calm rows rows' := by
  unfold retryWrite at h
  split at h
  · obtain ⟨rfl, hok⟩ := flush_ok h
    exact .update _ _ (fun r _ _ => calm_retryValues seen now r) hok
  · cases h

end

/-! ### the machine -/

/-- The write half of a call is a change; the calls of users are calm. -/
theorem write_change {rows rows' : List Job} {c : Call} {res : Option FailResult}
    (h : c.write rows = .ok (rows', res)) : Change Keeps rows rows' ∧
      ((∀ seen a, c ≠ .fail seen a) → Change Calm rows rows') := by
  cases c with
  | fail seen a =>
    refine ⟨?_, fun hne => absurd rfl (hne seen a)⟩
    simp only [Call.write] at h
    cases hw : failWrite rows seen a with
    | error e => rw [hw] at h; cases h
    | ok x => rw [hw] at h; cases h; exact failWrite_change hw
  | retry seen now =>
    have hchange : Change Calm rows rows' := by
      simp only [Call.write] at h
      cases hw : retryWrite rows seen now with
      | error e => rw [hw] at h; cases h
      | ok x => rw [hw] at h; cases h; exact retryWrite_change hw
    exact ⟨hchange.keeps, fun _ => hchange⟩
  | dismiss seen =>
    cases h
    exact ⟨.delete _, fun _ => .delete _⟩

theorem commit_change {β : Type} {K : Job → Job → Prop} {db : Db}
    {x : Except DbError (List Job × β)}
    (h : ∀ rows' b, x = .ok (rows', b) → Change K db.rows rows') :
    Change K db.rows (db.commit x).rows := by
  cases x with
  | ok x => exact h x.1 x.2 rfl
  | error e => exact .refl _

theorem begin_rows (db : Db) (c : Caller) (jobId : String) (g : Job → Bool) (call : Job → Call) :
    (db.begin c jobId g call).rows = db.rows := by
  unfold Db.begin
  split
  · split <;> rfl
  · rfl

/-- What the read half has seen. -/
def Call.Begun (rows : List Job) : Call → Prop
  | .fail seen _ => seen ∈ rows
  | .retry seen _ => seen ∈ rows ∧ seen.status = .failed
  | .dismiss seen => seen ∈ rows ∧ (seen.status = .done ∨ seen.status = .failed)

theorem get_mem {rows : List Job} {jobId : String} {r : Job} (h : get rows jobId = some r) :
    r ∈ rows ∧ r.id = jobId :=
  ⟨List.mem_of_find?_eq_some h, by simpa using List.find?_some h⟩

theorem commit_sessions {β : Type} (db : Db) (x : Except DbError (List Job × β)) :
    (db.commit x).sessions = db.sessions := by cases x <;> rfl

theorem begin_sessions {db : Db} {c : Caller} {jobId : String} {g : Job → Bool} (call : Job → Call)
    (hg : ∀ seen ∈ db.rows, g seen = true → (call seen).Begun db.rows) :
    ∀ s ∈ (db.begin c jobId g call).sessions, s ∈ db.sessions ∨ s.call.Begun db.rows := by
  intro s hs
  unfold Db.begin at hs
  split at hs
  · rename_i seen hseen
    split at hs
    · rename_i hgs
      rcases List.mem_append.mp hs with h | h
      · exact .inl h
      · rw [List.mem_singleton.mp h]
        exact .inr (hg seen (get_mem hseen).1 hgs)
    · exact .inl hs
  · exact .inl hs

/-- Calls are opened by a read half and by nothing else. -/
theorem step_sessions {db db' : Db} {op : Op} (h : step db op = some db') :
    ∀ s ∈ db'.sessions, s ∈ db.sessions ∨ s.call.Begun db.rows := by
  intro s hs
  cases op with
  | beginFail c jobId a =>
    rw [← Option.some.inj h] at hs
    exact begin_sessions (.fail · a) (fun _ hseen _ => hseen) s hs
  | beginRetry c jobId userId now =>
    rw [← Option.some.inj h] at hs
    refine begin_sessions (.retry · now) (fun seen hseen hg => ⟨hseen, ?_⟩) s hs
    simp only [mayRetry, decide_eq_true_eq] at hg
    exact hg.2
  | beginDismiss c jobId userId =>
    rw [← Option.some.inj h] at hs
    refine begin_sessions .dismiss (fun seen hseen hg => ⟨hseen, ?_⟩) s hs
    simp only [mayDismiss, decide_eq_true_eq] at hg
    exact hg.2
  | finish c =>
    obtain ⟨s', _, rfl⟩ := Option.map_eq_some_iff.mp h
    exact .inl (List.mem_of_mem_erase hs)
  | abandon c =>
    obtain ⟨s', _, rfl⟩ := Option.map_eq_some_iff.mp h
    exact .inl (List.mem_of_mem_erase hs)
  | _ =>
    rw [← Option.some.inj h] at hs
    first
      | exact .inl hs
      | rw [commit_sessions] at hs; exact .inl hs

/-- A step of the queue is a claim or a change of the table. -/
theorem step_cases {db db' : Db} {op : Op} (hc : constraintsOk db.rows)
    (h : step db op = some db') : Change Keeps db.rows db'.rows ∨
      ∃ worker now staleAfter tie, op = .claim worker now staleAfter tie ∧
        db' = { db with rows := (claim db.rows worker now staleAfter tie).1 } := by
  cases op with
  | claim worker now staleAfter tie =>
    exact .inr ⟨worker, now, staleAfter, tie, rfl, (Option.some.inj h).symm⟩
  | enqueue jobId kind e a =>
    rw [← Option.some.inj h]
    exact .inl (commit_change fun _ _ hx => (enqueueInSession_change hc hx).keeps)
  | enqueueMany kind entries a =>
    rw [← Option.some.inj h]
    exact .inl (commit_change fun _ _ hx => (enqueueManyInSession_change hx).keeps)
  | renewClaim worker now =>
    rw [← Option.some.inj h]; exact .inl (renewClaim_change hc worker now).keeps
  | complete jobId worker now =>
    rw [← Option.some.inj h]; exact .inl (complete_change hc jobId worker now)
  | failTerminal jobId worker error now =>
    rw [← Option.some.inj h]; exact .inl (failTerminal_change hc jobId worker error now)
  | resetRunningToPending worker now =>
    rw [← Option.some.inj h]
    exact .inl (commit_change fun _ _ hx => (resetRunningToPending_change hx).keeps)
  | sweepDone olderThan now => rw [← Option.some.inj h]; exact .inl (.delete _)
  | deleteForWorkspace userId workspace => rw [← Option.some.inj h]; exact .inl (.delete _)
  | beginFail c jobId a => rw [← Option.some.inj h, begin_rows]; exact .inl (.refl _)
  | beginRetry c jobId userId now => rw [← Option.some.inj h, begin_rows]; exact .inl (.refl _)
  | beginDismiss c jobId userId => rw [← Option.some.inj h, begin_rows]; exact .inl (.refl _)
  | finish c =>
    obtain ⟨s, _, rfl⟩ := Option.map_eq_some_iff.mp h
    exact .inl (commit_change fun _ _ hx => (write_change hx).1)
  | abandon c =>
    obtain ⟨s, _, rfl⟩ := Option.map_eq_some_iff.mp h
    exact .inl (.refl _)

end Kajet.Queue
