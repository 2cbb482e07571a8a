import Kajet.Lib.Table
import Mathlib.Data.Rat.Defs
import Mathlib.Algebra.Order.Ring.Unbundled.Rat

/-!
# The `jobs` table and the statements of `JobRepository`

The queue is one SQLite table.  A repository method is one transaction: a function of the rows
that returns the new rows and the method's result, or the database error that rolled it back.

* `Job`, `primaryKey`, `pendingKey`, `flush`   a row, its two unique indexes (`id`, and
        `uq_jobs_pending_dedup` on `(kind, dedup_key) WHERE status = 'pending'`), the check that
        every `INSERT`/`UPDATE` makes;
* `enqueueInSession`, `enqueueManyInSession`    the debounced upserts;
* `claim`   `_CLAIM_SQL`; the order of rows that tie in `(priority, next_run_at)` is left open
        by SQL and is the argument `tie`;
* `renewClaim`, `complete`, `failTerminal`, `resetRunningToPending`, `sweepDone`,
  `deleteForWorkspace`   single statements;
* `failWrite`, `retryWrite`, `dismissWrite`   the second halves of the three methods that read
        the row first (`session.get`) and write later; the read row is the argument `seen`.

Times are exact rationals, generated ids are arguments.
-/

namespace Kajet.Queue
open Table

/-- `Job.status` -/
inductive Status where
  | pending
  | running
  | done
  | failed
deriving DecidableEq, Repr

/-- A job payload: every kind stores a flat JSON object of strings. -/
abbrev Payload := List (String × String)

/-- `json_extract(payload, '$.workspace')` -/
def Payload.workspace (p : Payload) : Option String := p.lookup "workspace"

structure Job where
  id : String
  kind : String
  userId : Option String
  dedupKey : Option String
  payload : Payload
  status : Status
  attempts : Nat
  maxAttempts : Int
  nextRunAt : ℚ
  priority : Int
  lockedBy : Option String
  lockedAt : Option ℚ
  lastError : Option String
  createdAt : ℚ
  updatedAt : ℚ
deriving DecidableEq

/-- What SQLite or SQLAlchemy raises; the transaction is rolled back. -/
inductive DbError where
  | integrity
  | noResult
  | multipleResults
  | keyError
  | staleData
deriving DecidableEq, Repr

def priorityDefault : Int := 0
def priorityBulk : Int := 10
def enqueueUpsertChunkSize : Nat := 80

/-- One job of a batch. -/
structure JobEntry where
  payload : Payload
  dedupKey : Option String
  userId : Option String
deriving DecidableEq

/-- Backoff of the `attempts`-th retry (`attempts ≥ 1`). -/
def backoffSeconds (attempts : Nat) (base cap : ℚ) : ℚ := min cap (base * 2 ^ (attempts - 1))

/-! ## indexes -/

def primaryKey (r : Job) : Option String := some r.id

/-- `uq_jobs_pending_dedup` -/
def pendingKey (r : Job) : Option (String × String) :=
  if r.status = .pending then r.dedupKey.map fun k => (r.kind, k) else none

def constraintsOk (rows : List Job) : Prop :=
  UniqueOn primaryKey rows ∧ UniqueOn pendingKey rows

instance : DecidablePred constraintsOk := fun rows =>
  inferInstanceAs (Decidable (UniqueOn primaryKey rows ∧ UniqueOn pendingKey rows))

def flush (rows : List Job) : Except DbError (List Job) :=
  if constraintsOk rows then .ok rows else .error .integrity

/-! ## enqueue -/

/-- The keyword arguments shared by the enqueue methods. -/
structure EnqueueArgs where
  maxAttempts : Int
  delay : ℚ
  priority : Int
  now : ℚ
deriving DecidableEq

def EnqueueArgs.runAt (a : EnqueueArgs) : ℚ := a.now + a.delay

def newJob (id kind : String) (e : JobEntry) (a : EnqueueArgs) : Job where
  id := id
  kind := kind
  userId := e.userId
  dedupKey := e.dedupKey
  payload := e.payload
  status := .pending
  attempts := 0
  maxAttempts := a.maxAttempts
  nextRunAt := a.runAt
  priority := a.priority
  lockedBy := none
  lockedAt := none
  lastError := none
  createdAt := a.now
  updatedAt := a.now

/-- `set_` of the upsert: the priority never regresses. -/
def rearm (a : EnqueueArgs) (r : Job) : Job :=
  { r with nextRunAt := a.runAt, priority := min r.priority a.priority, updatedAt := a.now }

/-- `INSERT … ON CONFLICT (kind, dedup_key) WHERE status = 'pending' DO UPDATE`. -/
def upsert (rows : List Job) (job : Job) (a : EnqueueArgs) : Except DbError (List Job) :=
  if rows.any (fun r => r.id = job.id) then .error .integrity
  else if rows.any (fun r => pendingKey r = pendingKey job) then
    .ok (updateWhere (fun r => pendingKey r = pendingKey job) (rearm a) rows)
  else flush (rows ++ [job])

/-- `SELECT id … WHERE kind = … AND dedup_key = … AND status = 'pending'`, then `.one()`. -/
def selectPendingOne (rows : List Job) (kind key : String) : Except DbError String :=
  match rows.filter (fun r => r.kind = kind ∧ r.dedupKey = some key ∧ r.status = .pending) with
  | [] => .error .noResult
  | [r] => .ok r.id
  | _ => .error .multipleResults

def enqueueInSession (rows : List Job) (jobId kind : String) (e : JobEntry) (a : EnqueueArgs) :
    Except DbError (List Job × String) :=
  match e.dedupKey with
  | none => do
    let rows ← flush (rows ++ [newJob jobId kind e a])
    return (rows, jobId)
  | some key => do
    let rows ← upsert rows (newJob jobId kind e a) a
    let id ← selectPendingOne rows kind key
    return (rows, id)

/-- `itertools.batched`: consecutive pieces of length `n`. -/
def batched {α : Type*} (n : Nat) : List α → List α → List (List α)
  | [], [] => []
  | cur, [] => [cur]
  | cur, x :: xs =>
    if cur.length + 1 < n then batched n (cur ++ [x]) xs else (cur ++ [x]) :: batched n [] xs

/-- The pieces hold what the list holds. -/
theorem batched_mem {α : Type*} (n : Nat) (xs cur : List α) (x : α) :
    (∃ c ∈ batched n cur xs, x ∈ c) ↔ x ∈ cur ∨ x ∈ xs := by
  induction xs generalizing cur with
  | nil => cases cur <;> simp [batched]
  | cons y xs ih =>
    have happ : x ∈ cur ++ [y] ∨ x ∈ xs ↔ x ∈ cur ∨ x ∈ y :: xs := by
      simp only [List.mem_append, List.mem_cons, List.not_mem_nil, or_false, or_assoc]
    have hcons : batched n cur (y :: xs) = if cur.length + 1 < n then batched n (cur ++ [y]) xs
        else (cur ++ [y]) :: batched n [] xs := by cases cur <;> rfl
    rw [hcons]
    split
    · rw [ih, happ]
    · simp only [List.mem_cons, exists_eq_or_imp, ih, List.not_mem_nil, false_or]
      rw [happ, List.mem_cons]

/-- One row of the multi-row upsert and its `RETURNING (dedup_key, id)` row. -/
def upsertReturning (kind : String) (a : EnqueueArgs)
    (acc : List Job × List (Option String × String)) (x : JobEntry × String) :
    Except DbError (List Job × List (Option String × String)) := do
  let job := newJob x.2 kind x.1 a
  let rows ← upsert acc.1 job a
  match rows.find? (fun r => pendingKey r = pendingKey job) with
  | some r => return (rows, acc.2 ++ [(r.dedupKey, r.id)])
  | none => .error .noResult

/-- One statement of the batch: the rows, and the ids it assigns to the entries' positions. -/
def upsertChunk (kind : String) (a : EnqueueArgs) (acc : List Job × List (Nat × String))
    (chunk : List (Nat × JobEntry × String)) : Except DbError (List Job × List (Nat × String)) := do
  let (rows, returned) ← (chunk.map (·.2)).foldlM (upsertReturning kind a) (acc.1, [])
  let ids ← chunk.mapM fun x =>
    -- `dict(rows)`: the last row of a key wins
    match returned.reverse.lookup x.2.1.dedupKey with
    | some id => Except.ok (x.1, id)
    | none => .error .keyError
  return (rows, acc.2 ++ ids)

/-- Every entry comes with the id `generate()` returned for it. -/
def enqueueManyInSession (rows : List Job) (kind : String) (entries : List (JobEntry × String))
    (a : EnqueueArgs) : Except DbError (List Job × List String) := do
  let plain := entries.filter fun x => x.1.dedupKey = none
  let rows ← flush (rows ++ plain.map fun x => newJob x.2 kind x.1 a)
  let dedupIndexed := (entries.zipIdx.map fun x => (x.2, x.1)).filter fun x => x.2.1.dedupKey ≠ none
  let (rows, ids) ← (batched enqueueUpsertChunkSize [] dedupIndexed).foldlM (upsertChunk kind a)
    (rows, [])
  let jobIds := entries.zipIdx.map fun x =>
    if x.1.1.dedupKey = none then x.1.2 else (ids.lookup x.2).getD ""
  return (rows, jobIds)

/-! ## claim -/

/-- `WHERE` of `_CLAIM_SQL`. -/
def eligible (rows : List Job) (now staleCutoff : ℚ) (j : Job) : Bool :=
  ((j.status = .pending ∧ j.nextRunAt ≤ now)
    ∨ (j.status = .running ∧ ∃ at' ∈ j.lockedAt, at' < staleCutoff))
  ∧ ¬ ∃ r ∈ rows, r.status = .running ∧ r.dedupKey ≠ none ∧ r.dedupKey = j.dedupKey ∧ r.id ≠ j.id

/-- `ORDER BY priority, next_run_at`: `a` may come first. -/
def claimsBefore (a b : Job) : Bool :=
  a.priority < b.priority ∨ (a.priority = b.priority ∧ a.nextRunAt ≤ b.nextRunAt)

/-- The rows that `ORDER BY … LIMIT 1` may return. -/
def claimable (rows : List Job) (now staleCutoff : ℚ) : List Job :=
  let es := rows.filter (eligible rows now staleCutoff)
  es.filter fun j => es.all (claimsBefore j)

def lock (worker : String) (now : ℚ) (r : Job) : Job :=
  { r with status := .running, lockedBy := some worker, lockedAt := some now, updatedAt := now }

def claim (rows : List Job) (worker : String) (now staleAfter : ℚ) (tie : Nat) :
    List Job × Option Job :=
  let best := claimable rows now (now - staleAfter)
  match best[tie % best.length]? with
  | none => (rows, none)
  | some j => (updateWhere (fun r => r.id = j.id) (lock worker now) rows, some (lock worker now j))

/-! ## lease and terminal writes -/

def heldBy (worker : String) (r : Job) : Bool := r.status = .running ∧ r.lockedBy = some worker

def renewClaim (rows : List Job) (worker : String) (now : ℚ) : List Job × Nat :=
  (updateWhere (heldBy worker) (fun r => { r with lockedAt := some now, updatedAt := now }) rows,
    (rows.filter (heldBy worker)).length)

/-- The fence of the terminal writes: `WHERE id = … AND locked_by = …`. -/
def fence (jobId worker : String) (r : Job) : Bool := r.id = jobId ∧ r.lockedBy = some worker

def complete (rows : List Job) (jobId worker : String) (now : ℚ) : List Job × Bool :=
  (updateWhere (fence jobId worker) (fun r => { r with status := .done, updatedAt := now }) rows,
    rows.any (fence jobId worker))

/-- What `fail` returns. -/
inductive FailResult where
  | failed
  | pending
  | superseded
deriving DecidableEq, Repr

/-- Arguments of `fail`. -/
structure FailArgs where
  worker : String
  error : String
  now : ℚ
  baseBackoff : ℚ
  maxBackoff : ℚ
deriving DecidableEq

/-- The values that `fail` computes from the row it read. -/
def failValues (seen : Job) (a : FailArgs) (r : Job) : Job :=
  let attempts := seen.attempts + 1
  if seen.maxAttempts ≤ attempts then
    { r with attempts := attempts, lastError := some a.error, updatedAt := a.now, status := .failed,
             nextRunAt := seen.nextRunAt, lockedBy := some a.worker, lockedAt := seen.lockedAt }
  else
    { r with attempts := attempts, lastError := some a.error, updatedAt := a.now, status := .pending,
             nextRunAt := a.now + backoffSeconds attempts a.baseBackoff a.maxBackoff,
             lockedBy := none, lockedAt := none }

def failWrite (rows : List Job) (seen : Job) (a : FailArgs) :
    Except DbError (List Job × FailResult) := do
  let rows' ← flush (updateWhere (fence seen.id a.worker) (failValues seen a) rows)
  if rows.any (fence seen.id a.worker) then
    return (rows', if seen.maxAttempts ≤ seen.attempts + 1 then .failed else .pending)
  else return (rows', .superseded)

def failTerminal (rows : List Job) (jobId worker error : String) (now : ℚ) : List Job × Bool :=
  (updateWhere (fence jobId worker)
      (fun r => { r with status := .failed, lastError := some error, updatedAt := now }) rows,
    rows.any (fence jobId worker))

def requeue (now : ℚ) (r : Job) : Job :=
  { r with status := .pending, nextRunAt := now, lockedBy := none, lockedAt := none,
           updatedAt := now }

def resetRunningToPending (rows : List Job) (worker : String) (now : ℚ) :
    Except DbError (List Job × Nat) := do
  let rows' ← flush (updateWhere (heldBy worker) (requeue now) rows)
  return (rows', (rows.filter (heldBy worker)).length)

/-! ## user actions and cleanup -/

/-- The unit of work writes a column only where the new value differs from the one it read. -/
def assign {α : Type*} [DecidableEq α] (seen new cur : α) : α := if new = seen then cur else new

def retryValues (seen : Job) (now : ℚ) (r : Job) : Job :=
  { r with
    status := assign seen.status .pending r.status
    attempts := assign seen.attempts 0 r.attempts
    nextRunAt := assign seen.nextRunAt now r.nextRunAt
    lastError := assign seen.lastError none r.lastError
    lockedBy := assign seen.lockedBy none r.lockedBy
    lockedAt := assign seen.lockedAt none r.lockedAt
    updatedAt := assign seen.updatedAt now r.updatedAt }

/-- `retry` goes on after its read. -/
def mayRetry (seen : Job) (userId : String) : Bool := seen.userId = some userId ∧ seen.status = .failed

def retryWrite (rows : List Job) (seen : Job) (now : ℚ) : Except DbError (List Job) :=
  if rows.any (fun r => r.id = seen.id) then
    flush (updateWhere (fun r => r.id = seen.id) (retryValues seen now) rows)
  else .error .staleData

/-- `dismiss` goes on after its read. -/
def mayDismiss (seen : Job) (userId : String) : Bool :=
  seen.userId = some userId ∧ (seen.status = .done ∨ seen.status = .failed)

def dismissWrite (rows : List Job) (seen : Job) : List Job :=
  deleteWhere (fun r => r.id = seen.id) rows

def sweepDone (rows : List Job) (olderThan now : ℚ) : List Job :=
  deleteWhere (fun r => r.status = .done ∧ r.updatedAt < now - olderThan) rows

def deleteForWorkspace (rows : List Job) (userId workspace : String) : List Job :=
  deleteWhere (fun r => r.userId = some userId ∧ r.payload.workspace = some workspace) rows

/-- `session.get(Job, job_id)` -/
def get (rows : List Job) (jobId : String) : Option Job := rows.find? fun r => r.id = jobId

end Kajet.Queue
