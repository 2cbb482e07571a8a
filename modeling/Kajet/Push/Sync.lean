import Kajet.Queue.Cover

/-!
# Pushing a workspace to its remote

A commit fires a hook that marks the remote dirty and enqueues a push under the key of the workspace; the
manual trigger does the same.  A worker that claims the job reads the remote and its key, pushes the head of
the branch and records the outcome.  Commits, hooks and handlers of any number of workers interleave.

* `Remote`, `State`, `Op`, `sync`   the row, the branch here and at the remote, and the handlers;
* `steady`             the configuration is there when a handler looks, and nothing takes the jobs away;
* `Good`               an attempt that has not read the head before the last answered commit;
* `SyncInv`, `sync_inv`    a commit that was answered is at the remote, or its key is covered;
* `push_synced`        without an open push job the remote has every commit whose hook went through.
-/

namespace Kajet.Push
open Table Machine Queue

/-- The user, the name and the path of a workspace, and the origin whose branch is followed. -/
structure Site where
  userId : String
  workspace : String
  wsPath : String
  originUrl : String

def Site.key (w : Site) : String := w.userId ++ ":" ++ w.workspace

def kind : String := "push_workspace"

def Site.entry (w : Site) : JobEntry where
  payload := [("user_id", w.userId), ("workspace", w.workspace), ("ws_path", w.wsPath)]
  dedupKey := some w.key
  userId := some w.userId

structure Remote where
  originUrl : String
  sshKeyId : String
  enabled : Bool
  dirtyAt : Option ℚ
  pushedAt : Option ℚ
  lastError : Option String
deriving DecidableEq

/-- How far the handler of an attempt has got; commits are counted along the branch. -/
inductive Handler where
  | called
  | found (originUrl sshKeyId : String)
  /-- the key is there -/
  | ready (originUrl : String)
  /-- `push` has read the head -/
  | pushing (originUrl : String) (head : ℕ)
  /-- the remote has taken it -/
  | landed (originUrl : String) (head : ℕ)
  | returned (head : Option ℕ)
  | raised (error : String)
deriving DecidableEq

/-- The head that the handler pushes. -/
def Handler.head : Handler → Option ℕ
  | .pushing _ head => some head
  | .landed _ head => some head
  | .returned head => head
  | _ => none

/-- The origin that it pushes to. -/
def Handler.originUrl : Handler → Option String
  | .found originUrl _ => some originUrl
  | .ready originUrl => some originUrl
  | .pushing originUrl _ => some originUrl
  | .landed originUrl _ => some originUrl
  | _ => none

def Handler.sshKeyId : Handler → Option String
  | .found _ sshKeyId => some sshKeyId
  | _ => none

structure State where
  fleet : Fleet
  /-- one for each attempt that claimed a push of the workspace -/
  handlers : List (Option Handler)
  /-- commits of the branch, here and at the origin -/
  head : ℕ
  origin : ℕ
  remote : Option Remote
  /-- the keys of the user -/
  sshKeys : List String
  /-- hooks and triggers that have found an enabled remote -/
  hooks : ℕ
  /-- the commits whose hook has enqueued -/
  answered : ℕ
deriving DecidableEq

inductive Op where
  | fleet (op : FleetOp)
  | commit
  | hookBegin
  | hookDirty (now : ℚ)
  | hookEnqueue (jobId : String) (a : EnqueueArgs)
  /-- the exception of a hook is logged, or the process dies -/
  | hookFails
  | setRemote (remote : Option Remote)
  | setKeys (sshKeys : List String)
  | look (k : ℕ)
  | readKey (k : ℕ)
  | readHead (k : ℕ)
  | land (k : ℕ)
  | markPushed (k : ℕ) (now : ℚ)
  /-- `push` raises -/
  | reject (k : ℕ) (error : String)
  /-- an exception outside the `try`, or of the bookkeeping -/
  | raises (k : ℕ) (error : String)

namespace State

/-- The handler of an executing attempt. -/
def handler (s : State) (k : ℕ) : Option Handler :=
  if (s.fleet.at k .executing).isSome then s.handlers[k]?.join else none

def setHandler (s : State) (k : ℕ) (h : Handler) : State := { s with handlers := s.handlers.set k (some h) }

/-- `_patch`: nothing happens without a row. -/
def patch (s : State) (f : Remote → Remote) : State := { s with remote := s.remote.map f }

/-- What `run_job` may do next with an attempt: its terminal write follows the end of the handler. -/
def mayRun (s : State) : FleetOp → Bool
  | .complete k _ => match s.handler k with
    | some (.returned _) => true
    | some _ => false
    | none => true
  | .beginFail k error _ _ _ => match s.handler k with
    | some (.raised error') => error' = error
    | some _ => false
    | none => true
  | .failTerminal k _ _ => (s.handler k).isNone
  | _ => true

/-- A claim of a push of the workspace calls the handler. -/
def called (w : Site) (s : State) : FleetOp → List (Option Handler)
  | .claim worker now staleAfter tie => ((claim s.fleet.db.rows worker now staleAfter tie).2.map fun job =>
      if IsOf kind w.key job then some Handler.called else none).toList
  | _ => []

end State

def step (w : Site) (s : State) : Op → Option State
  | .fleet op =>
    if s.mayRun op then
      (fleetStep s.fleet op).map fun f => { s with fleet := f, handlers := s.handlers ++ s.called w op }
    else none
  | .commit => some { s with head := s.head + 1 }
  | .hookBegin =>
    some (if s.remote.any (·.enabled) then { s with hooks := s.hooks + 1 } else s)
  | .hookDirty now =>
    if s.hooks = 0 then none else some (s.patch fun r => { r with dirtyAt := some now })
  | .hookEnqueue jobId a =>
    if s.hooks = 0 then none
    else match enqueueInSession s.fleet.db.rows jobId kind w.entry a with
      | .error _ => some { s with hooks := s.hooks - 1 }
      | .ok x => some { s with
          fleet := { s.fleet with db := { s.fleet.db with rows := x.1 } }
          hooks := s.hooks - 1
          answered := s.head }
  | .hookFails => if s.hooks = 0 then none else some { s with hooks := s.hooks - 1 }
  | .setRemote remote => some { s with remote := remote }
  | .setKeys sshKeys => some { s with sshKeys := sshKeys }
  | .look k =>
    if s.handler k = some .called then
      match s.remote with
      | none => some (s.setHandler k (.returned none))
      | some r =>
        if r.enabled then some (s.setHandler k (.found r.originUrl r.sshKeyId))
        else some (s.setHandler k (.returned none))
    else none
  | .readKey k =>
    match s.handler k with
    | some (.found originUrl sshKeyId) =>
      if sshKeyId ∈ s.sshKeys then some (s.setHandler k (.ready originUrl))
      else some ((s.patch fun r => { r with lastError := some "ssh key missing" }).setHandler k (.returned none))
    | _ => none
  | .readHead k =>
    match s.handler k with
    | some (.ready originUrl) => some (s.setHandler k (.pushing originUrl s.head))
    | _ => none
  | .land k =>
    match s.handler k with
    | some (.pushing originUrl head) =>
      if originUrl ≠ w.originUrl then some (s.setHandler k (.landed originUrl head))
      -- a push that is not a fast-forward is rejected
      else if s.origin ≤ head then some ({ s with origin := head }.setHandler k (.landed originUrl head)) else none
    | _ => none
  | .markPushed k now =>
    match s.handler k with
    | some (.landed _ head) =>
      some ((s.patch fun r => { r with pushedAt := some now, lastError := none }).setHandler k (.returned (some head)))
    | _ => none
  | .reject k error =>
    match s.handler k with
    | some (.ready _) | some (.pushing ..) | some (.landed ..) =>
      some ((s.patch fun r => { r with lastError := some error }).setHandler k (.raised error))
    | _ => none
  | .raises k error =>
    match s.handler k with
    | none | some (.raised _) | some (.returned none) => none
    | some _ => some (s.setHandler k (.raised error))

def State.init : State := ⟨⟨⟨[], []⟩, []⟩, [], 0, 0, none, [], 0, 0⟩

def sync (w : Site) : Machine State Op where
  start s := s = .init
  next := step w

/-- The row names the origin and is enabled, and its key is there, when a handler looks; nobody dismisses the
push jobs or deletes the workspace; no worker claims a row on which an attempt of it may still write. -/
def steady (w : Site) (s : State) : Op → Prop
  | .fleet op => claimsAfresh s.fleet op ∧ spares kind w.key s.fleet op
  | .look _ => ∃ r ∈ s.remote, r.originUrl = w.originUrl ∧ r.enabled = true
  | .readKey k => ∀ h ∈ s.handler k, ∀ id ∈ h.sshKeyId, id ∈ s.sshKeys
  | _ => True

instance (w : Site) (s : State) : (op : Op) → Decidable (steady w s op)
  | .fleet op => inferInstanceAs (Decidable (claimsAfresh s.fleet op ∧ spares kind w.key s.fleet op))
  | .look _ => inferInstanceAs (Decidable (∃ r ∈ s.remote, r.originUrl = w.originUrl ∧ r.enabled = true))
  | .readKey k => inferInstanceAs (Decidable (∀ h ∈ s.handler k, ∀ id ∈ h.sshKeyId, id ∈ s.sshKeys))
  | .commit | .hookBegin | .hookDirty _ | .hookEnqueue .. | .hookFails | .setRemote _ | .setKeys _ | .readHead _
  | .land _ | .markPushed .. | .reject .. | .raises .. => isTrue trivial

/-! ## what an answered commit is owed -/

/-- The attempt pushes the answered commits if it completes. -/
def Good (s : State) (k : ℕ) : Prop :=
  ∀ (h : Handler) (head : ℕ), s.handlers[k]? = some (some h) → h.head = some head → s.answered ≤ head

/-- What the handler of an attempt has seen of the branch. -/
structure HandlerInv (w : Site) (s : State) (h : Handler) : Prop where
  head : ∀ head, h.head = some head → head ≤ s.head
  originUrl : ∀ url, h.originUrl = some url → url = w.originUrl
  landed : ∀ head, (h = .landed w.originUrl head ∨ h = .returned (some head)) → head ≤ s.origin
  looked : h ≠ .returned none

structure SyncInv (w : Site) (s : State) : Prop where
  fleet : FleetInv s.fleet
  locks : Locks s.fleet.db
  length : s.handlers.length = s.fleet.attempts.length
  /-- an attempt that may complete a push runs the handler of a push -/
  watched : Watched s.fleet kind w.key fun k => ∃ h, s.handlers[k]? = some (some h)
  origin : s.origin ≤ s.head
  answered : s.answered ≤ s.head
  handlers : ∀ (k : ℕ) (h : Handler), s.handlers[k]? = some (some h) → HandlerInv w s h
  /-- the commits that were answered are at the origin, or a push is to come -/
  covered : s.answered ≤ s.origin ∨ Covered s.fleet kind w.key (Good s)

section
variable {w : Site} {s s' : State} {k : ℕ} {h h0 : Handler}

theorem handler_some (hh : s.handler k = some h) : s.handlers[k]? = some (some h) := by
  unfold State.handler at hh
  split at hh
  · exact Option.join_eq_some_iff.mp hh
  · cases hh

theorem handler_eq {A : Attempt} (hA : s.fleet.attempts[k]? = some A) (hx : A.phase = .executing)
    (hk : s.handlers[k]? = some (some h)) : s.handler k = some h := by
  have hat : s.fleet.at k .executing = some A := Option.filter_eq_some_iff.mpr ⟨hA, decide_eq_true hx⟩
  unfold State.handler
  rw [hat, hk]
  rfl

theorem getElem?_setHandler {handlers : List (Option Handler)} {j : ℕ} (hk : (handlers.set k (some h0))[j]? = some (some h)) :
    (j = k ∧ h = h0) ∨ (j ≠ k ∧ handlers[j]? = some (some h)) := by
  rw [List.getElem?_set] at hk
  split at hk
  · rename_i hjk
    split at hk
    · exact .inl ⟨hjk.symm, (Option.some.inj (Option.some.inj hk)).symm⟩
    · cases hk
  · rename_i hjk
    exact .inr ⟨fun e => hjk e.symm, hk⟩

/-- The branch and the origin have moved on. -/
theorem HandlerInv.mono (hh : HandlerInv w s h) (hhead : s.head ≤ s'.head) (horigin : s.origin ≤ s'.origin) :
    HandlerInv w s' h where
  head n hn := (hh.head n hn).trans hhead
  originUrl := hh.originUrl
  landed n hn := (hh.landed n hn).trans horigin
  looked := hh.looked

/-- Commits, hooks and the settings. -/
theorem SyncInv.environment (hi : SyncInv w s) {head hooks : ℕ} (hhead : s.head ≤ head) (remote : Option Remote)
    (sshKeys : List String) :
    SyncInv w { s with head := head, remote := remote, sshKeys := sshKeys, hooks := hooks } where
  fleet := hi.fleet
  locks := hi.locks
  length := hi.length
  watched := hi.watched
  origin := hi.origin.trans hhead
  answered := hi.answered.trans hhead
  handlers k h hk := (hi.handlers k h hk).mono hhead le_rfl
  covered := hi.covered

/-- A step of the handler of attempt `k`. -/
theorem SyncInv.handler (hi : SyncInv w s) (hk : s.handler k = some h0) {origin : ℕ} (remote : Option Remote)
    (hle : s.origin ≤ origin) (horigin : origin ≤ s.head) (hh : HandlerInv w { s with origin := origin } h)
    (hgood : ∀ head, h.head = some head → h0.head = some head ∨ s.answered ≤ head) :
    SyncInv w { s with origin := origin, remote := remote, handlers := s.handlers.set k (some h) } where
  fleet := hi.fleet
  locks := hi.locks
  length := by rw [List.length_set]; exact hi.length
  watched j A hA hx r hr hof hf := by
    obtain ⟨h', hj⟩ := hi.watched j A hA hx r hr hof hf
    by_cases hjk : k = j
    · subst hjk
      exact ⟨h, by rw [List.getElem?_set_self (List.getElem?_eq_some_iff.mp hj).1]⟩
    · exact ⟨h', by rw [List.getElem?_set_ne hjk]; exact hj⟩
  origin := horigin
  answered := hi.answered
  handlers j h' hj := by
    rcases getElem?_setHandler hj with ⟨_, rfl⟩ | ⟨_, hj⟩
    · exact hh.mono le_rfl le_rfl
    · exact (hi.handlers j h' hj).mono le_rfl hle
  covered := by
    rcases hi.covered with hle' | hcov
    · exact .inl (hle'.trans hle)
    · refine .inr (hcov.mono fun j hj h' head hj' hhead => ?_)
      rcases getElem?_setHandler hj' with ⟨rfl, rfl⟩ | ⟨_, hold⟩
      · rcases hgood head hhead with h0head | hle'
        · exact hj h0 head (handler_some hk) h0head
        · exact hle'
      · exact hj h' head hold hhead

/-- The enqueue of a hook leaves a pending push. -/
theorem SyncInv.enqueue (hi : SyncInv w s) {jobId id : String} {a : EnqueueArgs} {rows : List Job} {hooks : ℕ}
    (he : enqueueInSession s.fleet.db.rows jobId kind w.entry a = .ok (rows, id)) :
    SyncInv w { s with
      fleet := { s.fleet with db := { s.fleet.db with rows := rows } }
      hooks := hooks
      answered := s.head } := by
  have hcommit : s.fleet.db.commit (enqueueInSession s.fleet.db.rows jobId kind w.entry a) =
      { s.fleet.db with rows := rows } := by rw [he]; rfl
  have hq : Queue.step s.fleet.db (.enqueue jobId kind w.entry a) = some { s.fleet.db with rows := rows } := by
    rw [← hcommit]
    rfl
  have hs : fleetStep s.fleet (.other (.enqueue jobId kind w.entry a)) =
      some { s.fleet with db := { s.fleet.db with rows := rows } } := by
    rw [← hcommit]
    rfl
  have hok : claimsAfresh s.fleet (.other (.enqueue jobId kind w.entry a)) := trivial
  obtain ⟨r, hr, _, hpending, hkind, hkey⟩ := enqueueInSession_named rfl he
  exact {
    fleet := fleetStep_inv hi.fleet hok hs
    locks := locks_step hi.locks hq
    length := hi.length
    watched := watched_step hi.watched hi.fleet hok hs fun _ _ _ _ _ e => nomatch e
    origin := hi.origin
    answered := le_rfl
    handlers := fun k h hk => (hi.handlers k h hk).mono le_rfl le_rfl
    covered := .inr (covered_of_pending hr ⟨hkind, hkey⟩ hpending) }

/-- The handlers after a step of the fleet. -/
theorem getElem?_called {op : FleetOp} (hk : (s.handlers ++ s.called w op)[k]? = some (some h)) :
    s.handlers[k]? = some (some h) ∨ h = .called := by
  rw [List.getElem?_append] at hk
  split at hk
  · exact .inl hk
  · right
    have hmem := List.mem_of_getElem? hk
    unfold State.called at hmem
    split at hmem
    · obtain ⟨job, _, hjob⟩ := Option.map_eq_some_iff.mp (Option.mem_toList.mp hmem)
      split at hjob
      · exact (Option.some.inj hjob).symm
      · cases hjob
    · cases hmem

theorem fleetStep_length {f f' : Fleet} {op : FleetOp} (hs : fleetStep f op = some f')
    (hop : ∀ worker now staleAfter tie, op ≠ .claim worker now staleAfter tie) :
    f'.attempts.length = f.attempts.length := by
  cases op with
  | claim worker now staleAfter tie => exact absurd rfl (hop worker now staleAfter tie)
  | lose m =>
    obtain ⟨B, _, rfl⟩ := Option.map_eq_some_iff.mp hs
    exact List.length_set
  | other op =>
    simp only [fleetStep] at hs
    split at hs
    · obtain ⟨db, _, rfl⟩ := Option.map_eq_some_iff.mp hs
      rfl
    · cases hs
  | _ =>
    obtain ⟨B, _, h1⟩ := Option.bind_eq_some_iff.mp hs
    obtain ⟨db, _, rfl⟩ := Option.map_eq_some_iff.mp h1
    exact List.length_set

/-- A claim calls one handler for its attempt; the other steps none. -/
theorem called_length {f' : Fleet} {op : FleetOp} (hs : fleetStep s.fleet op = some f') :
    f'.attempts.length = s.fleet.attempts.length + (s.called w op).length := by
  cases op with
  | claim worker now staleAfter tie =>
    rw [← Option.some.inj hs]
    simp only [State.called, List.length_append]
    cases (claim s.fleet.db.rows worker now staleAfter tie).2 <;> rfl
  | _ => exact fleetStep_length hs fun _ _ _ _ e => nomatch e

/-- What `run_job` and the queue do. -/
theorem SyncInv.fleetStep (hi : SyncInv w s) {op : FleetOp} {f' : Fleet} (hok : claimsAfresh s.fleet op)
    (hspare : spares kind w.key s.fleet op) (hrun : s.mayRun op = true) (hs : fleetStep s.fleet op = some f') :
    SyncInv w { s with fleet := f', handlers := s.handlers ++ s.called w op } where
  fleet := fleetStep_inv hi.fleet hok hs
  locks := by
    rcases fleetStep_db hs with hdb | ⟨op', hdb⟩
    · show Locks f'.db
      rw [hdb]
      exact hi.locks
    · exact locks_step hi.locks hdb
  length := by rw [List.length_append, called_length hs, hi.length]
  watched := by
    refine watched_step (fun k A hA hx r hr hof hf => ?_) hi.fleet hok hs fun worker now staleAfter tie job hop hjob hof => ?_
    · obtain ⟨h, hk⟩ := hi.watched k A hA hx r hr hof hf
      exact ⟨h, by rw [List.getElem?_append_left (List.getElem?_eq_some_iff.mp hk).1]; exact hk⟩
    · refine ⟨.called, ?_⟩
      rw [hop, ← hi.length, List.getElem?_append_right le_rfl, Nat.sub_self]
      simp only [State.called, hjob, Option.map_some, if_pos hof, Option.toList_some, List.getElem?_cons_zero]
  origin := hi.origin
  answered := hi.answered
  handlers k h hk := by
    rcases getElem?_called hk with hk | rfl
    · exact (hi.handlers k h hk).mono le_rfl le_rfl
    · exact ⟨fun _ => (nomatch ·), fun _ => (nomatch ·), fun _ => (nomatch ·), (nomatch ·)⟩
  covered := by
    rcases hi.covered with hle | hcov
    · exact .inl hle
    have hnew : Good s s.fleet.attempts.length := fun h head hk => by
      rw [← hi.length, List.getElem?_eq_none le_rfl] at hk
      cases hk
    rcases covered_step hi.fleet hi.locks hok hspare hnew hcov hs with hcov | ⟨k, now, A, rfl, hA, hx, hgood, r, hr, hof, hf⟩
    · refine .inr (hcov.mono fun k hk h head hh hhead => ?_)
      rcases getElem?_called hh with hh | rfl
      · exact hk h head hh hhead
      · cases hhead
    · -- a push that completes has returned, and not for want of a remote
      obtain ⟨h, hk⟩ := hi.watched k A hA hx r hr hof hf
      simp only [State.mayRun, handler_eq hA hx hk] at hrun
      have hh := hi.handlers k h hk
      cases h with
      | returned head =>
        cases head with
        | none => exact absurd rfl hh.looked
        | some head => exact .inl ((hgood _ head hk rfl).trans (hh.landed head (.inr rfl)))
      | _ => cases hrun

end

/-- A step keeps what answered commits are owed. -/
theorem step_inv {w : Site} {s s' : State} {op : Op} (hi : SyncInv w s) (hok : steady w s op)
    (hs : step w s op = some s') : SyncInv w s' := by
  cases op with
  | fleet op =>
    simp only [step] at hs
    split at hs
    · rename_i hrun
      obtain ⟨f', hf, rfl⟩ := Option.map_eq_some_iff.mp hs
      exact hi.fleetStep hok.1 hok.2 hrun hf
    · cases hs
  | commit =>
    rw [← Option.some.inj hs]
    exact hi.environment (Nat.le_succ _) s.remote s.sshKeys
  | hookBegin =>
    rw [← Option.some.inj hs]
    split
    · exact hi.environment le_rfl s.remote s.sshKeys
    · exact hi
  | hookDirty now =>
    simp only [step] at hs
    split at hs
    · cases hs
    · rw [← Option.some.inj hs]
      exact hi.environment le_rfl _ s.sshKeys
  | hookEnqueue jobId a =>
    simp only [step] at hs
    split at hs
    · cases hs
    split at hs
    · rw [← Option.some.inj hs]
      exact hi.environment le_rfl s.remote s.sshKeys
    · rename_i x hx
      rw [← Option.some.inj hs]
      exact hi.enqueue hx
  | hookFails =>
    simp only [step] at hs
    split at hs
    · cases hs
    · rw [← Option.some.inj hs]
      exact hi.environment le_rfl s.remote s.sshKeys
  | setRemote remote =>
    rw [← Option.some.inj hs]
    exact hi.environment le_rfl remote s.sshKeys
  | setKeys sshKeys =>
    rw [← Option.some.inj hs]
    exact hi.environment le_rfl s.remote sshKeys
  | look k =>
    obtain ⟨r, hr, horigin, henabled⟩ := hok
    simp only [step] at hs
    split at hs
    · rename_i hk
      rw [show s.remote = some r from hr] at hs
      simp only [henabled, if_true] at hs
      rw [← Option.some.inj hs]
      refine hi.handler hk s.remote le_rfl hi.origin ⟨fun _ => (nomatch ·), fun url hu => ?_, fun _ => (nomatch ·), (nomatch ·)⟩
        fun _ => (nomatch ·)
      rw [← Option.some.inj hu]
      exact horigin
    · cases hs
  | readKey k =>
    simp only [step] at hs
    split at hs
    · rename_i originUrl sshKeyId hk
      have hkey : sshKeyId ∈ s.sshKeys := hok _ hk _ rfl
      rw [if_pos hkey] at hs
      rw [← Option.some.inj hs]
      have hh := hi.handlers k _ (handler_some hk)
      exact hi.handler hk s.remote le_rfl hi.origin
        ⟨fun _ => (nomatch ·), fun url hu => hh.originUrl url hu, fun _ => (nomatch ·), (nomatch ·)⟩ fun _ => (nomatch ·)
    · cases hs
  | readHead k =>
    simp only [step] at hs
    split at hs
    · rename_i originUrl hk
      rw [← Option.some.inj hs]
      have hh := hi.handlers k _ (handler_some hk)
      refine hi.handler hk s.remote le_rfl hi.origin
        ⟨fun n hn => ?_, fun url hu => hh.originUrl url hu, fun _ => (nomatch ·), (nomatch ·)⟩ fun n hn => .inr ?_
      · exact (Option.some.inj hn).ge
      · rw [← Option.some.inj hn]
        exact hi.answered
    · cases hs
  | land k =>
    simp only [step] at hs
    split at hs
    · rename_i originUrl head hk
      have hh := hi.handlers k _ (handler_some hk)
      rw [if_neg (not_not_intro (hh.originUrl originUrl rfl))] at hs
      split at hs
      · rename_i hff
        rw [← Option.some.inj hs]
        refine hi.handler hk s.remote hff (hh.head head rfl)
          ⟨hh.head, hh.originUrl, fun n hn => ?_, (nomatch ·)⟩ fun n hn => .inl hn
        rcases hn with hn | hn
        · injection hn with _ hn
          exact hn.ge
        · cases hn
      · cases hs
    · cases hs
  | markPushed k now =>
    simp only [step] at hs
    split at hs
    · rename_i originUrl head hk
      rw [← Option.some.inj hs]
      have hh := hi.handlers k _ (handler_some hk)
      refine hi.handler hk _ le_rfl hi.origin ⟨hh.head, fun _ => (nomatch ·), fun n hn => ?_, (nomatch ·)⟩ fun n hn => .inl hn
      rcases hn with hn | hn
      · cases hn
      · rw [← Option.some.inj (Handler.returned.inj hn)]
        exact hh.landed head (.inl (by rw [hh.originUrl originUrl rfl]))
    · cases hs
  | reject k error =>
    simp only [step] at hs
    split at hs <;> cases hs
    all_goals
      rename_i hk
      exact hi.handler hk _ le_rfl hi.origin
        ⟨fun _ => (nomatch ·), fun _ => (nomatch ·), fun _ hn => (nomatch hn), (nomatch ·)⟩ fun _ => (nomatch ·)
  | raises k error =>
    simp only [step] at hs
    split at hs <;> cases hs
    rename_i hk
    exact hi.handler hk s.remote le_rfl hi.origin
      ⟨fun _ => (nomatch ·), fun _ => (nomatch ·), fun _ hn => (nomatch hn), (nomatch ·)⟩ fun _ => (nomatch ·)

theorem sync_inv {w : Site} {s : State} (h : Reach (sync w) (steady w) s) : SyncInv w s := by
  refine h.inv (fun s hs => ?_) fun s op t _ hi hok hst => step_inv hi hok hst
  rw [show s = .init from hs]
  exact {
    fleet := fleetInv_reach (.start rfl)
    locks := ⟨fun r hr => absurd hr List.not_mem_nil, fun r hr => absurd hr List.not_mem_nil⟩
    length := rfl
    watched := fun k A hA => by simp [State.init] at hA
    origin := le_rfl
    answered := le_rfl
    handlers := fun k h hk => by simp [State.init] at hk
    covered := .inl le_rfl }

def site : Site := ⟨"u1", "notes", "/w/u1/notes", "git@host:notes.git"⟩

/-- The first push fails, a second commit coalesces with the retry, and its push is the one that lands. -/
def retriedPush : List Op :=
  [.setKeys ["k1"], .setRemote (some ⟨"git@host:notes.git", "k1", true, none, none, none⟩),
   .commit, .hookBegin, .hookDirty 10, .hookEnqueue "j1" ⟨5, 0, 100, 10⟩,
   .fleet (.claim "w1" 11 300 0), .look 0, .readKey 0, .readHead 0, .reject 0 "timeout",
   .fleet (.beginFail 0 "timeout" 12 2 300), .fleet (.finishFail 0),
   .commit, .hookBegin, .hookDirty 13, .hookEnqueue "j2" ⟨5, 0, 100, 13⟩,
   .fleet (.claim "w2" 60 300 0), .look 1, .readKey 1, .readHead 1, .land 1, .markPushed 1 61, .fleet (.complete 1 62)]

end Kajet.Push
