import Kajet.Write.Git
import Mathlib.Data.List.Dedup

/-!
# Workspace transactions of one thread

`_workspace_lock` is reentrant; what the outermost block of a workspace collects, the last recorded hooks and the
deferred callbacks, runs when the lock is released.

* `Body`, `exec`             what a thread does, and the events it leaves in the log;
* `Blocks`                   the log of a workspace as transactions, one after the other;
* `exec_ran`                 every run has such a log, and no hook or callback in it runs under the lock;
* `Accounted`, `Kept`        a transaction whose hooks and callbacks run, and what they have to be like;
* `transactions_iff`         all of them run exactly in the runs whose transactions are like that.
-/

namespace Kajet.Write

/-- A hook or callback, with what it raises. -/
structure Hook where
  id : ℕ
  raises : Option Exc
deriving DecidableEq

structure PostCommitHooks where
  id : ℕ
  hooks : List Hook
deriving DecidableEq

structure Callback where
  id : ℕ
  raises : Option Exc
deriving DecidableEq

/-- `_TransactionState` -/
structure TransactionState where
  postCommitHooks : Option PostCommitHooks
  postRelease : List Callback

/-- Workspaces are known by their resolved paths.  A call is logged with whether the workspace's lock is held. -/
inductive Event where
  | acquired (key : String)
  | recorded (key : String) (hooks : Option PostCommitHooks)
  | deferred (key : String) (callback : Callback)
  | released (key : String)
  | fired (key : String) (hooks : PostCommitHooks) (locked : Bool)
  | hook (key : String) (hook : Hook) (locked : Bool)
  | ran (key : String) (callback : Callback) (locked : Bool)
  /-- a callback that is not deferred -/
  | ranAtOnce (key : String) (callback : Callback) (locked : Bool)
deriving DecidableEq

structure Thread where
  states : String → Option TransactionState
  /-- how often the thread holds the lock of the workspace -/
  depth : String → ℕ
  log : List Event

/-- What a thread does; `refused` is what taking the file lock raises, which only the outermost block takes. -/
inductive Body where
  | pass
  | raise (e : Exc)
  | seq (a b : Body)
  /-- `try: … except Exception: pass` -/
  | attempt (a : Body)
  | transaction (path : String) (refused : Option Exc) (body : Body)
  /-- `commit_changes` of a repository with these hooks; `fails` is what it raises before the commit is recorded -/
  | commit (path : String) (refused : Option Exc) (fails : Option Exc) (hooks : Option PostCommitHooks)
  /-- `defer_workspace_postprocess` -/
  | postprocess (path : String) (callback : Callback)

/-! ## the epilogue -/

section
variable (key : String) (locked : Bool)

/-- The loop of `PostCommitHooks.fire`; an `Exception` is logged. -/
def callHooks : List Hook → List Event × Option Exc
  | [] => ([], none)
  | h :: hooks =>
    if h.raises = some .base then ([.hook key h locked], some .base)
    else
      let (events, raised) := callHooks hooks
      (.hook key h locked :: events, raised)

def firePostCommit : Option PostCommitHooks → List Event × Option Exc
  | none => ([], none)
  | some hooks =>
    let (events, raised) := callHooks key locked hooks.hooks
    (.fired key hooks locked :: events, raised)

def runCallbacks : List Callback → List Event × Option Exc
  | [] => ([], none)
  | c :: callbacks =>
    match c.raises with
    | some e => ([.ran key c locked], some e)
    | none =>
      let (events, raised) := runCallbacks callbacks
      (.ran key c locked :: events, raised)

/-- The outer `finally`. -/
def epilogue (hooks : Option PostCommitHooks) (callbacks : List Callback) : List Event × Option Exc :=
  match firePostCommit key locked hooks with
  | (events, some e) => (events, some e)
  | (events, none) =>
    let (events', raised) := runCallbacks key locked callbacks
    (events ++ events', raised)

end

/-! ## the thread -/

namespace Thread
variable (s : Thread) (key : String)

def emit (events : List Event) : Thread := { s with log := s.log ++ events }

def locked : Bool := 0 < s.depth key

def acquire : Thread := { s with depth := Function.update s.depth key (s.depth key + 1) }

def release : Thread := { s with depth := Function.update s.depth key (s.depth key - 1) }

def setState (state : Option TransactionState) : Thread := { s with states := Function.update s.states key state }

/-- `_record_post_commit` -/
def recordPostCommit (hooks : Option PostCommitHooks) : Thread × Option Exc :=
  match s.states key with
  | none =>
    let (events, raised) := firePostCommit key (s.locked key) hooks
    (s.emit events, raised)
  | some state => ((s.setState key (some { state with postCommitHooks := hooks })).emit [.recorded key hooks], none)

def deferPostprocess (callback : Callback) : Thread × Option Exc :=
  match s.states key with
  | none => (s.emit [.ranAtOnce key callback (s.locked key)], callback.raises)
  | some state => ((s.setState key (some { state with postRelease := state.postRelease ++ [callback] })).emit
      [.deferred key callback], none)

end Thread

/-- `_workspace_lock` around a block -/
def workspaceLock (key : String) (refused : Option Exc) (body : Thread → Thread × Option Exc) (s : Thread) : Thread × Option Exc :=
  match s.states key with
  | some _ =>
    let (s, raised) := body (s.acquire key)
    (s.release key, raised)
  | none =>
    let s := ((s.acquire key).setState key (some ⟨none, []⟩)).emit [.acquired key]
    let (s, raised) := match refused with
      | some e => (s, some e)
      | none => body s
    let state := s.states key
    let s := ((s.setState key none).release key).emit [.released key]
    let (events, raised') := epilogue key (s.locked key) (state.bind (·.postCommitHooks)) (state.elim [] (·.postRelease))
    (s.emit events, raised'.or raised)

/-- `resolve` is the key of a path. -/
def exec (resolve : String → String) : Body → Thread → Thread × Option Exc
  | .pass, s => (s, none)
  | .raise e, s => (s, some e)
  | .seq a b, s =>
    match exec resolve a s with
    | (s, some e) => (s, some e)
    | (s, none) => exec resolve b s
  | .attempt a, s =>
    let (s, raised) := exec resolve a s
    (s, raised.filter (· = .base))
  | .transaction path refused body, s => workspaceLock (resolve path) refused (exec resolve body) s
  | .commit path refused fails hooks, s =>
    workspaceLock (resolve path) refused (fun s => match fails with
      | some e => (s, some e.wrap)
      | none => s.recordPostCommit (resolve path) hooks) s
  | .postprocess path callback, s => s.deferPostprocess (resolve path) callback

/-- A thread that has not begun anything. -/
def idle : Thread := ⟨fun _ => none, fun _ => 0, []⟩

/-! ## loops that stop -/

/-- A list up to the first element that stops. -/
def through {α : Type} (stops : α → Bool) : List α → List α
  | [] => []
  | x :: l => if stops x then [x] else x :: through stops l

theorem through_eq_self {α : Type} {stops : α → Bool} {l : List α} :
    through stops l = l ↔ ∀ x ∈ l.dropLast, stops x = false := by
  induction l with
  | nil => exact iff_of_true rfl fun x hx => nomatch hx
  | cons x l ih =>
    cases l with
    | nil => exact iff_of_true (by unfold through; split <;> rfl) fun x hx => nomatch hx
    | cons y l =>
      rw [List.dropLast_cons_cons, List.forall_mem_cons, ← ih, through]
      cases hx : stops x with
      | true => exact iff_of_false (fun h => nomatch h) fun h => nomatch h.1
      | false => exact ⟨fun h => ⟨rfl, List.tail_eq_of_cons_eq h⟩, fun h => congrArg (x :: ·) h.2⟩

/-! ## the log of a workspace -/

namespace Event

def key : Event → String
  | acquired k | recorded k _ | deferred k _ | released k | fired k _ _ | hook k _ _ | ran k _ _ | ranAtOnce k _ _ => k

/-- A call under the lock. -/
def underLock : Event → Bool
  | fired _ _ locked | hook _ _ locked | ran _ _ locked | ranAtOnce _ _ locked => locked
  | _ => false

/-- Something that a transaction collects. -/
def isRequest : Event → Bool
  | recorded .. | deferred .. => true
  | _ => false

/-- A call at the end of a transaction. -/
def isCall : Event → Bool
  | fired .. | hook .. | ran .. => true
  | _ => false

end Event

def ofKey (key : String) (log : List Event) : List Event := log.filter fun e => e.key = key

def recordedIn (log : List Event) : List (Option PostCommitHooks) := log.filterMap fun
  | .recorded _ hooks => some hooks
  | _ => none

def deferredIn (log : List Event) : List Callback := log.filterMap fun
  | .deferred _ c => some c
  | _ => none

def firedIn (log : List Event) : List PostCommitHooks := log.filterMap fun
  | .fired _ hooks _ => some hooks
  | _ => none

def hooksIn (log : List Event) : List Hook := log.filterMap fun
  | .hook _ h _ => some h
  | _ => none

def ranIn (log : List Event) : List Callback := log.filterMap fun
  | .ran _ c _ => some c
  | _ => none

/-- What is left of a transaction with these requests when the lock is released. -/
def callsOf (key : String) (requests : List Event) : List Event :=
  (epilogue key false ((recordedIn requests).getLast?.bind id) (deferredIn requests)).1

/-- Transactions of the workspace, and callbacks outside of them. -/
inductive Blocks (key : String) : List Event → Prop where
  | nil : Blocks key []
  | atOnce {c : Callback} {rest : List Event} (h : Blocks key rest) : Blocks key (.ranAtOnce key c false :: rest)
  | transaction {requests rest : List Event} (hrequests : ∀ e ∈ requests, e.isRequest = true) (h : Blocks key rest) :
    Blocks key (.acquired key :: (requests ++ .released key :: (callsOf key requests ++ rest)))

theorem Blocks.append {key : String} {a b : List Event} (ha : Blocks key a) (hb : Blocks key b) : Blocks key (a ++ b) := by
  induction ha with
  | nil => exact hb
  | atOnce _ ih => exact .atOnce ih
  | transaction hrequests _ ih =>
    rw [List.cons_append, List.append_assoc, List.cons_append, List.append_assoc]
    exact .transaction hrequests ih

def TransactionState.after (state : TransactionState) (requests : List Event) : TransactionState :=
  ⟨(recordedIn requests).getLast?.getD state.postCommitHooks, state.postRelease ++ deferredIn requests⟩

/-- A transaction of the thread is open exactly when it holds the lock. -/
def Thread.Owns (s : Thread) : Prop := ∀ key, (s.states key).isSome = true ↔ 0 < s.depth key

/-- What a run adds to the log: requests where a transaction is open, whole transactions elsewhere. -/
structure Ran (s s' : Thread) (new : List Event) : Prop where
  log : s'.log = s.log ++ new
  depth : s'.depth = s.depth
  free : ∀ e ∈ new, e.underLock = false
  inside : ∀ key state, s.states key = some state →
    (∀ e ∈ ofKey key new, e.isRequest = true) ∧ s'.states key = some (state.after (ofKey key new))
  outside : ∀ key, s.states key = none → s'.states key = none ∧ Blocks key (ofKey key new)

section
variable {s s' s'' : Thread} {new new' : List Event} {key : String} {held : Bool} {resolve : String → String}

theorem ofKey_append : ofKey key (new ++ new') = ofKey key new ++ ofKey key new' := List.filter_append _ _

theorem TransactionState.after_append (state : TransactionState) :
    state.after (new ++ new') = (state.after new).after new' := by
  unfold TransactionState.after
  simp only [recordedIn, deferredIn, List.filterMap_append, List.getLast?_append, List.append_assoc]
  cases (List.filterMap _ new').getLast? <;> rfl

theorem Ran.refl (s : Thread) : Ran s s [] := by
  refine ⟨(List.append_nil _).symm, rfl, fun e he => (nomatch he), fun key state h => ⟨fun e he => (nomatch he), ?_⟩,
    fun key h => ⟨h, .nil⟩⟩
  rw [h, TransactionState.after]
  exact congrArg some (by simp [ofKey, recordedIn, deferredIn])

theorem Ran.trans (h : Ran s s' new) (h' : Ran s' s'' new') : Ran s s'' (new ++ new') where
  log := by rw [h'.log, h.log, List.append_assoc]
  depth := h'.depth.trans h.depth
  free e he := (List.mem_append.mp he).elim (h.free e) (h'.free e)
  inside key state hstate := by
    obtain ⟨hrequests, hstate⟩ := h.inside key state hstate
    obtain ⟨hrequests', hstate'⟩ := h'.inside key _ hstate
    rw [ofKey_append, TransactionState.after_append]
    exact ⟨fun e he => (List.mem_append.mp he).elim (hrequests e) (hrequests' e), hstate'⟩
  outside key hnone := by
    obtain ⟨hnone, hblocks⟩ := h.outside key hnone
    obtain ⟨hnone', hblocks'⟩ := h'.outside key hnone
    rw [ofKey_append]
    exact ⟨hnone', hblocks.append hblocks'⟩

theorem Ran.owns (h : Ran s s' new) (hs : s.Owns) : s'.Owns := by
  intro key
  rw [h.depth, ← hs key]
  cases hstate : s.states key with
  | none => rw [(h.outside key hstate).1]
  | some state => rw [(h.inside key state hstate).2]; exact Iff.rfl

theorem Thread.Owns.locked (h : s.Owns) (hnone : s.states key = none) : s.locked key = false := by
  refine decide_eq_false fun hlt => ?_
  have hsome := (h key).mpr hlt
  rw [hnone] at hsome
  cases hsome

/-! ## runs -/

/-- A call for the workspace, without its lock. -/
def FreeCall (key : String) (e : Event) : Prop := e.underLock = false ∧ e.key = key ∧ e.isCall = true

/-- The loop calls the hooks up to the first that stops it. -/
theorem callHooks_events (hooks : List Hook) :
    (callHooks key held hooks).1 = (through (fun h => h.raises = some .base) hooks).map (.hook key · held) := by
  induction hooks with
  | nil => rfl
  | cons h hooks ih =>
    rw [callHooks, through]
    by_cases hbase : h.raises = some .base
    · rw [if_pos hbase, if_pos (decide_eq_true hbase)]
      rfl
    · rw [if_neg hbase, if_neg (by simpa using hbase)]
      exact congrArg (.hook key h held :: ·) ih

theorem callHooks_none (hooks : List Hook) :
    (callHooks key held hooks).2 = none ↔ ∀ h ∈ hooks, h.raises ≠ some .base := by
  induction hooks with
  | nil => exact iff_of_true rfl fun h hh => nomatch hh
  | cons h hooks ih =>
    rw [callHooks, List.forall_mem_cons, ← ih]
    by_cases hbase : h.raises = some .base
    · rw [if_pos hbase]
      exact iff_of_false (fun hnone => nomatch hnone) fun hnone => hnone.1 hbase
    · rw [if_neg hbase]
      exact (and_iff_right hbase).symm

theorem runCallbacks_events (callbacks : List Callback) :
    (runCallbacks key held callbacks).1 = (through (fun c => c.raises.isSome) callbacks).map (.ran key · held) := by
  induction callbacks with
  | nil => rfl
  | cons c callbacks ih =>
    rw [runCallbacks, through]
    cases c.raises with
    | some e => rfl
    | none => exact congrArg (.ran key c held :: ·) ih

theorem callHooks_free (hooks : List Hook) : ∀ e ∈ (callHooks key false hooks).1, FreeCall key e := by
  rw [callHooks_events]
  exact List.forall_mem_map.mpr fun h _ => ⟨rfl, rfl, rfl⟩

theorem firePostCommit_free (hooks : Option PostCommitHooks) : ∀ e ∈ (firePostCommit key false hooks).1, FreeCall key e := by
  cases hooks with
  | none => exact fun e he => nomatch he
  | some hooks => exact List.forall_mem_cons.mpr ⟨⟨rfl, rfl, rfl⟩, callHooks_free hooks.hooks⟩

theorem runCallbacks_free (callbacks : List Callback) : ∀ e ∈ (runCallbacks key false callbacks).1, FreeCall key e := by
  rw [runCallbacks_events]
  exact List.forall_mem_map.mpr fun c _ => ⟨rfl, rfl, rfl⟩

theorem epilogue_free (hooks : Option PostCommitHooks) (callbacks : List Callback) :
    ∀ e ∈ (epilogue key false hooks callbacks).1, FreeCall key e := by
  have hfire : ∀ e ∈ (firePostCommit key false hooks).1, FreeCall key e := firePostCommit_free hooks
  unfold epilogue
  split
  · rename_i events e hevents
    rw [hevents] at hfire
    exact hfire
  · rename_i events hevents
    rw [hevents] at hfire
    exact fun e he => (List.mem_append.mp he).elim (hfire e) (runCallbacks_free callbacks e)

theorem ofKey_self (h : ∀ e ∈ new, e.key = key) : ofKey key new = new :=
  List.filter_eq_self.mpr fun e he => decide_eq_true (h e he)

theorem ofKey_other {key' : String} (hne : key' ≠ key) (h : ∀ e ∈ new, e.key = key) : ofKey key' new = [] :=
  List.filter_eq_nil_iff.mpr fun e he hkey => hne ((of_decide_eq_true hkey).symm.trans (h e he))

/-- A request for an open transaction. -/
theorem ran_request {e : Event} {state : TransactionState} (he : e.isRequest = true) (hfree : e.underLock = false)
    (hstate : s.states e.key = some state) :
    Ran s ((s.setState e.key (some (state.after [e]))).emit [e]) [e] := by
  refine ⟨rfl, rfl, fun e' he' => List.mem_singleton.mp he' ▸ hfree, fun key state' h => ?_, fun key h => ?_⟩
  · by_cases hkey : key = e.key
    · subst hkey
      cases hstate.symm.trans h
      have hof : ofKey e.key [e] = [e] := ofKey_self (List.forall_mem_singleton.mpr rfl)
      rw [hof]
      exact ⟨fun e' he' => List.mem_singleton.mp he' ▸ he, Function.update_self ..⟩
    · have hof : ofKey key [e] = [] := ofKey_other hkey (List.forall_mem_singleton.mpr rfl)
      rw [hof]
      refine ⟨fun e' he' => (nomatch he'), ?_⟩
      show Function.update s.states e.key _ key = _
      rw [Function.update_of_ne hkey, h]
      exact congrArg some (by simp [TransactionState.after, recordedIn, deferredIn])
  · have hkey : key ≠ e.key := fun hkey => by rw [hkey, hstate] at h; cases h
    have hof : ofKey key [e] = [] := ofKey_other hkey (List.forall_mem_singleton.mpr rfl)
    rw [hof]
    exact ⟨(Function.update_of_ne hkey ..).trans h, .nil⟩

/-- A callback outside of the transactions of its workspace. -/
theorem ran_atOnce {callback : Callback} (hstate : s.states key = none) :
    Ran s (s.emit [.ranAtOnce key callback false]) [.ranAtOnce key callback false] := by
  refine ⟨rfl, rfl, List.forall_mem_singleton.mpr rfl, fun key' state h => ?_, fun key' h => ⟨h, ?_⟩⟩
  · have hkey : key' ≠ key := fun hkey => by rw [hkey, hstate] at h; cases h
    have hof : ofKey key' [Event.ranAtOnce key callback false] = [] := ofKey_other hkey (List.forall_mem_singleton.mpr rfl)
    rw [hof]
    exact ⟨fun e he => (nomatch he), h.trans (congrArg some (by simp [TransactionState.after, recordedIn, deferredIn]))⟩
  · by_cases hkey : key' = key
    · subst hkey
      have hof : ofKey key' [Event.ranAtOnce key' callback false] = [.ranAtOnce key' callback false] :=
        ofKey_self (List.forall_mem_singleton.mpr rfl)
      rw [hof]
      exact .atOnce .nil
    · have hof : ofKey key' [Event.ranAtOnce key callback false] = [] := ofKey_other hkey (List.forall_mem_singleton.mpr rfl)
      rw [hof]
      exact .nil

theorem release_acquire : Function.update (Function.update s.depth key (s.depth key + 1)) key
    ((Function.update s.depth key (s.depth key + 1)) key - 1) = s.depth := by
  funext key'
  by_cases hkey : key' = key
  · subst hkey
    rw [Function.update_self, Function.update_self, Nat.add_sub_cancel]
  · rw [Function.update_of_ne hkey, Function.update_of_ne hkey]

theorem Thread.Owns.acquire (hs : s.Owns) {states : String → Option TransactionState} {log : List Event}
    (hself : (states key).isSome = true) (hother : ∀ key', key' ≠ key → states key' = s.states key') :
    Thread.Owns ⟨states, (s.acquire key).depth, log⟩ := by
  intro key'
  show (states key').isSome = true ↔ 0 < Function.update s.depth key (s.depth key + 1) key'
  by_cases hkey : key' = key
  · subst hkey
    rw [Function.update_self]
    exact iff_of_true hself (Nat.succ_pos _)
  · rw [Function.update_of_ne hkey, hother key' hkey]
    exact hs key'

/-- A block of a workspace whose lock the thread has. -/
theorem Ran.nested (h : Ran (s.acquire key) s' new) :
    Ran s (s'.release key) new where
  log := h.log
  depth := by
    show Function.update s'.depth key (s'.depth key - 1) = s.depth
    rw [h.depth]
    exact release_acquire
  free := h.free
  inside := h.inside
  outside := h.outside

theorem callsOf_free (requests : List Event) : ∀ e ∈ callsOf key requests, FreeCall key e := epilogue_free _ _

/-- The other workspaces see the body only. -/
theorem ofKey_outermost {key' : String} (hne : key' ≠ key) :
    ofKey key' (Event.acquired key :: (new ++ Event.released key :: callsOf key (ofKey key new))) = ofKey key' new := by
  have hfirst : ofKey key' [Event.acquired key] = [] := ofKey_other hne (List.forall_mem_singleton.mpr rfl)
  have hlast : ofKey key' (Event.released key :: callsOf key (ofKey key new)) = [] :=
    ofKey_other hne (List.forall_mem_cons.mpr ⟨rfl, fun e he => (callsOf_free _ e he).2.1⟩)
  rw [← List.singleton_append, ofKey_append, ofKey_append, hfirst, hlast, List.nil_append, List.append_nil]

theorem ofKey_transaction :
    ofKey key (Event.acquired key :: (new ++ Event.released key :: callsOf key (ofKey key new))) =
      Event.acquired key :: (ofKey key new ++ Event.released key :: (callsOf key (ofKey key new) ++ [])) := by
  have hfirst : ofKey key [Event.acquired key] = [.acquired key] := ofKey_self (List.forall_mem_singleton.mpr rfl)
  have hlast : ofKey key (Event.released key :: callsOf key (ofKey key new)) =
      Event.released key :: callsOf key (ofKey key new) := ofKey_self (List.forall_mem_cons.mpr ⟨rfl, fun e he => (callsOf_free _ e he).2.1⟩)
  rw [← List.singleton_append, ofKey_append, ofKey_append, hfirst, hlast, List.append_nil, List.singleton_append]

/-- The outermost block of a workspace. -/
theorem Ran.outermost (hnone : s.states key = none)
    (h : Ran (((s.acquire key).setState key (some ⟨none, []⟩)).emit [.acquired key]) s' new) :
    Ran s ((((s'.setState key none).release key).emit [.released key]).emit (callsOf key (ofKey key new)))
      (.acquired key :: (new ++ .released key :: callsOf key (ofKey key new))) where
  log := by
    show s'.log ++ [.released key] ++ callsOf key (ofKey key new) = _
    rw [h.log]
    show s.log ++ [.acquired key] ++ new ++ [.released key] ++ _ = _
    simp only [List.append_assoc, List.cons_append, List.nil_append]
  depth := by
    show Function.update s'.depth key (s'.depth key - 1) = s.depth
    rw [h.depth]
    exact release_acquire
  free := by
    refine List.forall_mem_cons.mpr ⟨rfl, fun e he => (List.mem_append.mp he).elim (h.free e) fun he => ?_⟩
    rcases List.mem_cons.mp he with rfl | he
    · rfl
    · exact (callsOf_free _ e he).1
  inside key' state hstate := by
    have hne : key' ≠ key := fun heq => by rw [heq, hnone] at hstate; cases hstate
    rw [ofKey_outermost hne]
    obtain ⟨hrequests, hstate'⟩ := h.inside key' state ((Function.update_of_ne hne ..).trans hstate)
    exact ⟨hrequests, (Function.update_of_ne hne ..).trans hstate'⟩
  outside key' hnone' := by
    by_cases hne : key' = key
    · subst hne
      refine ⟨Function.update_self .., ?_⟩
      rw [ofKey_transaction]
      exact .transaction (h.inside key' _ (Function.update_self ..)).1 .nil
    · rw [ofKey_outermost hne]
      obtain ⟨hnone'', hblocks⟩ := h.outside key' ((Function.update_of_ne hne ..).trans hnone')
      exact ⟨(Function.update_of_ne hne ..).trans hnone'', hblocks⟩

/-- The lock is free again, so what is left of the transaction runs without it. -/
theorem Ran.closed (hs : s.Owns) (hnone : s.states key = none)
    (h : Ran (((s.acquire key).setState key (some ⟨none, []⟩)).emit [.acquired key]) s' new) :
    Ran s ((((s'.setState key none).release key).emit [.released key]).emit
      (epilogue key ((((s'.setState key none).release key).emit [.released key]).locked key)
        ((s'.states key).bind (·.postCommitHooks)) ((s'.states key).elim [] (·.postRelease))).1)
      (.acquired key :: (new ++ .released key :: callsOf key (ofKey key new))) := by
  have hrun := h.outermost hnone
  have hstate : s'.states key = some (TransactionState.after ⟨none, []⟩ (ofKey key new)) :=
    (h.inside key _ (Function.update_self ..)).2
  have hdepth : (s'.release key).depth = s.depth := hrun.depth
  have hfree : Thread.locked (((s'.setState key none).release key).emit [.released key]) key = false := by
    show decide (0 < (s'.release key).depth key) = false
    rw [hdepth]
    exact hs.locked hnone
  have hlast : (recordedIn (ofKey key new)).getLast?.getD none = (recordedIn (ofKey key new)).getLast?.bind id := by
    cases (recordedIn (ofKey key new)).getLast? <;> rfl
  have hcalls : (epilogue key false ((s'.states key).bind (·.postCommitHooks)) ((s'.states key).elim [] (·.postRelease))).1 =
      callsOf key (ofKey key new) := by
    rw [hstate]
    show (epilogue key false ((recordedIn (ofKey key new)).getLast?.getD none) ([] ++ deferredIn (ofKey key new))).1 = _
    rw [hlast, List.nil_append, callsOf]
  rw [hfree, hcalls]
  exact hrun

/-- The lock around a block that runs as it should. -/
theorem workspaceLock_ran {refused : Option Exc} {body : Thread → Thread × Option Exc}
    (hbody : ∀ s, s.Owns → (s.states key).isSome = true → ∃ new, Ran s (body s).1 new) (hs : s.Owns) :
    ∃ new, Ran s (workspaceLock key refused body s).1 new := by
  unfold workspaceLock
  cases hstate : s.states key with
  | some state =>
    obtain ⟨new, hran⟩ := hbody (s.acquire key) (hs.acquire (by rw [hstate]; rfl) fun _ _ => rfl) (by
      show (s.states key).isSome = true
      rw [hstate]
      rfl)
    exact ⟨new, hran.nested⟩
  | none =>
    cases refused with
    | some e => exact ⟨_, (Ran.refl _).closed hs hstate⟩
    | none =>
      have hself : (Function.update s.states key (some ⟨none, []⟩) key).isSome = true := by
        rw [Function.update_self]
        rfl
      have howns : Thread.Owns (((s.acquire key).setState key (some ⟨none, []⟩)).emit [.acquired key]) :=
        hs.acquire hself fun key' hne => Function.update_of_ne hne ..
      obtain ⟨new, hran⟩ := hbody _ howns hself
      exact ⟨_, hran.closed hs hstate⟩

theorem exec_ran (body : Body) (hs : s.Owns) : ∃ new, Ran s (exec resolve body s).1 new := by
  induction body generalizing s with
  | pass => exact ⟨[], .refl s⟩
  | raise e => exact ⟨[], .refl s⟩
  | seq a b iha ihb =>
    obtain ⟨new, hran⟩ := iha hs
    unfold exec
    split
    · rename_i s' e hexec
      rw [hexec] at hran
      exact ⟨new, hran⟩
    · rename_i s' hexec
      rw [hexec] at hran
      obtain ⟨new', hran'⟩ := ihb (hran.owns hs)
      exact ⟨new ++ new', hran.trans hran'⟩
  | attempt a ih => exact ih hs
  | transaction path refused body ih => exact workspaceLock_ran (fun s hs _ => ih hs) hs
  | commit path refused fails hooks =>
    refine workspaceLock_ran (fun s hs hsome => ?_) hs
    cases fails with
    | some e => exact ⟨[], .refl s⟩
    | none =>
      obtain ⟨state, hstate⟩ := Option.isSome_iff_exists.mp hsome
      refine ⟨[.recorded (resolve path) hooks], ?_⟩
      have hran := @ran_request s (.recorded (resolve path) hooks) state rfl rfl hstate
      show Ran s (s.recordPostCommit (resolve path) hooks).1 _
      rw [Thread.recordPostCommit, hstate]
      simpa [TransactionState.after, recordedIn, deferredIn, Event.key] using hran
  | postprocess path callback =>
    show ∃ new, Ran s (s.deferPostprocess (resolve path) callback).1 new
    unfold Thread.deferPostprocess
    cases hstate : s.states (resolve path) with
    | some state =>
      have hran := @ran_request s (.deferred (resolve path) callback) state rfl rfl hstate
      refine ⟨[.deferred (resolve path) callback], ?_⟩
      simpa [TransactionState.after, recordedIn, deferredIn, Event.key] using hran
    | none =>
      rw [hs.locked hstate]
      exact ⟨[.ranAtOnce (resolve path) callback false], ran_atOnce hstate⟩

end

/-! ## transactions of a log -/

/-- A transaction of a workspace: what was asked of it under the lock, and what ran right after. -/
structure Transaction where
  requests : List Event
  calls : List Event
deriving DecidableEq

def transactionsIn (key : String) : List Event → List Transaction
  | [] => []
  | e :: log =>
    if e = .acquired key then
      ⟨log.takeWhile (· ≠ .released key), ((log.dropWhile (· ≠ .released key)).drop 1).takeWhile Event.isCall⟩ ::
        transactionsIn key log
    else transactionsIn key log

/-- Recorded hooks fire once, all of them; the callbacks run once, in their order. -/
structure Transaction.Accounted (t : Transaction) : Prop where
  fired : ∀ hooks, (firedIn t.calls).count hooks = if some hooks ∈ recordedIn t.requests then 1 else 0
  hooks : hooksIn t.calls = (firedIn t.calls).flatMap (·.hooks)
  ran : ranIn t.calls = deferredIn t.requests

/-- No other hooks or none recorded over hooks, and nothing that stops the epilogue before its last call. -/
structure Kept (requests : List Event) : Prop where
  last : ∀ hooks, some hooks ∈ recordedIn requests → (recordedIn requests).getLast? = some (some hooks)
  hooks : ∀ hooks, some hooks ∈ recordedIn requests → ∀ h ∈ hooks.hooks.dropLast, h.raises ≠ some .base
  handed : ∀ hooks, some hooks ∈ recordedIn requests → deferredIn requests ≠ [] → ∀ h ∈ hooks.hooks, h.raises ≠ some .base
  callbacks : ∀ c ∈ (deferredIn requests).dropLast, c.raises = none

section
variable {key : String} {requests log new : List Event}

theorem transactionsIn_skip (h : .acquired key ∉ new) : transactionsIn key (new ++ log) = transactionsIn key log := by
  induction new with
  | nil => rfl
  | cons e new ih =>
    rw [List.cons_append, transactionsIn, if_neg fun he : e = .acquired key => h (he ▸ List.mem_cons_self ..)]
    exact ih fun hmem => h (List.mem_cons_of_mem _ hmem)

/-- Nothing that follows a transaction is a call of it. -/
theorem Blocks.head_not_call (h : Blocks key log) : log.takeWhile Event.isCall = [] := by
  cases h <;> rfl

theorem Blocks.transactionsIn (h : Blocks key log) :
    ∀ t ∈ transactionsIn key log, t = ⟨t.requests, callsOf key t.requests⟩ := by
  induction h with
  | nil => exact fun t ht => nomatch ht
  | atOnce _ ih => exact ih
  | @transaction requests rest hrequests h ih =>
    have hne : ∀ e ∈ requests, decide (e ≠ .released key) = true := fun e he =>
      decide_eq_true fun heq => by have hreq := hrequests e he; rw [heq] at hreq; cases hreq
    have hcalls : ∀ e ∈ callsOf key requests, e.isCall = true := fun e he => (callsOf_free requests e he).2.2
    have htake : (requests ++ .released key :: (callsOf key requests ++ rest)).takeWhile (· ≠ .released key) = requests := by
      rw [List.takeWhile_append_of_pos hne, List.takeWhile_cons_of_neg (by simp), List.append_nil]
    have hdrop : ((requests ++ .released key :: (callsOf key requests ++ rest)).dropWhile (· ≠ .released key)).drop 1 =
        callsOf key requests ++ rest := by
      rw [List.dropWhile_append_of_pos hne, List.dropWhile_cons_of_neg (by simp), List.drop_one, List.tail_cons]
    rw [Write.transactionsIn, if_pos rfl, htake, hdrop, List.takeWhile_append_of_pos hcalls, h.head_not_call, List.append_nil]
    refine List.forall_mem_cons.mpr ⟨rfl, ?_⟩
    have hskip : .acquired key ∉ requests ++ .released key :: callsOf key requests := by
      intro hmem
      rcases List.mem_append.mp hmem with hmem | hmem
      · cases hrequests _ hmem
      · rcases List.mem_cons.mp hmem with heq | hmem
        · cases heq
        · cases hcalls _ hmem
    have hrest : Write.transactionsIn key ((requests ++ .released key :: callsOf key requests) ++ rest) =
        Write.transactionsIn key rest := transactionsIn_skip hskip
    rw [List.append_assoc, List.cons_append] at hrest
    rw [hrest]
    exact ih

/-! ## when everything runs -/

theorem callsOf_none (hlast : (recordedIn requests).getLast?.bind id = none) :
    callsOf key requests = (through (fun c => c.raises.isSome) (deferredIn requests)).map (.ran key · false) := by
  rw [callsOf, hlast]
  exact runCallbacks_events _

theorem callsOf_some {hooks : PostCommitHooks} (hlast : (recordedIn requests).getLast?.bind id = some hooks) :
    callsOf key requests = .fired key hooks false ::
      ((through (fun h => h.raises = some .base) hooks.hooks).map (.hook key · false) ++
        if ∀ h ∈ hooks.hooks, h.raises ≠ some .base
          then (through (fun c => c.raises.isSome) (deferredIn requests)).map (.ran key · false) else []) := by
  rw [callsOf, hlast, epilogue, firePostCommit, ← callHooks_events, ← runCallbacks_events]
  have hnone := @callHooks_none key false hooks.hooks
  cases hraised : (callHooks key false hooks.hooks).2 with
  | none =>
    rw [if_pos (hnone.mp hraised)]
    dsimp only
    rw [hraised]
    rfl
  | some e =>
    rw [if_neg fun hall => by rw [hnone.mpr hall] at hraised; cases hraised]
    dsimp only
    rw [hraised, List.append_nil]

theorem through_if {α : Type} {stops : α → Bool} {l : List α} {P : Prop} [Decidable P] :
    (if P then through stops l else []) = l ↔ (l ≠ [] → P) ∧ ∀ x ∈ l.dropLast, stops x = false := by
  by_cases hP : P
  · rw [if_pos hP, through_eq_self]
    exact (and_iff_right fun _ => hP).symm
  · rw [if_neg hP]
    cases l with
    | nil => exact iff_of_true rfl ⟨fun h => absurd rfl h, fun x hx => nomatch hx⟩
    | cons x l => exact iff_of_false (fun h => nomatch h) fun h => hP (h.1 (List.cons_ne_nil x l))

theorem accounted_none (hlast : (recordedIn requests).getLast?.bind id = none) :
    Transaction.Accounted ⟨requests, callsOf key requests⟩ ↔ Kept requests := by
  have hcalls := @callsOf_none key requests hlast
  have hfired : firedIn (callsOf key requests) = [] := by
    rw [hcalls]
    simp [firedIn]
  have hhooks : hooksIn (callsOf key requests) = [] := by
    rw [hcalls]
    simp [hooksIn]
  have hran : ranIn (callsOf key requests) = through (fun c => c.raises.isSome) (deferredIn requests) := by
    rw [hcalls]
    simp [ranIn]
  constructor
  · intro h
    have hnot : ∀ hooks, some hooks ∉ recordedIn requests := fun hooks hmem => by
      have hcount := h.fired hooks
      rw [hfired, if_pos hmem] at hcount
      cases hcount
    have hall := h.ran
    rw [hran, through_eq_self] at hall
    exact ⟨fun hooks hmem => absurd hmem (hnot hooks), fun hooks hmem => absurd hmem (hnot hooks),
      fun hooks hmem => absurd hmem (hnot hooks), fun c hc => Option.isNone_iff_eq_none.mp (Option.isSome_eq_false_iff.mp (hall c hc))⟩
  · intro h
    refine ⟨fun hooks => ?_, ?_, ?_⟩
    · have hnot : some hooks ∉ recordedIn requests := fun hmem => by
        rw [h.last hooks hmem] at hlast
        cases hlast
      rw [hfired, if_neg hnot]
      rfl
    · rw [hhooks, hfired]
      rfl
    · rw [hran, through_eq_self]
      exact fun c hc => by rw [h.callbacks c hc]; rfl

theorem accounted_some {hooks : PostCommitHooks} (hlast : (recordedIn requests).getLast? = some (some hooks)) :
    Transaction.Accounted ⟨requests, callsOf key requests⟩ ↔ Kept requests := by
  have hcalls := @callsOf_some key requests hooks (by rw [hlast]; rfl)
  have hmem : some hooks ∈ recordedIn requests := List.mem_of_getLast? hlast
  have hfired : firedIn (callsOf key requests) = [hooks] := by
    rw [hcalls]
    split <;> simp [firedIn]
  have hhooks : hooksIn (callsOf key requests) = through (fun h => h.raises = some .base) hooks.hooks := by
    rw [hcalls]
    split <;> simp [hooksIn]
  have hran : ranIn (callsOf key requests) = if ∀ h ∈ hooks.hooks, h.raises ≠ some .base
      then through (fun c => c.raises.isSome) (deferredIn requests) else [] := by
    rw [hcalls]
    split <;> simp [ranIn]
  constructor
  · intro h
    have honly : ∀ hooks', some hooks' ∈ recordedIn requests → hooks' = hooks := fun hooks' hmem' => by
      have hcount := h.fired hooks'
      rw [hfired, if_pos hmem'] at hcount
      by_contra hne
      rw [List.count_eq_zero.mpr fun hin => hne (List.mem_singleton.mp hin)] at hcount
      cases hcount
    have hthrough := h.hooks
    rw [hhooks, hfired, List.flatMap_singleton, through_eq_self] at hthrough
    have hall := h.ran
    rw [hran, through_if] at hall
    refine ⟨fun hooks' hmem' => ?_, fun hooks' hmem' h hh => ?_, fun hooks' hmem' hdef => ?_, fun c hc => ?_⟩
    · rw [honly hooks' hmem']
      exact hlast
    · rw [honly hooks' hmem'] at hh
      exact of_decide_eq_false (hthrough h hh)
    · rw [honly hooks' hmem']
      exact hall.1 hdef
    · exact Option.isNone_iff_eq_none.mp (Option.isSome_eq_false_iff.mp (hall.2 c hc))
  · intro h
    have honly : ∀ hooks', some hooks' ∈ recordedIn requests ↔ hooks' = hooks := fun hooks' =>
      ⟨fun hmem' => Option.some.inj (Option.some.inj ((h.last hooks' hmem').symm.trans hlast)), fun heq => heq ▸ hmem⟩
    refine ⟨fun hooks' => ?_, ?_, ?_⟩
    · rw [hfired]
      by_cases heq : hooks' = hooks
      · rw [if_pos ((honly hooks').mpr heq), heq, List.count_singleton_self]
      · rw [if_neg fun hmem' => heq ((honly hooks').mp hmem')]
        exact List.count_eq_zero.mpr fun hin => heq (List.mem_singleton.mp hin)
    · rw [hhooks, hfired, List.flatMap_singleton, through_eq_self]
      exact fun hook hh => decide_eq_false (h.hooks hooks hmem hook hh)
    · rw [hran, through_if]
      exact ⟨h.handed hooks hmem, fun c hc => by rw [h.callbacks c hc]; rfl⟩

theorem accounted_callsOf : Transaction.Accounted ⟨requests, callsOf key requests⟩ ↔ Kept requests := by
  cases hlast : (recordedIn requests).getLast? with
  | none => exact accounted_none (by rw [hlast]; rfl)
  | some last =>
    cases last with
    | none => exact accounted_none (by rw [hlast]; rfl)
    | some hooks => exact accounted_some hlast

theorem idle_owns : idle.Owns := fun _ => iff_of_false (fun h => nomatch h) (Nat.lt_irrefl 0)

/-- Nothing ever runs under the lock, and the hooks and callbacks of every transaction run once if and only if each
transaction of the run is `Kept`. -/
theorem transactions_iff (resolve : String → String) (body : Body) :
    ((∀ e ∈ (exec resolve body idle).1.log, e.underLock = false) ∧
      ∀ key, ∀ t ∈ transactionsIn key (ofKey key (exec resolve body idle).1.log), t.Accounted) ↔
    ∀ key, ∀ t ∈ transactionsIn key (ofKey key (exec resolve body idle).1.log), Kept t.requests := by
  obtain ⟨new, hran⟩ : ∃ new, Ran idle (exec resolve body idle).1 new := exec_ran body idle_owns
  have hlog : (exec resolve body idle).1.log = new := hran.log
  have hiff : ∀ key, ∀ t ∈ transactionsIn key (ofKey key new), t.Accounted ↔ Kept t.requests := by
    intro key t ht
    have hshape := (hran.outside key rfl).2.transactionsIn t ht
    rw [hshape]
    exact accounted_callsOf
  rw [hlog, and_iff_right hran.free]
  exact forall_congr' fun key => forall₂_congr (hiff key)

/-- A second commit without hooks. -/
theorem overwritten_not_fired :
    ¬ ∀ (resolve : String → String) (body : Body), (∀ e ∈ (exec resolve body idle).1.log, e.underLock = false) ∧
      ∀ key, ∀ t ∈ transactionsIn key (ofKey key (exec resolve body idle).1.log), t.Accounted := by
  intro h
  have hfired := ((h id (.transaction "w" none (.seq (.commit "w" none none (some ⟨0, []⟩)) (.commit "w" none none none)))).2
    "w" ⟨[.recorded "w" (some ⟨0, []⟩), .recorded "w" none], []⟩ (by decide)).fired ⟨0, []⟩
  exact absurd hfired (by decide)

end

end Kajet.Write
