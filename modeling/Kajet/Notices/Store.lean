import Kajet.Lib.Machine
import Kajet.Lib.Str
import Kajet.Lib.Table
import Mathlib.Data.Rat.Defs

/-!
# Notices

A notice is a standing condition of a user, one row for each user and key.  Raising it again counts it,
the first success resolves it, and a resolved one that is raised again is a new episode.

* `Store`                                        the table, with its keys;
* `raiseInSession`, `resolveInSession`, `acknowledgeInSession`;
* `Op`, `notices`                                the service as a machine; a resolve first looks
                                                 without a lock, and every write commits its event.
-/

namespace Kajet.Notices
open Str Table

/-! ## payloads -/

inductive NoticePayload where
  | embeddingAuth (profileId : Text)
deriving DecidableEq

/-- `^[A-Za-z0-9_-]{1,64}$` -/
def noticeId (t : Text) : Bool :=
  1 ≤ t.length && t.length ≤ 64 && t.all fun c => c.isAlphanum || c = '_' || c = '-'

namespace NoticePayload

def kind : NoticePayload → Text
  | embeddingAuth _ => "embedding_auth".toList

/-- The values of `model_dump`. -/
def fields : NoticePayload → List Text
  | embeddingAuth profileId => [profileId]

/-- `_validated` -/
def valid : NoticePayload → Bool
  | embeddingAuth profileId => noticeId profileId

def key (p : NoticePayload) : Text := join ':' (p.kind :: p.fields)

def modelDumpJson : NoticePayload → Text
  | embeddingAuth profileId => "\x7b\"profile_id\":\"".toList ++ profileId ++ "\"\x7d".toList

end NoticePayload

/-! ## the table -/

structure Notice where
  id : String
  userId : String
  kind : Text
  key : Text
  payload : Text
  count : Nat
  firstSeenAt : ℚ
  lastSeenAt : ℚ
  resolvedAt : Option ℚ
  acknowledgedAt : Option ℚ
  lastDeliveredAt : Option ℚ
deriving DecidableEq

/-- `uq_notices_user_key` -/
def Notice.slot (n : Notice) : String × Text := (n.userId, n.key)

structure Store where
  rows : List Notice
  ids : Keyed Notice.id rows
  slots : Keyed Notice.slot rows

structure RaisedNotice where
  id : String
  count : Nat

/-- This raise started an episode. -/
def RaisedNotice.opened (r : RaisedNotice) : Bool := r.count = 1

/-- The `SET` of the upsert: every expression sees the old row. -/
def Notice.raised (n : Notice) (kind payload : Text) (now : ℚ) : Notice :=
  let reopening := n.resolvedAt.isSome
  { n with
    kind := kind
    payload := payload
    lastSeenAt := now
    resolvedAt := none
    count := if reopening then 1 else n.count + 1
    firstSeenAt := if reopening then now else n.firstSeenAt
    acknowledgedAt := if reopening then none else n.acknowledgedAt
    lastDeliveredAt := if reopening then none else n.lastDeliveredAt }

namespace Store

def empty : Store := ⟨[], .nil, .nil⟩

/-- The values of the insert. -/
def opened (newId userId : String) (kind key payload : Text) (now : ℚ) : Notice :=
  ⟨newId, userId, kind, key, payload, 1, now, now, none, none, none⟩

/-- A generated id that is taken is an `IntegrityError`. -/
def raiseInSession (t : Store) (newId userId : String) (kind key payload : Text) (now : ℚ) :
    Option (Store × RaisedNotice) :=
  match hrow : row Notice.slot t.rows (userId, key) with
  | some n =>
    some (⟨updateWhere (fun n => n.slot = (userId, key)) (·.raised kind payload now) t.rows,
      t.ids.updateWhere fun _ => rfl, t.slots.updateWhere fun _ => rfl⟩,
      ⟨n.id, (n.raised kind payload now).count⟩)
  | none =>
    if hid : ∀ x ∈ t.rows, x.id ≠ newId then
      some (⟨t.rows ++ [opened newId userId kind key payload now], t.ids.append hid,
        t.slots.append (row_eq_none.mp hrow)⟩, ⟨newId, 1⟩)
    else none

/-- The rows of an update, and how many there were. -/
def update (t : Store) (p : Notice → Bool) (f : Notice → Notice) (hid : ∀ n, (f n).id = n.id)
    (hslot : ∀ n, (f n).slot = n.slot) : Store × Nat :=
  (⟨updateWhere p f t.rows, t.ids.updateWhere hid, t.slots.updateWhere hslot⟩, (t.rows.filter p).length)

def resolveInSession (t : Store) (userId : String) (key : Text) (now : ℚ) : Store × Bool :=
  let result := t.update (fun n => n.userId = userId && n.key = key && n.resolvedAt.isNone)
    (fun n => { n with resolvedAt := some now }) (fun _ => rfl) (fun _ => rfl)
  (result.1, result.2 = 1)

def ownedActive (noticeId userId : String) (n : Notice) : Bool :=
  n.id = noticeId && n.userId = userId && n.resolvedAt.isNone

/-- `none` is `NoticeNotFoundError`. -/
def acknowledgeInSession (t : Store) (userId noticeId : String) (now : ℚ) : Option (Store × Bool) :=
  let result := t.update (fun n => ownedActive noticeId userId n && n.acknowledgedAt.isNone)
    (fun n => { n with acknowledgedAt := some now }) (fun _ => rfl) (fun _ => rfl)
  if result.2 = 1 then some (result.1, true)
  else if t.rows.any (ownedActive noticeId userId) then some (t, false)
  else none

def findActiveId (t : Store) (userId : String) (key : Text) : Option String :=
  (t.rows.find? fun n => n.userId = userId && n.key = key && n.resolvedAt.isNone).map (·.id)

end Store

/-! ## the service -/

/-- A committed call, with the time it read from the clock. -/
inductive Call where
  | raised (userId : String) (key : Text) (now : ℚ)
  | resolved (userId : String) (key : Text) (now : ℚ)
  | acknowledged (userId : String) (key : Text) (now : ℚ)
deriving DecidableEq

/-- `events` has the owners of the committed `notices_changed` events, last first; `probing` the
resolves that found a notice and have not run their transaction; `log` the committed calls, last first. -/
structure State where
  notices : Store
  events : List String
  probing : List (String × Text)
  log : List Call

inductive Op where
  | raise_ (userId : String) (payload : NoticePayload) (newId : String) (now : ℚ)
  | probe (userId : String) (payload : NoticePayload)
  | resolve (userId : String) (payload : NoticePayload) (now : ℚ)
  | acknowledge (userId noticeId : String) (now : ℚ)
deriving DecidableEq

/-- `_publish_changed` in the transaction of the change. -/
def State.commit (s : State) (notices : Store) (changed : Bool) (userId : String) (call : Call) : State :=
  { s with
    notices := notices
    events := if changed then userId :: s.events else s.events
    log := call :: s.log }

/-- The key of a notice of the user. -/
def State.keyOf (s : State) (noticeId : String) : Text := ((row Notice.id s.notices.rows noticeId).map (·.key)).getD []

/-- A call that raises leaves nothing. -/
def step (s : State) : Op → Option State
  | .raise_ userId payload newId now =>
    if payload.valid then
      (s.notices.raiseInSession newId userId payload.kind payload.key payload.modelDumpJson now).map fun r =>
        s.commit r.1 r.2.opened userId (.raised userId payload.key now)
    else none
  | .probe userId payload =>
    if payload.valid && (s.notices.findActiveId userId payload.key).isSome then
      some { s with probing := (userId, payload.key) :: s.probing }
    else none
  | .resolve userId payload now =>
    if (userId, payload.key) ∈ s.probing then
      let result := s.notices.resolveInSession userId payload.key now
      some { s.commit result.1 result.2 userId (.resolved userId payload.key now) with
        probing := s.probing.erase (userId, payload.key) }
    else none
  | .acknowledge userId noticeId now =>
    (s.notices.acknowledgeInSession userId noticeId now).map fun r =>
      s.commit r.1 r.2 userId (.acknowledged userId (s.keyOf noticeId) now)

def State.empty : State := ⟨.empty, [], [], []⟩

def notices : Machine State Op where
  start s := s = .empty
  next := step

end Kajet.Notices
