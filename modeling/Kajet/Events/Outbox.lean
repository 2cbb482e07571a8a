import Kajet.Lib.Machine
import Kajet.Lib.Table
import Mathlib.Data.List.Perm.Basic
import Mathlib.Data.List.Sort
import Mathlib.Data.Rat.Defs
import Mathlib.Algebra.Order.Ring.Unbundled.Rat

/-!
# The event outbox and one websocket connection

A publisher reads the clock, and commits its row later; the rows may become visible in any order.  A
connection polls the table from its watermark on, and sends what it finds, oldest first.

* `readSince`        the rows of one poll; `ORDER BY created_at` leaves the order of ties open, it is
                     the argument of the step;
* `Conn.handle`      one turn of the loop over the events of a poll;
* `Op`, `outbox`     publishers, sweeps and the connection as one machine.
-/

namespace Kajet.Events
open Table

/-- `Event` -/
structure Event where
  id : String
  ownerId : String
  kind : String
  payload : String
  createdAt : ℚ
deriving DecidableEq

structure OutboxEvent where
  id : String
  createdAt : ℚ
  payload : String
deriving DecidableEq

def Event.out (e : Event) : OutboxEvent := ⟨e.id, e.createdAt, e.payload⟩

/-- `json.dumps` and `json.loads`. -/
structure Json (α : Type) where
  dumps : α → String
  loads : String → Option α
  loads_dumps : ∀ a, (loads (dumps a)).isSome = true

def wsKinds : List String := ["note_updated", "workspace_changed"]

/-! ## the repository -/

/-- `publish_in_session`: `now` is the clock, `eventId` the generated id. -/
def publish {α : Type} (json : Json α) (eventId ownerId kind : String) (payload : α) (now : ℚ) : Event :=
  ⟨eventId, ownerId, kind, json.dumps payload, now⟩

/-- The rows that `read_since` selects, before `ORDER BY` and the exclusion. -/
def selectSince (events : List Event) (ownerId : String) (kinds : List String) (since : ℚ) :
    List Event :=
  events.filter fun e => e.ownerId = ownerId ∧ e.kind ∈ kinds ∧ since ≤ e.createdAt

/-- `rows` is an order in which the selection can be returned. -/
def Ordered (events : List Event) (ownerId : String) (kinds : List String) (since : ℚ)
    (rows : List Event) : Prop :=
  rows.Perm (selectSince events ownerId kinds since) ∧
    rows.Pairwise fun a b => a.createdAt ≤ b.createdAt

instance (events : List Event) (ownerId : String) (kinds : List String) (since : ℚ)
    (rows : List Event) : Decidable (Ordered events ownerId kinds since rows) :=
  inferInstanceAs (Decidable (_ ∧ _))

def readSince (rows : List Event) (excludeIds : List String) : List OutboxEvent :=
  (rows.filter fun r => r.id ∉ excludeIds).map Event.out

def sweep (events : List Event) (now olderThan : ℚ) : List Event :=
  deleteWhere (fun e => e.createdAt < now - olderThan) events

/-! ## the connection -/

structure Conn where
  watermark : ℚ
  sentAtWatermark : List String
  /-- what is left of the last poll -/
  queue : List OutboxEvent
  /-- what has been sent, and what was skipped for its malformed payload, last first -/
  sent : List OutboxEvent
  skipped : List OutboxEvent
  /-- the rows of the user and the kinds that were in the table at the last successful poll -/
  seen : List Event
deriving DecidableEq

def Conn.new : Conn := ⟨0, [], [], [], [], []⟩

/-- The event is sent, or skipped when its payload does not parse. -/
def Conn.deliver {α : Type} (json : Json α) (c : Conn) (event : OutboxEvent) : Conn :=
  match json.loads event.payload with
  | some _ => { c with sent := event :: c.sent }
  | none => { c with skipped := event :: c.skipped }

def Conn.advance (c : Conn) (event : OutboxEvent) : Conn :=
  if c.watermark < event.createdAt then
    { c with watermark := event.createdAt, sentAtWatermark := [event.id] }
  else { c with sentAtWatermark := event.id :: c.sentAtWatermark }

/-- The body of `for event in events`. -/
def Conn.handle {α : Type} (json : Json α) (c : Conn) (event : OutboxEvent) : Conn :=
  (c.deliver json event).advance event

/-! ## the machine -/

/-- The committed rows, the rows of the open transactions, the ids generated so far, and the
connection while it lives. -/
structure State where
  events : List Event
  staged : List Event
  usedIds : List String
  conn : Option Conn
deriving DecidableEq

inductive Op (α : Type) where
  | stage (eventId ownerId kind : String) (payload : α) (now : ℚ)
  | commit (eventId : String)
  | rollback (eventId : String)
  | sweep (now olderThan : ℚ)
  | read (rows : List Event)
  | readError
  | send
  | close

section
variable {α : Type} (json : Json α) (user : String)

/-- The connection polls, or goes on with the events of the last poll. -/
def Conn.read (events : List Event) (rows : List Event) (c : Conn) : Option Conn :=
  if c.queue = [] ∧ Ordered events user wsKinds c.watermark rows then
    some { c with
      queue := readSince rows c.sentAtWatermark
      seen := events.filter fun e => e.ownerId = user ∧ e.kind ∈ wsKinds }
  else none

def Conn.send (c : Conn) : Option Conn :=
  match c.queue with
  | [] => none
  | event :: queue => some (Conn.handle json { c with queue := queue } event)

def step (s : State) : Op α → Option State
  | .stage eventId ownerId kind payload now =>
    if eventId ∈ s.usedIds then none
    else some { s with
      staged := publish json eventId ownerId kind payload now :: s.staged
      usedIds := eventId :: s.usedIds }
  | .commit eventId => (row Event.id s.staged eventId).map fun e =>
      { s with staged := deleteWhere (fun x => x.id = eventId) s.staged, events := e :: s.events }
  | .rollback eventId => some { s with staged := deleteWhere (fun x => x.id = eventId) s.staged }
  | .sweep now olderThan => some { s with events := Events.sweep s.events now olderThan }
  | .read rows => do
    let c ← s.conn
    let c' ← c.read user s.events rows
    return { s with conn := some c' }
  | .readError => s.conn.map fun _ => s
  | .send => do
    let c ← s.conn
    let c' ← c.send json
    return { s with conn := some c' }
  | .close => some { s with conn := none }

/-- The connection begins at any time: the table has any rows, and publishers may be at work.  The
ids are different, and the clock was not before the epoch. -/
def outbox : Machine State (Op α) where
  start s := s.conn = some Conn.new ∧ ((s.events ++ s.staged).map (·.id)).Nodup ∧
    (∀ e ∈ s.events ++ s.staged, e.id ∈ s.usedIds) ∧ ∀ e ∈ s.events, 0 ≤ e.createdAt
  next := step json user

end
end Kajet.Events
