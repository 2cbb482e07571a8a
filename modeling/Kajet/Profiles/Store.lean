import Kajet.Lib.Machine
import Kajet.Lib.Table

/-!
# Embedding profiles

Each user has profiles, one of which is active.  The flag is a column of its rows, and every request
decides it from rows that it read before its transaction began; a `SELECT` before the first write holds
nothing, so other requests commit in between.  Deleting the active profile promotes another one in a
second transaction.

* `Profile`, `Store`      the table;
* `Request`               a request between its reads and its commits, with what it has read;
* `Op`, `step`, `profiles`   the steps of the requests, in any order; a request may die between them.
-/

namespace Kajet.Profiles
open Table

structure Profile where
  id : String
  userId : String
  name : String
  baseUrl : String
  model : String
  apiKeyEnc : Option String
  dim : Nat
  isActive : Bool
  createdAt : String
  updatedAt : String
deriving DecidableEq

/-- What a request carries of a profile. -/
structure Fields where
  name : String
  baseUrl : String
  model : String
  apiKeyEnc : Option String
  dim : Nat
deriving DecidableEq

/-- The row after an `UPDATE` of the columns whose values are not the loaded ones. -/
def Profile.change (loaded : Profile) (fields : Fields) (now : String) (x : Profile) : Profile where
  id := x.id
  userId := x.userId
  name := if fields.name = loaded.name then x.name else fields.name
  baseUrl := if fields.baseUrl = loaded.baseUrl then x.baseUrl else fields.baseUrl
  model := if fields.model = loaded.model then x.model else fields.model
  apiKeyEnc := if fields.apiKeyEnc = loaded.apiKeyEnc then x.apiKeyEnc else fields.apiKeyEnc
  dim := if fields.dim = loaded.dim then x.dim else fields.dim
  isActive := x.isActive
  createdAt := x.createdAt
  updatedAt := if now = loaded.updatedAt then x.updatedAt else now

structure Store where
  rows : List Profile
  ids : Keyed Profile.id rows

/-- A request in progress. -/
inductive Request where
  /-- `create`: whether it saw no profile of the user -/
  | creating (userId : String) (sawNone : Bool)
  /-- `set_active`: the target was loaded, with its flag -/
  | setting (userId profileId : String) (wasActive : Bool)
  /-- `set_active`: whether the target's flag is going to change, and the others that were read as active -/
  | switching (userId profileId : String) (lights : Bool) (active : List String)
  /-- `update`: the profile was loaded -/
  | updating (loaded : Profile)
  /-- `delete`: the profile was loaded, with its flag -/
  | deleting (userId profileId : String) (wasActive : Bool)
  /-- `delete`, after its first commit: the active profile is gone -/
  | promoting (userId : String)
  /-- `delete`, after its first commit: an inactive profile was loaded as the successor -/
  | promotingTo (userId profileId : String)
deriving DecidableEq

structure State where
  profiles : Store
  open_ : List Request

inductive Op where
  /-- `create` reads; `insert` commits -/
  | create (userId : String)
  | insert (userId : String) (sawNone : Bool) (newId : String) (fields : Fields) (now : String)
  /-- `set_active` reads the target, then all profiles; `switch` commits -/
  | setActive (userId profileId : String)
  | readAll (userId profileId : String) (wasActive : Bool)
  | switch (userId profileId : String) (lights : Bool) (active : List String)
  /-- `update` reads; `write` commits -/
  | update (userId profileId : String)
  | write (loaded : Profile) (fields : Fields) (now : String)
  /-- `delete` reads; `remove` commits; `succeed` reads; `promote` commits -/
  | delete (userId profileId : String)
  | remove (userId profileId : String) (wasActive : Bool)
  | succeed (userId : String) (successor : Option String)
  | promote (userId profileId : String)
  /-- the process dies -/
  | die (request : Request)
deriving DecidableEq

namespace Store

def empty : Store := ⟨[], .nil⟩

def update (t : Store) (p : Profile → Bool) (f : Profile → Profile) (hf : ∀ x, (f x).id = x.id) : Store :=
  ⟨updateWhere p f t.rows, t.ids.updateWhere hf⟩

/-- The flags of some profiles are set. -/
def setFlags (t : Store) (p : Profile → Bool) (isActive : Bool) : Store :=
  t.update p (fun x => { x with isActive := isActive }) fun _ => rfl

def delete (t : Store) (profileId : String) : Store :=
  ⟨deleteWhere (fun x => x.id = profileId) t.rows, t.ids.deleteWhere⟩

/-- `session.get`, when the row is the user's -/
def get (t : Store) (userId profileId : String) : Option Profile :=
  (row Profile.id t.rows profileId).filter fun x => x.userId = userId

def has (t : Store) (profileId : String) : Bool := (row Profile.id t.rows profileId).isSome

end Store

/-- The id of a row that the request is about. -/
def Request.names : Request → List String
  | .setting _ profileId _ | .deleting _ profileId _ | .promotingTo _ profileId => [profileId]
  | .updating loaded => [loaded.id]
  | .switching _ profileId _ active => profileId :: active
  | .creating .. | .promoting _ => []

/-- The order of `created_at`, last first. -/
def newest (t : Store) (userId : String) (x : Profile) : Bool :=
  t.rows.all fun y => y.userId ≠ userId || y.createdAt ≤ x.createdAt

/-- The request goes on as `next`, if it does. -/
def State.resume (s : State) (profiles : Store) (request : Request) (next : Option Request) : Option State :=
  if request ∈ s.open_ then some ⟨profiles, next.toList ++ s.open_.erase request⟩ else none

def step (s : State) : Op → Option State
  | .create userId =>
    some { s with open_ := .creating userId (!s.profiles.rows.any fun x => x.userId = userId) :: s.open_ }
  | .insert userId sawNone newId fields now =>
    -- a generated id is no id that a request knows
    if s.open_.any fun request => newId ∈ request.names then none
    else if hnew : ∀ x ∈ s.profiles.rows, x.id ≠ newId then
      s.resume ⟨s.profiles.rows ++ [⟨newId, userId, fields.name, fields.baseUrl, fields.model, fields.apiKeyEnc,
        fields.dim, sawNone, now, now⟩], s.profiles.ids.append hnew⟩ (.creating userId sawNone) none
    else s.resume s.profiles (.creating userId sawNone) none
  | .setActive userId profileId =>
    (s.profiles.get userId profileId).map fun x =>
      { s with open_ := .setting userId profileId x.isActive :: s.open_ }
  | .readAll userId profileId wasActive =>
    -- the flag of the target is the one that was loaded first
    let mine := s.profiles.rows.filter fun x => x.userId = userId
    let others := (mine.filter fun x => x.id ≠ profileId && x.isActive).map (·.id)
    s.resume s.profiles (.setting userId profileId wasActive)
      (some (.switching userId profileId (mine.any (fun x => x.id = profileId) && !wasActive) others))
  | .switch userId profileId lights active =>
    -- only flags that change are written; a row that is gone is a `StaleDataError`
    if active.all s.profiles.has && (!lights || s.profiles.has profileId) then
      let off := s.profiles.setFlags (fun x => x.id ∈ active) false
      s.resume (if lights then off.setFlags (fun x => x.id = profileId) true else off)
        (.switching userId profileId lights active) none
    else s.resume s.profiles (.switching userId profileId lights active) none
  | .update userId profileId =>
    (s.profiles.get userId profileId).map fun x => { s with open_ := .updating x :: s.open_ }
  | .write loaded fields now =>
    s.resume (s.profiles.update (fun x => x.id = loaded.id) (loaded.change fields now) fun _ => rfl)
      (.updating loaded) none
  | .delete userId profileId =>
    (s.profiles.get userId profileId).map fun x =>
      { s with open_ := .deleting userId profileId x.isActive :: s.open_ }
  | .remove userId profileId wasActive =>
    s.resume (s.profiles.delete profileId) (.deleting userId profileId wasActive)
      (if wasActive then some (.promoting userId) else none)
  | .succeed userId successor =>
    match successor with
    | none =>
      if s.profiles.rows.any fun x => x.userId = userId then none
      else s.resume s.profiles (.promoting userId) none
    | some profileId =>
      match (s.profiles.get userId profileId).filter (newest s.profiles userId) with
      | none => none
      | some x => s.resume s.profiles (.promoting userId)
        (if x.isActive then none else some (.promotingTo userId profileId))
  | .promote userId profileId =>
    -- a row that is gone is a `StaleDataError`, which leaves the others as they are
    s.resume (s.profiles.setFlags (fun x => x.id = profileId) true) (.promotingTo userId profileId) none
  | .die request => s.resume s.profiles request none

def profiles : Machine State Op where
  start s := s = ⟨.empty, []⟩
  next := step

end Kajet.Profiles
