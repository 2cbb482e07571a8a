import Kajet.Lib.Dict
import Kajet.Lib.Fallible
import Kajet.Queue.Job
import Kajet.Reindex.Rows

/-!
# Targets

`TargetResolver` is the only place where a user and a note id or a workspace name become a place on the
disk.  A note is looked up without its owner first, so that the private reason of a refusal can be told;
a batch asks for the rows of the owner at once and keeps the answers of the workspaces.

* `Db`, `get`, `getMany`, `hasAccess`   the two tables and the queries on them;
* `Resolver.workspace`, `note`, `notes`, `notesInOneWorkspace`;
* `owned_get?`            the rows of a batch, in pieces, are the rows one by one;
* `notesFrom_eq`          the cache of workspaces never changes an answer;
* `notes_eq_note`         a batch is the resolution of each id;
* `Accepted`              the batches that may be written;
* `notesInOneWorkspace_eq_ok`   a batch is granted exactly when it is one of these.
-/

namespace Kajet.Access
open Str Reindex Fallible Queue

/-! ## the tables -/

structure WorkspaceAccess where
  userId : String
  workspace : String
  role : String
deriving DecidableEq

structure Db where
  notes : Notes
  access : List WorkspaceAccess

namespace Db

/-- The owner is asked for when it is given. -/
def get (db : Db) (noteId : String) (ownerId : Option String) : Option Note :=
  db.notes.rows.find? fun n => n.noteId = noteId && ownerId.all (n.ownerId = ·)

def inClauseChunkSize : ℕ := 900

def getMany (db : Db) (noteIds : List String) (ownerId : String) : List Note :=
  (batched inClauseChunkSize [] noteIds).flatMap fun chunk =>
    db.notes.rows.filter fun n => n.noteId ∈ chunk && n.ownerId = ownerId

def hasAccess (db : Db) (userId workspace : String) : Bool :=
  (db.access.find? fun a => a.userId = userId && a.workspace = workspace).isSome

end Db

/-! ## the resolver -/

inductive SecurityReason where
  | missingRow
  | wrongOwner
  | workspaceAccessDenied
  | workspaceMismatch
deriving DecidableEq

inductive ValidationReason where
  | emptyBatch
  | oversizedBatch
  | malformedId
  | duplicateId
  | mixedWorkspaces
deriving DecidableEq

inductive TargetError where
  | notFound
  | accessDenied
  | invalidInput
  | mixedWorkspaces
deriving DecidableEq

abbrev DenialOrValidationReason := SecurityReason ⊕ ValidationReason

structure TargetFailure where
  index : Option ℕ
  error : TargetError
  reason : DenialOrValidationReason
deriving DecidableEq

structure WorkspaceTarget where
  ownerId : String
  name : String
  path : Text
deriving DecidableEq

structure NoteTarget where
  noteId : String
  workspace : WorkspaceTarget
deriving DecidableEq

/-- The repositories, and the directory of the workspaces. -/
structure Resolver where
  db : Db
  workspacesDir : Text

def maxBatch : ℕ := 50

namespace Resolver

/-- A user id and the name of a workspace are single segments. -/
def workspacePath (r : Resolver) (userId name : String) : Text :=
  r.workspacesDir ++ '/' :: userId.toList ++ '/' :: name.toList

def workspace (r : Resolver) (userId name : String) : Except TargetFailure WorkspaceTarget :=
  if r.db.hasAccess userId name then .ok ⟨userId, name, r.workspacePath userId name⟩
  else .error ⟨none, .accessDenied, .inl .workspaceAccessDenied⟩

def note (r : Resolver) (userId noteId : String) : Except TargetFailure NoteTarget :=
  match r.db.get noteId none with
  | none => .error ⟨none, .notFound, .inl .missingRow⟩
  | some n =>
    if n.ownerId ≠ userId then .error ⟨none, .notFound, .inl .wrongOwner⟩
    else match r.workspace userId n.workspace with
      | .error _ => .error ⟨none, .notFound, .inl .workspaceAccessDenied⟩
      | .ok ws => .ok ⟨noteId, ws⟩

def missingReason (r : Resolver) (noteId : String) : SecurityReason :=
  match r.db.get noteId none with
  | none => .missingRow
  | some _ => .wrongOwner

/-- `{n.id: n for n in get_many(note_ids, user_id)}` -/
def owned (r : Resolver) (userId : String) (noteIds : List String) : Dict String Note :=
  (r.db.getMany noteIds userId).foldl (fun d n => d.set n.noteId n) Dict.empty

/-- The loop of `notes`: the index of the next id, and the workspaces that were looked at. -/
def notesFrom (r : Resolver) (userId : String) (owned : Dict String Note) :
    ℕ → List String → Dict String (Except TargetFailure WorkspaceTarget) →
      List (Except TargetFailure NoteTarget)
  | _, [], _ => []
  | index, noteId :: rest, cache =>
    match owned.get? noteId with
    | none =>
      .error ⟨some index, .notFound, .inl (r.missingReason noteId)⟩ :: notesFrom r userId owned (index + 1) rest cache
    | some n =>
      let cached := (cache.get? n.workspace).getD ((r.workspace userId n.workspace).mapError fun _ =>
        ⟨some index, .notFound, .inl .workspaceAccessDenied⟩)
      let result := match cached with
        | .error f => .error ⟨some index, f.error, f.reason⟩
        | .ok ws => .ok ⟨noteId, ws⟩
      result :: notesFrom r userId owned (index + 1) rest (cache.setDefault n.workspace cached)

def notes (r : Resolver) (userId : String) (noteIds : List String) : List (Except TargetFailure NoteTarget) :=
  r.notesFrom userId (r.owned userId noteIds) 0 noteIds Dict.empty

end Resolver

/-- The first loop of `notes_in_one_workspace`; the ids that were seen and are well formed. -/
def malformed : ℕ → List String → List String → List TargetFailure
  | _, [], _ => []
  | index, noteId :: rest, seen =>
    if strip noteId.toList = [] then
      ⟨some index, .invalidInput, .inr .malformedId⟩ :: malformed (index + 1) rest seen
    else if noteId ∈ seen then
      ⟨some index, .invalidInput, .inr .duplicateId⟩ :: malformed (index + 1) rest seen
    else malformed (index + 1) rest (seen ++ [noteId])

namespace Resolver

/-- The second loop: the ids without a row of the owner. -/
def absent (r : Resolver) (owned : Dict String Note) (noteIds : List String) : List TargetFailure :=
  (noteIds.zipIdx.filter fun x => owned.get? x.1 = none).map fun x =>
    ⟨some x.2, .notFound, .inl (r.missingReason x.1)⟩

def workspacesSeen (owned : Dict String Note) (noteIds : List String) : List String :=
  (noteIds.filterMap fun noteId => (owned.get? noteId).map (·.workspace)).dedup

def notesInOneWorkspace (r : Resolver) (userId : String) (noteIds : List String) :
    Except (List TargetFailure) (WorkspaceTarget × List NoteTarget) :=
  if noteIds = [] then .error [⟨none, .invalidInput, .inr .emptyBatch⟩]
  else if maxBatch < noteIds.length then .error [⟨none, .invalidInput, .inr .oversizedBatch⟩]
  else if malformed 0 noteIds [] ≠ [] then .error (malformed 0 noteIds [])
  else
    let owned := r.owned userId noteIds
    if r.absent owned noteIds ≠ [] then .error (r.absent owned noteIds)
    else match workspacesSeen owned noteIds with
      | [name] =>
        match r.workspace userId name with
        | .error _ => .error [⟨none, .notFound, .inl .workspaceAccessDenied⟩]
        | .ok ws => .ok (ws, noteIds.map fun noteId => ⟨noteId, ws⟩)
      | _ => .error [⟨none, .mixedWorkspaces, .inr .mixedWorkspaces⟩]

end Resolver

/-! ## the queries -/

section
variable {db : Db} {noteId userId name : String} {noteIds : List String} {n : Note}

theorem Db.get_none_eq_some : db.get noteId none = some n ↔ n ∈ db.notes.rows ∧ n.noteId = noteId := by
  have hrow : db.get noteId none = Table.row (fun n : Note => n.noteId) db.notes.rows noteId := by
    simp only [Db.get, Table.row, Option.all_none, Bool.and_true]
  rw [hrow]
  exact db.notes.ids.row_eq

theorem Db.get_owner_eq_some : db.get noteId (some userId) = some n ↔
    n ∈ db.notes.rows ∧ n.noteId = noteId ∧ n.ownerId = userId := by
  constructor
  · intro h
    exact ⟨List.mem_of_find?_eq_some h, by simpa using List.find?_some h⟩
  · rintro ⟨hmem, hid, howner⟩
    -- a row that is found has the id too, and ids are unique
    have hsel : (decide (n.noteId = noteId) && (some userId).all (n.ownerId = ·)) = true := by simp [hid, howner]
    obtain ⟨m, hm⟩ := Option.isSome_iff_exists.mp
      (List.find?_isSome (p := fun n : Note => n.noteId = noteId && (some userId).all (n.ownerId = ·)).mpr ⟨n, hmem, hsel⟩)
    have hmid : m.noteId = noteId := by simpa using (And.left (by simpa using List.find?_some hm))
    rw [Db.get, hm, db.notes.ids.eq (List.mem_of_find?_eq_some hm) hmem (hmid.trans hid.symm)]

theorem Db.mem_getMany : n ∈ db.getMany noteIds userId ↔
    n.noteId ∈ noteIds ∧ n ∈ db.notes.rows ∧ n.ownerId = userId := by
  have hpieces := batched_mem Db.inClauseChunkSize noteIds [] n.noteId
  simp only [List.not_mem_nil, false_or] at hpieces
  rw [← hpieces, Db.getMany]
  simp only [List.mem_flatMap, List.mem_filter, Bool.and_eq_true, decide_eq_true_eq]
  constructor
  · rintro ⟨chunk, hchunk, hmem, hid, howner⟩
    exact ⟨⟨chunk, hchunk, hid⟩, hmem, howner⟩
  · rintro ⟨⟨chunk, hchunk, hid⟩, hmem, howner⟩
    exact ⟨chunk, hchunk, hmem, hid, howner⟩

variable {r : Resolver}

theorem owned_get? : (r.owned userId noteIds).get? noteId = some n ↔
    noteId ∈ noteIds ∧ n ∈ r.db.notes.rows ∧ n.noteId = noteId ∧ n.ownerId = userId := by
  have hone : ∀ a ∈ r.db.getMany noteIds userId, ∀ b ∈ r.db.getMany noteIds userId, a.noteId = b.noteId → a = b :=
    fun a ha b hb => r.db.notes.ids.eq (Db.mem_getMany.mp ha).2.1 (Db.mem_getMany.mp hb).2.1
  rw [Resolver.owned, Dict.get?_foldl_set (fun n : Note => n.noteId) (fun n => n) _ Dict.empty hone, Dict.get?_empty,
    Option.or_none, Option.map_id']
  constructor
  · intro h
    have hid : n.noteId = noteId := by simpa using List.find?_some h
    obtain ⟨hasked, hrow, howner⟩ := Db.mem_getMany.mp (List.mem_of_find?_eq_some h)
    exact ⟨hid ▸ hasked, hrow, hid, howner⟩
  · rintro ⟨hasked, hrow, hid, howner⟩
    have hmem : n ∈ r.db.getMany noteIds userId := Db.mem_getMany.mpr ⟨hid ▸ hasked, hrow, howner⟩
    cases hfind : (r.db.getMany noteIds userId).find? fun n => n.noteId = noteId with
    | none => exact absurd (decide_eq_true hid) (List.find?_eq_none.mp hfind n hmem)
    | some m =>
      have hm : m.noteId = noteId := by simpa using List.find?_some hfind
      rw [hone m (List.mem_of_find?_eq_some hfind) n hmem (hm.trans hid.symm)]

theorem owned_eq_none (h : noteId ∈ noteIds) : (r.owned userId noteIds).get? noteId = none ↔
    ∀ n, r.db.get noteId none = some n → n.ownerId ≠ userId := by
  rw [Option.eq_none_iff_forall_ne_some]
  constructor
  · intro hnone n hget howner
    obtain ⟨hrow, hid⟩ := Db.get_none_eq_some.mp hget
    exact hnone n (owned_get?.mpr ⟨h, hrow, hid, howner⟩)
  · intro hall n hget
    obtain ⟨_, hrow, hid, howner⟩ := owned_get?.mp hget
    exact hall n (Db.get_none_eq_some.mpr ⟨hrow, hid⟩) howner

/-! ## a batch and its ids -/

/-- What a failure becomes in a batch. -/
def TargetFailure.at (index : ℕ) (f : TargetFailure) : TargetFailure := { f with index := some index }

theorem workspace_cases (r : Resolver) (userId name : String) :
    (r.db.hasAccess userId name = true ∧ r.workspace userId name = .ok ⟨userId, name, r.workspacePath userId name⟩) ∨
    (r.db.hasAccess userId name = false ∧
      r.workspace userId name = .error ⟨none, .accessDenied, .inl .workspaceAccessDenied⟩) := by
  unfold Resolver.workspace
  by_cases h : r.db.hasAccess userId name = true
  · exact .inl ⟨h, if_pos h⟩
  · exact .inr ⟨Bool.not_eq_true _ ▸ h, if_neg h⟩

/-- A note that is the owner's is where its workspace is. -/
theorem note_of_row (hget : r.db.get noteId none = some n) (howner : n.ownerId = userId) : r.note userId noteId =
    match r.workspace userId n.workspace with
    | .error _ => .error ⟨none, .notFound, .inl .workspaceAccessDenied⟩
    | .ok ws => .ok ⟨noteId, ws⟩ := by
  unfold Resolver.note
  rw [hget]
  exact if_neg (not_not_intro howner)

/-- A note that is not the owner's is refused for the reason that the batch gives. -/
theorem note_of_absent (h : ∀ n, r.db.get noteId none = some n → n.ownerId ≠ userId) :
    r.note userId noteId = .error ⟨none, .notFound, .inl (r.missingReason noteId)⟩ := by
  unfold Resolver.note Resolver.missingReason
  cases hget : r.db.get noteId none with
  | none => rfl
  | some n => exact if_pos (h n hget)

/-- The cached answers are those of `workspace`, with some index. -/
def Cached (r : Resolver) (userId : String) (cache : Dict String (Except TargetFailure WorkspaceTarget)) : Prop :=
  ∀ name c, cache.get? name = some c → match r.workspace userId name with
    | .ok ws => c = .ok ws
    | .error _ => ∃ index, c = .error ⟨index, .notFound, .inl .workspaceAccessDenied⟩

theorem Cached.setDefault {cache : Dict String (Except TargetFailure WorkspaceTarget)} (h : Cached r userId cache)
    (index : ℕ) (name : String) : Cached r userId (cache.setDefault name ((cache.get? name).getD
      ((r.workspace userId name).mapError fun _ => ⟨some index, .notFound, .inl .workspaceAccessDenied⟩))) := by
  intro other c hc
  rw [Dict.get?_setDefault] at hc
  cases hold : cache.get? other with
  | some c' =>
    rw [hold, Option.some_or] at hc
    exact Option.some.inj hc ▸ h other c' hold
  | none =>
    rw [hold, Option.none_or] at hc
    split at hc
    · rename_i heq
      subst heq
      rw [hold, Option.getD_none] at hc
      obtain rfl := Option.some.inj hc
      cases r.workspace userId other with
      | ok ws => rfl
      | error f => exact ⟨some index, rfl⟩
    · cases hc

/-- **The cache and the pieces do not show**: each id is resolved as on its own, with its index. -/
theorem notesFrom_eq {rest : List String} {index : ℕ} {cache : Dict String (Except TargetFailure WorkspaceTarget)}
    (hsub : ∀ x ∈ rest, x ∈ noteIds) (hcache : Cached r userId cache) :
    r.notesFrom userId (r.owned userId noteIds) index rest cache =
      (rest.zipIdx index).map fun x => (r.note userId x.1).mapError (TargetFailure.at x.2) := by
  induction rest generalizing index cache with
  | nil => rfl
  | cons noteId rest ih =>
    have htail := fun x hx => hsub x (List.mem_cons_of_mem _ hx)
    rw [Resolver.notesFrom, List.zipIdx_cons, List.map_cons]
    cases hown : (r.owned userId noteIds).get? noteId with
    | none =>
      have habsent := note_of_absent ((owned_eq_none (hsub _ List.mem_cons_self)).mp hown)
      simp only
      rw [ih htail hcache, habsent]
      rfl
    | some n =>
      obtain ⟨_, hrow, hid, howner⟩ := owned_get?.mp hown
      have hnote := note_of_row (Db.get_none_eq_some.mpr ⟨hrow, hid⟩) howner
      simp only
      rw [ih htail (hcache.setDefault index n.workspace), hnote]
      congr 1
      cases hold : cache.get? n.workspace with
      | some c =>
        have hc := hcache _ _ hold
        cases hws : r.workspace userId n.workspace with
        | ok ws =>
          rw [hws] at hc
          rw [hc]
          rfl
        | error f =>
          rw [hws] at hc
          obtain ⟨i, rfl⟩ := hc
          rfl
      | none =>
        cases r.workspace userId n.workspace with
        | ok ws => rfl
        | error f => rfl

theorem notes_eq (userId : String) (noteIds : List String) : r.notes userId noteIds =
    noteIds.zipIdx.map fun x => (r.note userId x.1).mapError (TargetFailure.at x.2) :=
  notesFrom_eq (fun _ h => h) fun _ _ h => nomatch h

/-- A granted note is a row of the owner, in a workspace that the owner may enter. -/
theorem note_eq_ok {t : NoteTarget} : r.note userId noteId = .ok t ↔
    ∃ n, r.db.get noteId none = some n ∧ n.ownerId = userId ∧ r.db.hasAccess userId n.workspace = true ∧
      t = ⟨noteId, ⟨userId, n.workspace, r.workspacePath userId n.workspace⟩⟩ := by
  constructor
  · intro h
    cases hget : r.db.get noteId none with
    | none => rw [note_of_absent fun n hn => nomatch hget.symm.trans hn] at h; cases h
    | some n =>
      by_cases howner : n.ownerId = userId
      · rw [note_of_row hget howner] at h
        obtain ⟨haccess, hws⟩ | ⟨_, hws⟩ := workspace_cases r userId n.workspace
        · rw [hws] at h
          exact ⟨n, rfl, howner, haccess, (Except.ok.inj h).symm⟩
        · rw [hws] at h
          cases h
      · rw [note_of_absent fun m hm => by rw [← Option.some.inj (hget.symm.trans hm)]; exact howner] at h
        cases h
  · rintro ⟨n, hget, howner, haccess, rfl⟩
    rw [note_of_row hget howner, Resolver.workspace, if_pos haccess]

/-! ## a batch that may be written -/

/-- A batch of notes of one workspace, each of them the user's. -/
structure Accepted (r : Resolver) (userId : String) (noteIds : List String) (name : String) : Prop where
  ne_nil : noteIds ≠ []
  length_le : noteIds.length ≤ maxBatch
  filled : ∀ noteId ∈ noteIds, strip noteId.toList ≠ []
  nodup : noteIds.Nodup
  row : ∀ noteId ∈ noteIds, ∃ n, r.db.get noteId none = some n ∧ n.ownerId = userId ∧ n.workspace = name
  access : r.db.hasAccess userId name = true

/-- What is wrong with the `i`-th id of a batch as it is written. -/
def fault (noteIds : List String) (x : String × ℕ) : Option ValidationReason :=
  if strip x.1.toList = [] then some .malformedId
  else if x.1 ∈ noteIds.take x.2 then some .duplicateId
  else none

/-- The ids in front of the loop are those that `seen` has, apart from the blank ones. -/
theorem malformed_eq {front rest seen : List String}
    (hseen : ∀ x, strip x.toList ≠ [] → (x ∈ seen ↔ x ∈ front)) :
    malformed front.length rest seen = (rest.zipIdx front.length).filterMap fun x =>
      (fault (front ++ rest) x).map fun reason => ⟨some x.2, .invalidInput, .inr reason⟩ := by
  induction rest generalizing front seen with
  | nil => rfl
  | cons noteId rest ih =>
    have hlen : (front ++ [noteId]).length = front.length + 1 := List.length_append
    have happ : front ++ noteId :: rest = (front ++ [noteId]) ++ rest := by rw [List.append_assoc]; rfl
    have htake : (front ++ noteId :: rest).take front.length = front := List.take_left
    -- whatever becomes of the id, `seen` has what is in front of the next one
    have hnext : ∀ seen', (∀ x, strip x.toList ≠ [] → (x ∈ seen' ↔ x ∈ front ++ [noteId])) →
        malformed (front.length + 1) rest seen' = (rest.zipIdx (front.length + 1)).filterMap fun x =>
          (fault (front ++ noteId :: rest) x).map fun reason => ⟨some x.2, .invalidInput, .inr reason⟩ := by
      intro seen' h'
      rw [← hlen, ih h', happ]
    rw [malformed, List.zipIdx_cons]
    by_cases hblank : strip noteId.toList = []
    · have hfault : fault (front ++ noteId :: rest) (noteId, front.length) = some .malformedId := if_pos hblank
      rw [if_pos hblank, List.filterMap_cons_some (by rw [hfault]; rfl), hnext]
      intro x hx
      rw [hseen x hx, List.mem_append, List.mem_singleton]
      exact ⟨Or.inl, fun h => h.resolve_right fun hxn => hx (hxn ▸ hblank)⟩
    · rw [if_neg hblank]
      by_cases hdup : noteId ∈ seen
      · have hfront := (hseen _ hblank).mp hdup
        have hfault : fault (front ++ noteId :: rest) (noteId, front.length) = some .duplicateId := by
          rw [fault, if_neg hblank, htake, if_pos hfront]
        rw [if_pos hdup, List.filterMap_cons_some (by rw [hfault]; rfl), hnext]
        intro x hx
        rw [hseen x hx, List.mem_append, List.mem_singleton]
        exact ⟨Or.inl, fun h => h.elim id fun hxn => hxn ▸ hfront⟩
      · have hfault : fault (front ++ noteId :: rest) (noteId, front.length) = none := by
          rw [fault, if_neg hblank, htake, if_neg (mt (hseen _ hblank).mpr hdup)]
        rw [if_neg hdup, List.filterMap_cons_none (by rw [hfault]; rfl), hnext]
        intro x hx
        rw [List.mem_append, List.mem_append, hseen x hx]

theorem malformed_batch (noteIds : List String) : malformed 0 noteIds [] = noteIds.zipIdx.filterMap fun x =>
    (fault noteIds x).map fun reason => ⟨some x.2, .invalidInput, .inr reason⟩ :=
  malformed_eq fun _ _ => iff_of_false List.not_mem_nil List.not_mem_nil

theorem malformed_eq_nil : malformed 0 noteIds [] = [] ↔ ∀ x ∈ noteIds.zipIdx, fault noteIds x = none := by
  simp only [malformed_batch, List.filterMap_eq_nil_iff, Option.map_eq_none_iff]

theorem notMem_take_iff : (∀ x ∈ noteIds.zipIdx, x.1 ∉ noteIds.take x.2) ↔ noteIds.Nodup := by
  rw [List.Nodup, List.pairwise_iff_getElem]
  constructor
  · intro h i j hi hj hij heq
    refine h (noteIds[j], j) (List.mem_zipIdx_iff_getElem?.mpr (List.getElem?_eq_getElem hj)) ?_
    exact List.mem_take_iff_getElem.mpr ⟨i, by omega, heq⟩
  · rintro h ⟨noteId, j⟩ hx hmem
    obtain ⟨hj, hj'⟩ := List.getElem?_eq_some_iff.mp (List.mem_zipIdx_iff_getElem?.mp hx)
    obtain ⟨i, hi, heq⟩ := List.mem_take_iff_getElem.mp hmem
    exact h i j (by omega) hj (by omega) (heq.trans hj'.symm)

/-- Nothing is wrong with a batch as it is written. -/
theorem no_fault_iff : (∀ x ∈ noteIds.zipIdx, fault noteIds x = none) ↔
    (∀ noteId ∈ noteIds, strip noteId.toList ≠ []) ∧ noteIds.Nodup := by
  have hfault : ∀ x, fault noteIds x = none ↔ strip x.1.toList ≠ [] ∧ x.1 ∉ noteIds.take x.2 := by
    intro x
    unfold fault
    split_ifs <;> simp_all
  simp only [hfault, ← notMem_take_iff]
  constructor
  · intro h
    refine ⟨fun noteId hmem => ?_, fun x hx => (h x hx).2⟩
    obtain ⟨i, hi⟩ := List.mem_iff_getElem?.mp hmem
    exact (h (noteId, i) (List.mem_zipIdx_iff_getElem?.mpr hi)).1
  · rintro ⟨hfilled, htake⟩ x hx
    exact ⟨hfilled _ (List.mem_of_getElem? (List.mem_zipIdx_iff_getElem?.mp hx)), htake x hx⟩

theorem absent_eq_nil : r.absent (r.owned userId noteIds) noteIds = [] ↔
    ∀ noteId ∈ noteIds, ∃ n, r.db.get noteId none = some n ∧ n.ownerId = userId := by
  rw [Resolver.absent, List.map_eq_nil_iff, List.filter_eq_nil_iff]
  constructor
  · intro h noteId hmem
    obtain ⟨i, hi⟩ := List.mem_iff_getElem?.mp hmem
    have hown := h (noteId, i) (List.mem_zipIdx_iff_getElem?.mpr hi)
    rw [decide_eq_true_eq, owned_eq_none hmem] at hown
    push Not at hown
    exact hown
  · intro h x hx hnone
    have hmem := List.mem_of_getElem? (List.mem_zipIdx_iff_getElem?.mp hx)
    obtain ⟨n, hget, howner⟩ := h _ hmem
    exact (owned_eq_none hmem).mp (decide_eq_true_eq.mp hnone) n hget howner

/-- The workspaces of rows that are there are one workspace exactly when every row is in it. -/
theorem workspacesSeen_eq (hne : noteIds ≠ []) :
    Resolver.workspacesSeen (r.owned userId noteIds) noteIds = [name] ∧
      (∀ noteId ∈ noteIds, ∃ n, r.db.get noteId none = some n ∧ n.ownerId = userId) ↔
    ∀ noteId ∈ noteIds, ∃ n, r.db.get noteId none = some n ∧ n.ownerId = userId ∧ n.workspace = name := by
  have hown : ∀ noteId ∈ noteIds, ∀ n, r.db.get noteId none = some n → n.ownerId = userId →
      (r.owned userId noteIds).get? noteId = some n := fun noteId hmem n hget howner =>
    have ⟨hrow, hid⟩ := Db.get_none_eq_some.mp hget
    owned_get?.mpr ⟨hmem, hrow, hid, howner⟩
  constructor
  · rintro ⟨hseen, hall⟩ noteId hmem
    obtain ⟨n, hget, howner⟩ := hall noteId hmem
    have hin : n.workspace ∈ Resolver.workspacesSeen (r.owned userId noteIds) noteIds :=
      List.mem_dedup.mpr (List.mem_filterMap.mpr ⟨noteId, hmem, by rw [hown noteId hmem n hget howner]; rfl⟩)
    rw [hseen, List.mem_singleton] at hin
    exact ⟨n, hget, howner, hin⟩
  · intro hall
    refine ⟨?_, fun noteId hmem => ?_⟩
    · have hmap : noteIds.filterMap (fun noteId => ((r.owned userId noteIds).get? noteId).map (·.workspace)) =
          List.replicate noteIds.length name := by
        rw [← List.map_const', ← List.filterMap_eq_map']
        refine List.filterMap_congr fun noteId hmem => ?_
        obtain ⟨n, hget, howner, hws⟩ := hall noteId hmem
        rw [hown noteId hmem n hget howner, Option.map_some, hws]
      rw [Resolver.workspacesSeen, hmap, List.replicate_dedup]
      exact mt List.length_eq_zero_iff.mp hne
    · obtain ⟨n, hget, howner, _⟩ := hall noteId hmem
      exact ⟨n, hget, howner⟩

/-- A failure of the batch as a whole; it is a denial when the workspace is not the user's. -/
def Whole (r : Resolver) (userId : String) (f : TargetFailure) : Prop := f.index = none ∧
  ∀ reason, f.reason = .inl reason → reason = .workspaceAccessDenied ∧ ∃ name, r.db.hasAccess userId name = false

theorem Whole.invalid {index : Option ℕ} (hindex : index = none) (error : TargetError) (reason : ValidationReason) :
    Whole r userId ⟨index, error, .inr reason⟩ := ⟨hindex, fun _ h => nomatch h⟩

/-- The passes of the prevalidation, one after the other. -/
theorem notesInOneWorkspace_cases (r : Resolver) (userId : String) (noteIds : List String) :
    (¬ (noteIds ≠ [] ∧ noteIds.length ≤ maxBatch) ∧ ∃ f, Whole r userId f ∧
      r.notesInOneWorkspace userId noteIds = .error [f]) ∨
    ((noteIds ≠ [] ∧ noteIds.length ≤ maxBatch) ∧ malformed 0 noteIds [] ≠ [] ∧
      r.notesInOneWorkspace userId noteIds = .error (malformed 0 noteIds [])) ∨
    ((noteIds ≠ [] ∧ noteIds.length ≤ maxBatch) ∧ malformed 0 noteIds [] = [] ∧
      r.absent (r.owned userId noteIds) noteIds ≠ [] ∧
      r.notesInOneWorkspace userId noteIds = .error (r.absent (r.owned userId noteIds) noteIds)) ∨
    ((noteIds ≠ [] ∧ noteIds.length ≤ maxBatch) ∧ malformed 0 noteIds [] = [] ∧
      r.absent (r.owned userId noteIds) noteIds = [] ∧ (¬ ∃ name, Accepted r userId noteIds name) ∧
      ∃ f, Whole r userId f ∧ r.notesInOneWorkspace userId noteIds = .error [f]) ∨
    ∃ name, Accepted r userId noteIds name ∧ r.notesInOneWorkspace userId noteIds =
      .ok (⟨userId, name, r.workspacePath userId name⟩,
        noteIds.map fun noteId => ⟨noteId, ⟨userId, name, r.workspacePath userId name⟩⟩) := by
  unfold Resolver.notesInOneWorkspace
  by_cases hne : noteIds = []
  · exact .inl ⟨fun h => h.1 hne, _, .invalid rfl _ _, if_pos hne⟩
  rw [if_neg hne]
  by_cases hlen : maxBatch < noteIds.length
  · exact .inl ⟨fun h => absurd h.2 (Nat.not_le.mpr hlen), _, .invalid rfl _ _, if_pos hlen⟩
  have hsize : noteIds ≠ [] ∧ noteIds.length ≤ maxBatch := ⟨hne, Nat.not_lt.mp hlen⟩
  rw [if_neg hlen]
  by_cases hbad : malformed 0 noteIds [] ≠ []
  · exact .inr (.inl ⟨hsize, hbad, if_pos hbad⟩)
  rw [if_neg hbad]
  rw [not_not] at hbad
  by_cases habsent : r.absent (r.owned userId noteIds) noteIds ≠ []
  · exact .inr (.inr (.inl ⟨hsize, hbad, habsent, if_pos habsent⟩))
  simp only [if_neg habsent]
  rw [not_not] at habsent
  have hrows := absent_eq_nil.mp habsent
  have hwell := no_fault_iff.mp (malformed_eq_nil.mp hbad)
  -- an accepted batch has one workspace, and the user may enter it
  have hseen : ∀ name, Accepted r userId noteIds name →
      Resolver.workspacesSeen (r.owned userId noteIds) noteIds = [name] :=
    fun name h => ((workspacesSeen_eq hne).mpr h.row).1
  cases hws : Resolver.workspacesSeen (r.owned userId noteIds) noteIds with
  | nil =>
    refine .inr (.inr (.inr (.inl ⟨hsize, hbad, habsent, ?_, _, .invalid rfl _ _, rfl⟩)))
    rintro ⟨name, h⟩
    exact absurd (hws.symm.trans (hseen name h)) (List.cons_ne_nil _ _).symm
  | cons name others =>
    cases others with
    | cons other others =>
      refine .inr (.inr (.inr (.inl ⟨hsize, hbad, habsent, ?_, _, .invalid rfl _ _, rfl⟩)))
      rintro ⟨name', h⟩
      exact absurd (hws.symm.trans (hseen name' h)) (by simp)
    | nil =>
      obtain ⟨haccess, hget⟩ | ⟨hdenied, hget⟩ := workspace_cases r userId name
      · refine .inr (.inr (.inr (.inr ⟨name, ⟨hne, hsize.2, hwell.1, hwell.2,
          (workspacesSeen_eq hne).mp ⟨hws, hrows⟩, haccess⟩, ?_⟩)))
        simp only [hget]
      · refine .inr (.inr (.inr (.inl ⟨hsize, hbad, habsent, ?_,
          ⟨none, .notFound, .inl .workspaceAccessDenied⟩, ⟨rfl, fun reason h => ?_⟩, by simp only [hget]⟩)))
        · rintro ⟨name', h⟩
          obtain rfl : name = name' := by simpa using hws.symm.trans (hseen name' h)
          exact Bool.false_ne_true (hdenied.symm.trans h.access)
        · exact ⟨(Sum.inl.inj h).symm, name, hdenied⟩

/-- What is wrong with the id at `i`: how the batch is written, or else whose note it is. -/
def Offends (r : Resolver) (userId : String) (noteIds : List String) (i : ℕ) : Prop :=
  ∃ noteId, noteIds[i]? = some noteId ∧ (fault noteIds (noteId, i) ≠ none ∨
    (∀ x ∈ noteIds.zipIdx, fault noteIds x = none) ∧ ∀ n, r.db.get noteId none = some n → n.ownerId ≠ userId)

theorem malformed_positions (hbad : malformed 0 noteIds [] ≠ []) (i : ℕ) :
    (∃ f ∈ malformed 0 noteIds [], f.index = some i) ↔ Offends r userId noteIds i := by
  have hsome := mt malformed_eq_nil.mpr hbad
  simp only [malformed_batch, List.mem_filterMap, Option.map_eq_some_iff]
  constructor
  · rintro ⟨f, ⟨⟨noteId, j⟩, hx, reason, hfault, rfl⟩, hj⟩
    obtain rfl : j = i := Option.some.inj hj
    exact ⟨noteId, List.mem_zipIdx_iff_getElem?.mp hx, .inl (by rw [hfault]; simp)⟩
  · rintro ⟨noteId, hget, hfault | ⟨hall, _⟩⟩
    · obtain ⟨reason, hreason⟩ := Option.ne_none_iff_exists'.mp hfault
      exact ⟨_, ⟨(noteId, i), List.mem_zipIdx_iff_getElem?.mpr hget, reason, hreason, rfl⟩, rfl⟩
    · exact absurd hall hsome

theorem absent_positions (hwell : malformed 0 noteIds [] = []) (i : ℕ) :
    (∃ f ∈ r.absent (r.owned userId noteIds) noteIds, f.index = some i) ↔ Offends r userId noteIds i := by
  have hnone := malformed_eq_nil.mp hwell
  simp only [Resolver.absent, List.mem_map, List.mem_filter, decide_eq_true_eq]
  constructor
  · rintro ⟨f, ⟨⟨noteId, j⟩, ⟨hx, hown⟩, rfl⟩, hj⟩
    obtain rfl : j = i := Option.some.inj hj
    have hget := List.mem_zipIdx_iff_getElem?.mp hx
    exact ⟨noteId, hget, .inr ⟨hnone, (owned_eq_none (List.mem_of_getElem? hget)).mp hown⟩⟩
  · rintro ⟨noteId, hget, hfault | ⟨_, howner⟩⟩
    · exact absurd (hnone _ (List.mem_zipIdx_iff_getElem?.mpr hget)) hfault
    · exact ⟨_, ⟨(noteId, i), ⟨List.mem_zipIdx_iff_getElem?.mpr hget,
        (owned_eq_none (List.mem_of_getElem? hget)).mpr howner⟩, rfl⟩, rfl⟩

theorem not_offends_of_accepted (h : Accepted r userId noteIds name) (i : ℕ) : ¬ Offends r userId noteIds i := by
  rintro ⟨noteId, hget, hfault | ⟨_, howner⟩⟩
  · exact hfault (no_fault_iff.mpr ⟨h.filled, h.nodup⟩ _ (List.mem_zipIdx_iff_getElem?.mpr hget))
  · obtain ⟨n, hn, hnowner, _⟩ := h.row noteId (List.mem_of_getElem? hget)
    exact howner n hn hnowner

/-- **Prevalidation is exact**: a batch is granted exactly when it may be written, as it was ordered; a
batch that is refused names every position that offends and no other, unless it is too long. -/
theorem notesInOneWorkspace_exact (r : Resolver) (userId : String) (noteIds : List String) :
    (∀ ws targets, r.notesInOneWorkspace userId noteIds = .ok (ws, targets) ↔
      ∃ name, Accepted r userId noteIds name ∧ ws = ⟨userId, name, r.workspacePath userId name⟩ ∧
        targets = noteIds.map fun noteId => ⟨noteId, ws⟩) ∧
    ∀ failures, r.notesInOneWorkspace userId noteIds = .error failures → ∀ i,
      (∃ f ∈ failures, f.index = some i) ↔ noteIds.length ≤ maxBatch ∧ Offends r userId noteIds i := by
  have hone : ∀ {f : TargetFailure}, f.index = none → ∀ i, ¬ ∃ g ∈ [f], g.index = some i := by
    rintro f hf i ⟨g, hg, hi⟩
    rw [List.mem_singleton.mp hg, hf] at hi
    cases hi
  obtain ⟨hsize, f, hf, h⟩ | ⟨hsize, hbad, h⟩ | ⟨hsize, hwell, habsent, h⟩ | ⟨hsize, hwell, hrows, hnot, f, hf, h⟩ |
    ⟨name, hacc, h⟩ := notesInOneWorkspace_cases r userId noteIds
  · rw [h]
    refine ⟨fun ws targets => ⟨(nomatch ·), fun ⟨name, hacc, _⟩ => absurd ⟨hacc.ne_nil, hacc.length_le⟩ hsize⟩, ?_⟩
    intro failures herr i
    obtain rfl := Except.error.inj herr
    refine iff_of_false (hone hf.1 i) ?_
    rintro ⟨hlen, noteId, hget, _⟩
    refine hsize ⟨?_, hlen⟩
    rintro rfl
    cases hget
  · rw [h]
    refine ⟨fun ws targets => ⟨(nomatch ·), fun ⟨name, hacc, _⟩ =>
      absurd (malformed_eq_nil.mpr (no_fault_iff.mpr ⟨hacc.filled, hacc.nodup⟩)) hbad⟩, ?_⟩
    intro failures herr i
    obtain rfl := Except.error.inj herr
    rw [malformed_positions hbad i]
    exact ⟨fun ho => ⟨hsize.2, ho⟩, fun ho => ho.2⟩
  · rw [h]
    refine ⟨fun ws targets => ⟨(nomatch ·), fun ⟨name, hacc, _⟩ => absurd (absent_eq_nil.mpr
      fun noteId hmem => (hacc.row noteId hmem).imp fun n hn => ⟨hn.1, hn.2.1⟩) habsent⟩, ?_⟩
    intro failures herr i
    obtain rfl := Except.error.inj herr
    rw [absent_positions hwell i]
    exact ⟨fun ho => ⟨hsize.2, ho⟩, fun ho => ho.2⟩
  · rw [h]
    refine ⟨fun ws targets => ⟨(nomatch ·), fun ⟨name, hacc, _⟩ => absurd ⟨name, hacc⟩ hnot⟩, ?_⟩
    intro failures herr i
    obtain rfl := Except.error.inj herr
    have habs := (absent_positions hwell i).not.mp (by rw [hrows]; exact fun ⟨f, hf, _⟩ => nomatch hf)
    exact iff_of_false (hone hf.1 i) fun ho => habs ho.2
  · rw [h]
    refine ⟨fun ws targets => ⟨fun hok => ?_, ?_⟩, fun failures herr => nomatch herr⟩
    · obtain ⟨rfl, rfl⟩ := Prod.mk.inj (Except.ok.inj hok)
      exact ⟨name, hacc, rfl, rfl⟩
    · rintro ⟨name', hacc', rfl, rfl⟩
      -- the rows of the batch are in one workspace
      obtain ⟨noteId, hmem⟩ := List.exists_mem_of_ne_nil _ hacc.ne_nil
      obtain ⟨n, hn, _, hws⟩ := hacc.row noteId hmem
      obtain ⟨n', hn', _, hws'⟩ := hacc'.row noteId hmem
      obtain rfl : n = n' := Option.some.inj (hn.symm.trans hn')
      rw [← hws, ← hws']

end

end Kajet.Access
