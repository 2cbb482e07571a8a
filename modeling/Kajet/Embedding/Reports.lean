import Kajet.Notices.Store
import Kajet.Profiles.Active

/-!
# Notices about profiles

An embed job or a search resolves the active profile, calls the endpoint, and reports the outcome: a rejected key
raises a notice about the profile, a success clears it.  A delete clears the notice once, after its commit.

* `State`, `Op`, `reporting`   the profiles, the notices, the calls and the clears in progress;
* `InTime`          a rejected key is reported while the profile is there, or before its notice is cleared;
* `Inv`             an active notice is about a profile, or is going to be resolved (`step_inv`);
* `no_notice_left`  the runs of such steps;
* `notice_left`     the report that comes after the delete.
-/

namespace Kajet.Embedding.Reports
open Table Machine
open Notices (NoticePayload)

/-! ## the machine -/

/-- A job or a search that has resolved a profile. -/
structure Call where
  userId : String
  profileId : String
deriving DecidableEq

structure State where
  profiles : Profiles.State
  /-- `probing` has the clears that found a notice -/
  notices : Notices.State
  calls : List Call
  /-- the clears that have not looked for a notice -/
  clears : List Call

inductive Op where
  /-- a step of a request for profiles; `newKey` is an update that writes a new key -/
  | profile (op : Profiles.Op) (newKey : Bool)
  /-- the promotion at the end of a delete fails, and the `k`-th clear does not come -/
  | stale (userId profileId : String) (k : ℕ)
  /-- `delete_profile` of a profile that is not there -/
  | deleteMissing (userId profileId : String)
  /-- `resolve_backend` -/
  | resolve (userId profileId : String)
  /-- the outcome of the `k`-th call: a rejected key, a success, or anything else -/
  | rejected (k : ℕ) (newId : String) (now : ℚ)
  | succeeded (k : ℕ)
  | ended (k : ℕ)
  /-- the `k`-th clear looks for a notice; `settle` resolves the one that it found -/
  | look (k : ℕ)
  | settle (userId profileId : String) (now : ℚ)
deriving DecidableEq

/-- `EmbeddingAuthNotice(profile_id=…)` -/
def payload (profileId : String) : NoticePayload := .embeddingAuth profileId.toList

/-- What a request clears when it is done. Promoting another profile touches no notice. -/
def clearsAfter (newKey : Bool) : Profiles.Op → List Call
  | .remove userId profileId _ => [⟨userId, profileId⟩]
  | .write loaded _ _ => if newKey then [⟨loaded.userId, loaded.id⟩] else []
  | _ => []

/-- The active profile of the user. -/
def State.isActive (s : State) (userId profileId : String) : Bool :=
  s.profiles.profiles.rows.any fun x => x.id = profileId && x.userId = userId && x.isActive

def State.dropCall (s : State) (k : ℕ) : State := { s with calls := s.calls.eraseIdx k }

/-- The request raises, and clears nothing. -/
def State.fails (s : State) : Profiles.Op → Bool
  | .die _ => true
  | .promote _ profileId => !s.profiles.profiles.has profileId
  | _ => false

def step (s : State) : Op → Option State
  | .profile op newKey =>
    if s.fails op then none
    else (Profiles.step s.profiles op).map fun profiles =>
      { s with profiles := profiles, clears := clearsAfter newKey op ++ s.clears }
  | .stale userId profileId k =>
    -- the successor was deleted meanwhile
    if s.profiles.profiles.has profileId then none
    else (Profiles.step s.profiles (.promote userId profileId)).map fun profiles =>
      { s with profiles := profiles, clears := s.clears.eraseIdx k }
  | .deleteMissing userId profileId =>
    if (s.profiles.profiles.get userId profileId).isNone then
      some { s with clears := ⟨userId, profileId⟩ :: s.clears }
    else none
  | .resolve userId profileId =>
    if s.isActive userId profileId then some { s with calls := ⟨userId, profileId⟩ :: s.calls } else none
  | .rejected k newId now => (s.calls[k]?).bind fun call =>
    -- no notice can be keyed on an id that is no nanoid
    if (payload call.profileId).valid then
      (Notices.step s.notices (.raise_ call.userId (payload call.profileId) newId now)).map fun notices =>
        { s.dropCall k with notices := notices }
    else some (s.dropCall k)
  | .succeeded k => (s.calls[k]?).map fun call => { s.dropCall k with clears := call :: s.clears }
  | .ended k => (s.calls[k]?).map fun _ => s.dropCall k
  | .look k => (s.clears[k]?).map fun call =>
    { s with
      clears := s.clears.eraseIdx k
      notices := (Notices.step s.notices (.probe call.userId (payload call.profileId))).getD s.notices }
  | .settle userId profileId now =>
    (Notices.step s.notices (.resolve userId (payload profileId) now)).map fun notices => { s with notices := notices }

def State.empty : State := ⟨⟨.empty, []⟩, .empty, [], []⟩

def reporting : Machine State Op where
  start s := s = .empty
  next := step

/-! ## the statement -/

/-- The user has the profile. -/
def State.has (s : State) (userId profileId : String) : Prop :=
  ∃ x ∈ s.profiles.profiles.rows, x.id = profileId ∧ x.userId = userId

instance (s : State) (userId profileId : String) : Decidable (s.has userId profileId) :=
  inferInstanceAs (Decidable (∃ x ∈ _, _))

/-- A clear is going to resolve the notice. -/
def State.clearing (s : State) (userId profileId : String) : Prop :=
  ⟨userId, profileId⟩ ∈ s.clears ∨ (userId, (payload profileId).key) ∈ s.notices.probing

instance (s : State) (userId profileId : String) : Decidable (s.clearing userId profileId) :=
  inferInstanceAs (Decidable (_ ∨ _))

/-- No notice about the profile is active. -/
def State.silent (s : State) (userId profileId : String) : Prop :=
  ∀ n ∈ s.notices.notices.rows, n.resolvedAt = none → n.slot ≠ (userId, (payload profileId).key)

instance (s : State) (userId profileId : String) : Decidable (s.silent userId profileId) :=
  inferInstanceAs (Decidable (∀ n ∈ _, _ → _))

/-- A rejected key is reported while the profile is there, or before a clear of its notice. A clear that does not
come has nothing to resolve. -/
def InTime (s : State) : Op → Prop
  | .rejected k _ _ => ∀ call ∈ s.calls[k]?, s.has call.userId call.profileId ∨ s.clearing call.userId call.profileId
  | .stale _ _ k => ∀ call ∈ s.clears[k]?, s.silent call.userId call.profileId
  | _ => True

instance : (s : State) → (op : Op) → Decidable (InTime s op)
  | _, .rejected .. => inferInstanceAs (Decidable (∀ call ∈ _, _ ∨ _))
  | _, .stale .. => inferInstanceAs (Decidable (∀ call ∈ _, State.silent ..))
  | _, .profile .. | _, .deleteMissing .. | _, .resolve .. | _, .succeeded _ | _, .ended _ | _, .look _
  | _, .settle .. => isTrue trivial

/-- No request, call or clear is in progress. -/
def State.finished (s : State) : Prop :=
  s.profiles.open_ = [] ∧ s.calls = [] ∧ s.clears = [] ∧ s.notices.probing = []

instance (s : State) : Decidable s.finished := inferInstanceAs (Decidable (_ ∧ _ ∧ _ ∧ _))

structure Inv (s : State) : Prop where
  /-- a delete is about a profile of its user -/
  own : ∀ userId profileId wasActive, .deleting userId profileId wasActive ∈ s.profiles.open_ →
    ∀ x ∈ s.profiles.profiles.rows, x.id = profileId → x.userId = userId
  active : ∀ n ∈ s.notices.notices.rows, n.resolvedAt = none → ∃ profileId, (payload profileId).valid = true ∧
    n.key = (payload profileId).key ∧ (s.has n.userId profileId ∨ s.clearing n.userId profileId)

/-! ## requests for profiles -/

section
variable {s t : Profiles.State} {op : Profiles.Op} {request : Profiles.Request} {next : Option Profiles.Request}
  {rows : Profiles.Store} {f : Profiles.Profile → Bool}

/-- The same profiles, and no delete but of a profile that is there. -/
structure Quiet (s t : Profiles.State) : Prop where
  after : ∀ x ∈ s.profiles.rows, ∃ y ∈ t.profiles.rows, y.id = x.id ∧ y.userId = x.userId
  before : ∀ y ∈ t.profiles.rows, ∃ x ∈ s.profiles.rows, y.id = x.id ∧ y.userId = x.userId
  deleting : ∀ userId profileId wasActive, .deleting userId profileId wasActive ∈ t.open_ →
    .deleting userId profileId wasActive ∈ s.open_ ∨ (s.profiles.get userId profileId).isSome

/-- The deletes of `t` were there before. -/
def NoDelete (s t : Profiles.State) : Prop :=
  ∀ userId profileId wasActive, .deleting userId profileId wasActive ∈ t.open_ →
    .deleting userId profileId wasActive ∈ s.open_

theorem noDelete_resume (h : s.resume rows request next = some t)
    (hnext : ∀ userId profileId wasActive, next ≠ some (.deleting userId profileId wasActive)) : NoDelete s t := by
  obtain ⟨-, rfl⟩ := Profiles.resume_eq_some.mp h
  intro userId profileId wasActive hmem
  rcases List.mem_append.mp hmem with hnew | hold
  · exact (hnext _ _ _ (Option.mem_toList.mp hnew)).elim
  · exact List.mem_of_mem_erase hold

theorem Quiet.of_resume (h : s.resume rows request next = some t) (hr : Profiles.Reflags s.profiles.rows rows.rows f)
    (hnext : ∀ userId profileId wasActive, next ≠ some (.deleting userId profileId wasActive)) : Quiet s t := by
  have hdeletes := noDelete_resume h hnext
  obtain ⟨-, rfl⟩ := Profiles.resume_eq_some.mp h
  refine ⟨fun x hx => ?_, fun y hy => ?_, fun userId profileId wasActive hmem => .inl (hdeletes _ _ _ hmem)⟩
  · obtain ⟨y, hy, hid, huser, -⟩ := hr.after x hx
    exact ⟨y, hy, hid, huser⟩
  · obtain ⟨x, hx, hid, huser, -⟩ := hr.before y hy
    exact ⟨x, hx, hid, huser⟩

theorem Quiet.of_open (h : t.profiles = s.profiles) (hopen : t.open_ = request :: s.open_)
    (hrequest : ∀ userId profileId wasActive, request = .deleting userId profileId wasActive →
      (s.profiles.get userId profileId).isSome) : Quiet s t := by
  rw [← h] at hrequest
  refine ⟨fun x hx => ⟨x, h ▸ hx, rfl, rfl⟩, fun y hy => ⟨y, h ▸ hy, rfl, rfl⟩, fun _ _ _ hmem => ?_⟩
  rw [hopen] at hmem
  rcases List.mem_cons.mp hmem with heq | hold
  · exact .inr (h ▸ hrequest _ _ _ heq.symm)
  · exact .inl hold

/-- **What a request does**: nothing to the ids, or a new profile, or a delete. -/
theorem profile_cases (h : Profiles.step s op = some t) : Quiet s t ∨
    (NoDelete s t ∧ ∃ new, t.profiles.rows = s.profiles.rows ++ [new] ∧ ∀ request ∈ s.open_, new.id ∉ request.names) ∨
    (NoDelete s t ∧ ∃ userId profileId wasActive, op = .remove userId profileId wasActive ∧
      .deleting userId profileId wasActive ∈ s.open_ ∧ t.profiles = s.profiles.delete profileId) := by
  have hsame := Profiles.Reflags.refl s.profiles.rows
  cases op with
  | create userId =>
    cases h
    exact .inl (.of_open rfl rfl (by simp))
  | insert userId sawNone newId fields now =>
    simp only [Profiles.step] at h
    split at h
    · cases h
    rename_i hfresh
    split at h
    · have hdeletes := noDelete_resume h (by simp)
      obtain ⟨-, rfl⟩ := Profiles.resume_eq_some.mp h
      refine .inr (.inl ⟨hdeletes, _, rfl, fun request hrequest hname => hfresh ?_⟩)
      exact List.any_eq_true.mpr ⟨request, hrequest, decide_eq_true hname⟩
    · exact .inl (.of_resume h hsame (by simp))
  | setActive userId profileId =>
    obtain ⟨x, -, rfl⟩ := Option.map_eq_some_iff.mp h
    exact .inl (.of_open rfl rfl (by simp))
  | readAll userId profileId wasActive => exact .inl (.of_resume h hsame (by simp))
  | switch userId profileId lights active =>
    simp only [Profiles.step] at h
    split at h
    · cases lights with
      | false => exact .inl (.of_resume h (Profiles.reflags_setFlags ..) (by simp))
      | true => exact .inl (.of_resume h (Profiles.reflags_turned ..) (by simp))
    · exact .inl (.of_resume h hsame (by simp))
  | update userId profileId =>
    obtain ⟨x, -, rfl⟩ := Option.map_eq_some_iff.mp h
    exact .inl (.of_open rfl rfl (by simp))
  | write loaded fields now =>
    refine .inl (.of_resume h (.update (f := (·.isActive)) (fun _ => ⟨rfl, rfl⟩) fun x => ?_) (by simp))
    split <;> rfl
  | delete userId profileId =>
    obtain ⟨x, hx, rfl⟩ := Option.map_eq_some_iff.mp h
    refine .inl (.of_open rfl rfl fun u p w heq => ?_)
    obtain ⟨rfl, rfl, -⟩ := Profiles.Request.deleting.inj heq
    rw [hx]
    rfl
  | remove userId profileId wasActive =>
    have hdeletes := noDelete_resume h fun u p w heq => by split at heq <;> cases heq
    obtain ⟨hopen, rfl⟩ := Profiles.resume_eq_some.mp h
    exact .inr (.inr ⟨hdeletes, _, _, _, rfl, hopen, rfl⟩)
  | succeed userId successor =>
    simp only [Profiles.step] at h
    split at h
    · split at h
      · cases h
      · exact .inl (.of_resume h hsame (by simp))
    · split at h
      · cases h
      · exact .inl (.of_resume h hsame fun u p w heq => by split at heq <;> cases heq)
  | promote userId profileId => exact .inl (.of_resume h (Profiles.reflags_setFlags ..) (by simp))
  | die request => exact .inl (.of_resume h hsame (by simp))

end

/-! ## the notices -/

section
variable {s t : Notices.State} {userId newId : String} {p : NoticePayload} {now : ℚ}

/-- A raise writes one row. -/
theorem raise_rows (h : Notices.step s (.raise_ userId p newId now) = some t) : p.valid = true ∧
    t.probing = s.probing ∧ ∀ n ∈ t.notices.rows, n.slot = (userId, p.key) ∨ n ∈ s.notices.rows := by
  simp only [Notices.step] at h
  split at h
  · rename_i hvalid
    obtain ⟨r, hr, rfl⟩ := Option.map_eq_some_iff.mp h
    refine ⟨hvalid, rfl, fun n hn => ?_⟩
    unfold Notices.Store.raiseInSession at hr
    split at hr
    · obtain rfl := Option.some.inj hr
      rcases mem_updateWhere.mp hn with ⟨x, hx, hslot, rfl⟩ | ⟨hn, -⟩
      · exact .inl (of_decide_eq_true hslot)
      · exact .inr hn
    · split at hr
      · obtain rfl := Option.some.inj hr
        rcases List.mem_append.mp hn with hn | hn
        · exact .inr hn
        · exact .inl (List.mem_singleton.mp hn ▸ rfl)
      · cases hr
  · cases h

theorem probe_some (h : Notices.step s (.probe userId p) = some t) :
    t.notices = s.notices ∧ t.probing = (userId, p.key) :: s.probing := by
  simp only [Notices.step] at h
  split at h
  · cases h
    exact ⟨rfl, rfl⟩
  · cases h

/-- A clear that finds nothing leaves nothing. -/
theorem probe_none (h : Notices.step s (.probe userId p) = none) (hvalid : p.valid = true) :
    ∀ n ∈ s.notices.rows, n.userId = userId → n.key = p.key → n.resolvedAt ≠ none := by
  simp only [Notices.step, hvalid, Bool.true_and] at h
  split at h
  · cases h
  · rename_i hnone
    intro n hn huser hkey hactive
    refine hnone (Option.isSome_map.trans (List.find?_isSome.mpr ⟨n, hn, ?_⟩))
    simp [huser, hkey, hactive]

/-- A resolve leaves no active row of its key. -/
theorem resolve_rows (h : Notices.step s (.resolve userId p now) = some t) :
    t.probing = s.probing.erase (userId, p.key) ∧
      ∀ n ∈ t.notices.rows, n.resolvedAt = none → n ∈ s.notices.rows ∧ n.slot ≠ (userId, p.key) := by
  simp only [Notices.step] at h
  split at h
  · obtain rfl := Option.some.inj h
    refine ⟨rfl, fun n hn hactive => ?_⟩
    rcases mem_updateWhere.mp hn with ⟨x, -, -, rfl⟩ | ⟨hn, hout⟩
    · cases hactive
    · refine ⟨hn, fun hslot => ?_⟩
      obtain ⟨huser, hkey⟩ := Prod.mk.inj hslot
      simp [huser, hkey, hactive] at hout
  · cases h

end

/-! ## one step -/

section
variable {s t : State} {op : Op}

/-- The same notices, none of which loses its profile or its clear. -/
theorem Inv.keep (h : Inv s) (hown : ∀ userId profileId wasActive,
      .deleting userId profileId wasActive ∈ t.profiles.open_ →
      ∀ x ∈ t.profiles.profiles.rows, x.id = profileId → x.userId = userId)
    (hnotices : t.notices.notices = s.notices.notices)
    (hkept : ∀ userId profileId, (payload profileId).valid = true →
      (∃ n ∈ s.notices.notices.rows, n.userId = userId ∧ n.key = (payload profileId).key ∧ n.resolvedAt = none) →
      s.has userId profileId ∨ s.clearing userId profileId → t.has userId profileId ∨ t.clearing userId profileId) :
    Inv t := by
  refine ⟨hown, fun n hn hactive => ?_⟩
  rw [hnotices] at hn
  obtain ⟨profileId, hvalid, hkey, hcovered⟩ := h.active n hn hactive
  exact ⟨profileId, hvalid, hkey, hkept _ _ hvalid ⟨n, hn, rfl, hkey, hactive⟩ hcovered⟩

/-- A step of a request leaves every notice with its profile, or with the clear after the delete. -/
theorem profile_inv {op : Profiles.Op} {newKey : Bool} {profiles : Profiles.State} (h : Inv s)
    (hstep : Profiles.step s.profiles op = some profiles) :
    Inv { s with profiles := profiles, clears := clearsAfter newKey op ++ s.clears } := by
  have hclears : ∀ {userId profileId}, s.clearing userId profileId →
      State.clearing { s with profiles := profiles, clears := clearsAfter newKey op ++ s.clears } userId profileId :=
    fun hclear => hclear.imp (List.mem_append_right _) id
  have hcases := profile_cases hstep
  refine h.keep ?_ rfl fun userId profileId hvalid hn hcovered => ?_
  · -- the deletes are about profiles of their users
    intro userId profileId wasActive hopen y hy hid
    obtain hquiet | ⟨hdeletes, new, hrows, hfresh⟩ | ⟨hdeletes, u, p, w, rfl, -, hrows⟩ := hcases
    · obtain ⟨x, hx, hyid, hyuser⟩ := hquiet.before y hy
      rcases hquiet.deleting _ _ _ hopen with hopen | hget
      · exact hyuser.trans (h.own _ _ _ hopen x hx (hyid.symm.trans hid))
      · obtain ⟨z, hz⟩ := Option.isSome_iff_exists.mp hget
        exact hyuser.trans (Profiles.get_names hz hx (hyid.symm.trans hid))
    · rcases List.mem_append.mp (hrows ▸ hy) with hy | hy
      · exact h.own _ _ _ (hdeletes _ _ _ hopen) y hy hid
      · obtain rfl := List.mem_singleton.mp hy
        exact (hfresh _ (hdeletes _ _ _ hopen) (by rw [hid]; exact List.mem_cons_self)).elim
    · rw [show profiles.profiles.rows = (s.profiles.profiles.delete p).rows by rw [hrows]] at hy
      exact h.own _ _ _ (hdeletes _ _ _ hopen) y (mem_deleteWhere.mp hy).1 hid
  · obtain ⟨x, hx, hid, huser⟩ | hclear := hcovered
    · obtain hquiet | ⟨-, new, hrows, -⟩ | ⟨-, u, p, w, rfl, hopen, hrows⟩ := hcases
      · obtain ⟨y, hy, hyid, hyuser⟩ := hquiet.after x hx
        exact .inl ⟨y, hy, hyid.trans hid, hyuser.trans huser⟩
      · exact .inl ⟨x, by rw [hrows]; exact List.mem_append_left _ hx, hid, huser⟩
      · by_cases hp : x.id = p
        · -- the delete of its user is going to clear the notice
          have hmine := h.own _ _ _ hopen x hx hp
          exact .inr (.inl (List.mem_append_left _ (List.mem_singleton.mpr
            (Call.mk.injEq .. ▸ ⟨huser.symm.trans hmine, hid.symm.trans hp⟩))))
        · refine .inl ⟨x, ?_, hid, huser⟩
          rw [show profiles.profiles = s.profiles.profiles.delete p from hrows]
          exact mem_deleteWhere.mpr ⟨hx, decide_eq_false hp⟩
    · exact .inr (hclears hclear)

/-- A delete whose promotion fails leaves no active notice. -/
theorem stale_inv {userId profileId : String} {k : ℕ} (h : Inv s) (hok : InTime s (.stale userId profileId k))
    (hs : step s (.stale userId profileId k) = some t) : Inv t := by
  simp only [step] at hs
  split at hs
  · cases hs
  obtain ⟨profiles, hpromote, rfl⟩ := Option.map_eq_some_iff.mp hs
  have hi := @profile_inv s _ false _ h hpromote
  refine hi.keep hi.own rfl fun userId profileId _ ⟨n, hn, huser, hkey, hactive⟩ hcovered =>
    hcovered.imp id fun hclear => hclear.imp (fun hmem => ?_) id
  cases hk : s.clears[k]? with
  | none => exact (List.eraseIdx_of_length_le (List.getElem?_eq_none_iff.mp hk)).symm ▸ hmem
  | some call =>
    rcases mem_eraseIdx_or hk hmem with rfl | hrest
    · exact (hok _ hk n hn hactive (Prod.ext huser hkey)).elim
    · exact hrest

/-- A rejected key raises a notice of a profile that is there, or that a clear is about. -/
theorem rejected_inv {k : ℕ} {newId : String} {now : ℚ} (h : Inv s) (hok : InTime s (.rejected k newId now))
    (hs : step s (.rejected k newId now) = some t) : Inv t := by
  obtain ⟨call, hcall, hs⟩ := Option.bind_eq_some_iff.mp hs
  have hcovered := hok call hcall
  by_cases hvalid : (payload call.profileId).valid = true
  · rw [if_pos hvalid] at hs
    obtain ⟨notices, hraise, rfl⟩ := Option.map_eq_some_iff.mp hs
    obtain ⟨-, hprobing, hrows⟩ := raise_rows hraise
    have hclear : ∀ {userId profileId}, s.clearing userId profileId →
        State.clearing { s.dropCall k with notices := notices } userId profileId := fun hclear =>
      hclear.imp id fun hprobe => hprobing.symm ▸ hprobe
    refine ⟨h.own, fun n hn hactive => ?_⟩
    rcases hrows n hn with hslot | hold
    · obtain ⟨huser, hkey⟩ := Prod.mk.inj hslot
      exact ⟨call.profileId, hvalid, hkey, by rw [huser]; exact hcovered.imp id hclear⟩
    · obtain ⟨profileId, hvalid, hkey, hn⟩ := h.active n hold hactive
      exact ⟨profileId, hvalid, hkey, hn.imp id hclear⟩
  · rw [if_neg hvalid] at hs
    obtain rfl := Option.some.inj hs
    exact h.keep h.own rfl fun _ _ _ _ hcovered => hcovered

/-- A clear that looks finds the notice, and is going to resolve it, or finds none. -/
theorem look_inv {k : ℕ} (h : Inv s) (hs : step s (.look k) = some t) : Inv t := by
  obtain ⟨call, hcall, rfl⟩ := Option.map_eq_some_iff.mp hs
  cases hprobe : Notices.step s.notices (.probe call.userId (payload call.profileId)) with
  | some notices =>
    obtain ⟨hsame, hprobing⟩ := probe_some hprobe
    refine h.keep h.own hsame fun userId profileId _ _ hcovered => hcovered.imp id fun hclear => ?_
    rcases hclear with hmem | hmem
    · rcases mem_eraseIdx_or hcall hmem with rfl | hrest
      · exact .inr (hprobing ▸ List.mem_cons_self)
      · exact .inl hrest
    · exact .inr (hprobing ▸ List.mem_cons_of_mem _ hmem)
  | none =>
    refine h.keep h.own rfl fun userId profileId hvalid ⟨n, hn, huser, hkey, hactive⟩ hcovered =>
      hcovered.imp id fun hclear => ?_
    rcases hclear with hmem | hmem
    · rcases mem_eraseIdx_or hcall hmem with rfl | hrest
      · exact (probe_none hprobe hvalid n hn huser hkey hactive).elim
      · exact .inl hrest
    · exact .inr hmem

/-- A clear that ends has resolved its notice. -/
theorem settle_inv {userId profileId : String} {now : ℚ} (h : Inv s)
    (hs : step s (.settle userId profileId now) = some t) : Inv t := by
  obtain ⟨notices, hresolve, rfl⟩ := Option.map_eq_some_iff.mp hs
  obtain ⟨hprobing, hrows⟩ := resolve_rows hresolve
  refine ⟨h.own, fun n hn hactive => ?_⟩
  obtain ⟨hold, hother⟩ := hrows n hn hactive
  obtain ⟨other, hvalid, hkey, hcovered⟩ := h.active n hold hactive
  refine ⟨other, hvalid, hkey, hcovered.imp id fun hclear => hclear.imp id fun hprobe => ?_⟩
  rw [hprobing]
  exact (List.mem_erase_of_ne fun heq => hother (by rw [← heq, ← hkey]; rfl)).mpr hprobe

/-- **One step.** -/
theorem step_inv (h : Inv s) (hok : InTime s op) (hs : step s op = some t) : Inv t := by
  -- a further clear
  have hadd : ∀ {call : Call} {userId profileId : String}, s.clearing userId profileId →
      State.clearing { s with clears := call :: s.clears } userId profileId := fun hclear =>
    hclear.imp (List.mem_cons_of_mem _) id
  cases op with
  | profile op newKey =>
    simp only [step] at hs
    split at hs
    · cases hs
    · obtain ⟨profiles, hstep, rfl⟩ := Option.map_eq_some_iff.mp hs
      exact profile_inv h hstep
  | stale userId profileId k => exact stale_inv h hok hs
  | deleteMissing userId profileId =>
    simp only [step] at hs
    split at hs
    · obtain rfl := Option.some.inj hs
      exact h.keep h.own rfl fun _ _ _ _ hcovered => hcovered.imp id hadd
    · cases hs
  | resolve userId profileId =>
    simp only [step] at hs
    split at hs
    · obtain rfl := Option.some.inj hs
      exact h.keep h.own rfl fun _ _ _ _ hcovered => hcovered
    · cases hs
  | rejected k newId now => exact rejected_inv h hok hs
  | succeeded k =>
    obtain ⟨call, -, rfl⟩ := Option.map_eq_some_iff.mp hs
    exact h.keep h.own rfl fun _ _ _ _ hcovered => hcovered.imp id hadd
  | ended k =>
    obtain ⟨call, -, rfl⟩ := Option.map_eq_some_iff.mp hs
    exact h.keep h.own rfl fun _ _ _ _ hcovered => hcovered
  | look k => exact look_inv h hs
  | settle userId profileId now => exact settle_inv h hs

theorem reach_inv (h : reporting.Reach InTime s) : Inv s := by
  refine h.inv (fun s hs => ?_) fun _ _ _ _ hi hok hs => step_inv hi hok hs
  obtain rfl : s = .empty := hs
  exact ⟨fun _ _ _ h => (nomatch h), fun n hn => (nomatch hn)⟩

end

/-! ## the runs -/

/-- **When everything is done, an active notice is about a profile of its user**, if every rejected key was reported
in time. -/
theorem no_notice_left {s : State} (h : reporting.Reach InTime s) (hfin : s.finished) :
    ∀ n ∈ s.notices.notices.rows, n.resolvedAt = none →
      ∃ x ∈ s.profiles.profiles.rows, x.userId = n.userId ∧ n.key = (payload x.id).key := by
  obtain ⟨-, -, hclears, hprobing⟩ := hfin
  intro n hn hactive
  obtain ⟨profileId, -, hkey, hcovered⟩ := (reach_inv h).active n hn hactive
  rcases hcovered with ⟨x, hx, rfl, huser⟩ | hclear | hprobe
  · exact ⟨x, hx, huser, hkey⟩
  · rw [hclears] at hclear
    cases hclear
  · rw [hprobing] at hprobe
    cases hprobe

/-- The keys of the active notices. -/
def State.activeKeys (s : State) : List Str.Text :=
  (s.notices.notices.rows.filter fun n => n.resolvedAt.isNone).map (·.key)

def sample : Profiles.Fields := ⟨"home", "http://localhost", "m", none, 3⟩

/-- `p` and `q` are created, two calls resolve `p` before it is deleted; one reports before its commit, one before
its clear. A third one resolves `q`. -/
theorem no_notice_left_deleted : ∃ s, reporting.Reach InTime s ∧ s.finished ∧
    s.activeKeys = [(payload "q").key] ∧ ∀ n ∈ s.notices.notices.rows, n.resolvedAt = none →
      ∃ x ∈ s.profiles.profiles.rows, x.userId = n.userId ∧ n.key = (payload x.id).key := by
  obtain ⟨s, hs, hview⟩ := Option.map_eq_some_iff.mp (show
    (reporting.exec .empty [.profile (.create "u") false, .profile (.insert "u" true "p" sample "1") false,
      .profile (.create "u") false, .profile (.insert "u" false "q" sample "2") false, .resolve "u" "p",
      .resolve "u" "p", .profile (.delete "u" "p") false, .rejected 0 "n" 1,
      .profile (.remove "u" "p" true) false, .rejected 0 "m" 2, .profile (.succeed "u" (some "q")) false,
      .profile (.promote "u" "q") false, .look 0, .resolve "u" "q", .settle "u" "p" 3, .rejected 0 "m" 4]).map
      (fun s => (decide s.finished, s.activeKeys)) = some (true, [(payload "q").key]) by decide +kernel)
  obtain ⟨hfin, hkeys⟩ := Prod.ext_iff.mp hview
  have hreach : reporting.Reach InTime s := .of_guarded (.start rfl) (by decide +kernel) hs
  exact ⟨s, hreach, of_decide_eq_true hfin, hkeys, no_notice_left hreach (of_decide_eq_true hfin)⟩

/-- The profile is deleted and its notice cleared while a call is on its way; then its rejected key is reported. -/
theorem notice_left : ∃ s, reporting.Reach free s ∧ s.finished ∧
    ∃ n ∈ s.notices.notices.rows, n.resolvedAt = none ∧ n.key = (payload "p").key ∧
      ∀ x ∈ s.profiles.profiles.rows, x.id ≠ "p" := by
  obtain ⟨s, hs, hview⟩ := Option.map_eq_some_iff.mp (show
    (reporting.exec .empty [.profile (.create "u") false, .profile (.insert "u" true "p" sample "1") false,
      .resolve "u" "p", .profile (.delete "u" "p") false, .profile (.remove "u" "p" true) false,
      .profile (.succeed "u" none) false, .look 0, .rejected 0 "n" 1]).map
      (fun s => (decide s.finished, s.activeKeys, s.profiles.profiles.rows.map (·.id))) =
      some (true, [(payload "p").key], []) by decide +kernel)
  obtain ⟨hfin, hkeys, hids⟩ := Prod.ext_iff.mp hview |>.imp_right Prod.ext_iff.mp
  have hmem : (payload "p").key ∈ s.activeKeys := by
    rw [show s.activeKeys = [(payload "p").key] from hkeys]
    exact List.mem_singleton_self _
  obtain ⟨n, hn, hkey⟩ := List.mem_map.mp hmem
  obtain ⟨hmem, hactive⟩ := List.mem_filter.mp hn
  refine ⟨s, .of_exec (.start rfl) hs, of_decide_eq_true hfin, n, hmem, Option.isNone_iff_eq_none.mp hactive, hkey,
    fun x hx => ?_⟩
  rw [List.map_eq_nil_iff.mp hids] at hx
  cases hx

end Kajet.Embedding.Reports
