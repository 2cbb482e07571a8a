import Kajet.Profiles.Store

/-!
# One active profile

* `Inv`             one active profile at most, and one if there is any, or a delete that is going to
                    promote one;
* `Op.clear`        what a commit writes from its reads still fits the rows; it is exact (`clear_of_step`);
* `exactly_one_active`   in a run of such steps there is one active profile when no request is in progress.
-/

namespace Kajet.Profiles
open Table Machine

/-! ## what holds -/

/-- The request is a delete that is going to promote a profile of the user. -/
def Request.promotes (userId : String) : Request → Bool
  | .promoting user | .promotingTo user _ => user = userId
  | _ => false

def Request.userId : Request → String
  | .creating userId _ | .setting userId .. | .switching userId .. | .deleting userId .. | .promoting userId
  | .promotingTo userId _ => userId
  | .updating loaded => loaded.userId

def lit (s : State) (userId : String) : Bool := s.profiles.rows.any fun x => x.userId = userId && x.isActive

def has (s : State) (userId : String) : Bool := s.profiles.rows.any fun x => x.userId = userId

def owed (requests : List Request) (userId : String) : Bool := requests.any (·.promotes userId)

structure Inv (s : State) : Prop where
  single : ∀ x ∈ s.profiles.rows, ∀ y ∈ s.profiles.rows, x.isActive = true → y.isActive = true →
    x.userId = y.userId → x.id = y.id
  settled : ∀ userId, has s userId = true → lit s userId = true ∨ owed s.open_ userId = true
  /-- the ids that a request knows are those of its user's profiles -/
  known : ∀ request ∈ s.open_, ∀ id ∈ request.names, ∀ x ∈ s.profiles.rows, x.id = id → x.userId = request.userId

/-! ## the condition -/

/-- A delete that has to promote a profile can be left unfinished. -/
def State.spares (s : State) (request : Request) : Bool :=
  !request.promotes request.userId || lit s request.userId || !has s request.userId ||
    owed (s.open_.erase request) request.userId

/-- What the request has read still fits the rows that it writes. -/
def Op.clear (s : State) : Op → Bool
  | .insert userId sawNone newId _ _ => s.profiles.has newId ||
    -- no profile was activated since it saw none; not all were deleted since it saw one
    if sawNone then !lit s userId else has s userId || owed s.open_ userId
  | .switch userId profileId lights active =>
    !(active.all s.profiles.has && (!lights || s.profiles.has profileId)) ||
    -- the target becomes active: no other profile became active since; it does not: no profile is switched off
    if lights then s.profiles.rows.all fun x => x.userId ≠ userId || !x.isActive || x.id = profileId || x.id ∈ active
    else owed s.open_ userId || s.profiles.rows.all fun x => !x.isActive || x.id ∉ active
  | .remove userId profileId wasActive =>
    -- the profile did not become active since, or it is the last one
    wasActive || owed s.open_ userId || (s.profiles.rows.all fun x => x.id ≠ profileId || !x.isActive) ||
      s.profiles.rows.all fun x => x.userId ≠ userId || x.id = profileId
  | .promote userId profileId =>
    -- no other profile became active since, and the successor was not deleted
    if s.profiles.has profileId then
      s.profiles.rows.all fun x => x.userId ≠ userId || !x.isActive || x.id = profileId
    else s.spares (.promotingTo userId profileId)
  | .die request => s.spares request
  | _ => true

/-! ## the rows after a step -/

variable {s t : State} {x y : Profile} {userId : String} {request : Request} {next : Option Request} {op : Op}

/-- The same rows, with the flags that `f` gives. -/
structure Reflags (rows rows' : List Profile) (f : Profile → Bool) : Prop where
  after : ∀ x ∈ rows, ∃ y ∈ rows', y.id = x.id ∧ y.userId = x.userId ∧ y.isActive = f x
  before : ∀ y ∈ rows', ∃ x ∈ rows, y.id = x.id ∧ y.userId = x.userId ∧ y.isActive = f x

theorem Reflags.refl (rows : List Profile) : Reflags rows rows (·.isActive) :=
  ⟨fun x hx => ⟨x, hx, rfl, rfl, rfl⟩, fun y hy => ⟨y, hy, rfl, rfl, rfl⟩⟩

theorem Reflags.update {rows : List Profile} {p : Profile → Bool} {g : Profile → Profile} {f : Profile → Bool}
    (hg : ∀ x, (g x).id = x.id ∧ (g x).userId = x.userId) (hf : ∀ x, f x = if p x then (g x).isActive else x.isActive) :
    Reflags rows (updateWhere p g rows) f := by
  constructor
  · intro x hx
    refine ⟨_, List.mem_map_of_mem hx, ?_⟩
    rw [hf]
    split
    · exact ⟨(hg x).1, (hg x).2, rfl⟩
    · exact ⟨rfl, rfl, rfl⟩
  · intro y hy
    obtain ⟨x, hx, rfl⟩ := List.mem_map.mp hy
    refine ⟨x, hx, ?_⟩
    rw [hf]
    split
    · exact ⟨(hg x).1, (hg x).2, rfl⟩
    · exact ⟨rfl, rfl, rfl⟩

theorem Reflags.trans {rows₁ rows₂ rows₃ : List Profile} {f g k : Profile → Bool} (hf : Reflags rows₁ rows₂ f)
    (hg : Reflags rows₂ rows₃ g) (hk : ∀ x y : Profile, y.id = x.id → y.isActive = f x → g y = k x) :
    Reflags rows₁ rows₃ k := by
  constructor
  · intro x hx
    obtain ⟨y, hy, hyid, hyuser, hyf⟩ := hf.after x hx
    obtain ⟨z, hz, hzid, hzuser, hzg⟩ := hg.after y hy
    exact ⟨z, hz, hzid.trans hyid, hzuser.trans hyuser, hzg.trans (hk x y hyid hyf)⟩
  · intro z hz
    obtain ⟨y, hy, hzid, hzuser, hzg⟩ := hg.before z hz
    obtain ⟨x, hx, hyid, hyuser, hyf⟩ := hf.before y hy
    exact ⟨x, hx, hzid.trans hyid, hzuser.trans hyuser, hzg.trans (hk x y hyid hyf)⟩

theorem reflags_setFlags (store : Store) (p : Profile → Bool) (isActive : Bool) :
    Reflags store.rows (store.setFlags p isActive).rows fun x => if p x then isActive else x.isActive :=
  .update (fun _ => ⟨rfl, rfl⟩) fun _ => rfl

theorem reflags_turned (store : Store) (active : List String) (profileId : String) :
    Reflags store.rows ((store.setFlags (fun x => x.id ∈ active) false).setFlags (fun x => x.id = profileId) true).rows
      fun x => if x.id = profileId then true else if x.id ∈ active then false else x.isActive :=
  (reflags_setFlags ..).trans (reflags_setFlags ..) fun x y hid hon => by simp [hid, hon]

theorem lit_iff : lit s userId = true ↔ ∃ x ∈ s.profiles.rows, x.userId = userId ∧ x.isActive = true := by
  simp [lit]

theorem has_iff : has s userId = true ↔ ∃ x ∈ s.profiles.rows, x.userId = userId := by
  simp [has]

theorem Inv.reflag {f : Profile → Bool} (h : Inv s) (hr : Reflags s.profiles.rows t.profiles.rows f)
    (hsingle : ∀ x ∈ s.profiles.rows, ∀ y ∈ s.profiles.rows, f x = true → f y = true → x.userId = y.userId → x.id = y.id)
    (hsettled : ∀ userId, has s userId = true →
      (∃ x ∈ s.profiles.rows, x.userId = userId ∧ f x = true) ∨ owed t.open_ userId = true)
    (hknown : ∀ request ∈ t.open_, request ∈ s.open_ ∨ ∀ id ∈ request.names, ∀ x ∈ s.profiles.rows, x.id = id →
      x.userId = request.userId) : Inv t where
  single x hx y hy hxa hya huser := by
    obtain ⟨x', hx', hxid, hxuser, hxf⟩ := hr.before x hx
    obtain ⟨y', hy', hyid, hyuser, hyf⟩ := hr.before y hy
    rw [hxid, hyid]
    exact hsingle x' hx' y' hy' (hxf ▸ hxa) (hyf ▸ hya) (by rw [← hxuser, ← hyuser, huser])
  settled userId hhas := by
    obtain ⟨y, hy, huser⟩ := has_iff.mp hhas
    obtain ⟨x, hx, -, hxuser, -⟩ := hr.before y hy
    refine (hsettled userId (has_iff.mpr ⟨x, hx, hxuser.symm.trans huser⟩)).imp_left fun ⟨x, hx, huser, hf⟩ => ?_
    obtain ⟨y, hy, -, hyuser, hyf⟩ := hr.after x hx
    exact lit_iff.mpr ⟨y, hy, hyuser.trans huser, hyf.trans hf⟩
  known request hrequest id hid y hy hyid := by
    obtain ⟨x, hx, hxid, hxuser, -⟩ := hr.before y hy
    rw [hxuser]
    rcases hknown request hrequest with hopen | hnew
    · exact h.known request hopen id hid x hx (hxid.symm.trans hyid)
    · exact hnew id hid x hx (hxid.symm.trans hyid)

theorem resume_eq_some {rows : Store} : s.resume rows request next = some t ↔
    request ∈ s.open_ ∧ t = ⟨rows, next.toList ++ s.open_.erase request⟩ := by
  unfold State.resume
  split <;> simp_all [eq_comm]

theorem owed_append {first rest : List Request} (h : owed rest userId = true) : owed (first ++ rest) userId = true := by
  rw [owed, List.any_append, Bool.or_eq_true]
  exact .inr h

/-- Only a request that is going to promote a profile leaves with its promise. -/
theorem owed_erase {requests : List Request} (h : owed requests userId = true)
    (hnot : request.promotes userId = false) : owed (requests.erase request) userId = true := by
  obtain ⟨other, hmem, hother⟩ := List.any_eq_true.mp h
  have hne : other ≠ request := fun heq => by rw [heq, hnot] at hother; cases hother
  exact List.any_eq_true.mpr ⟨other, (List.mem_erase_of_ne hne).mpr hmem, hother⟩

theorem promotes_eq_true : request.promotes userId = true →
    request.userId = userId ∧ request.promotes request.userId = true := by
  cases request <;> simp [Request.promotes, Request.userId]

/-- A request commits flags. -/
theorem Inv.commit {f : Profile → Bool} {rows : Store} (h : Inv s) (hr : Reflags s.profiles.rows rows.rows f)
    (hsingle : ∀ x ∈ s.profiles.rows, ∀ y ∈ s.profiles.rows, f x = true → f y = true → x.userId = y.userId → x.id = y.id)
    (hsettled : ∀ userId, has s userId = true → (∃ x ∈ s.profiles.rows, x.userId = userId ∧ f x = true) ∨
      owed (next.toList ++ s.open_.erase request) userId = true)
    (hnext : ∀ new ∈ next, ∀ id ∈ new.names, ∀ x ∈ s.profiles.rows, x.id = id → x.userId = new.userId) :
    Inv ⟨rows, next.toList ++ s.open_.erase request⟩ := by
  refine h.reflag hr hsingle hsettled fun other hother => ?_
  rcases List.mem_append.mp hother with hnew | hold
  · exact .inr (hnext other (Option.mem_toList.mp hnew))
  · exact .inl (List.mem_of_mem_erase hold)

/-- A request goes on, and no flag changes. -/
theorem Inv.kept {rows : Store} (h : Inv s) (hr : Reflags s.profiles.rows rows.rows (·.isActive))
    (howed : ∀ userId, has s userId = true → owed s.open_ userId = true →
      lit s userId = true ∨ owed (next.toList ++ s.open_.erase request) userId = true)
    (hnext : ∀ new ∈ next, ∀ id ∈ new.names, ∀ x ∈ s.profiles.rows, x.id = id → x.userId = new.userId) :
    Inv ⟨rows, next.toList ++ s.open_.erase request⟩ := by
  refine h.commit hr h.single (fun userId hhas => ?_) hnext
  rw [← lit_iff]
  exact (h.settled userId hhas).elim .inl (howed userId hhas)

/-- A request begins. -/
theorem Inv.begin (h : Inv s)
    (hnew : ∀ id ∈ request.names, ∀ x ∈ s.profiles.rows, x.id = id → x.userId = request.userId) :
    Inv { s with open_ := request :: s.open_ } := by
  refine h.reflag (.refl _) h.single (fun userId hhas => ?_) fun other hother => ?_
  · rw [← lit_iff]
    exact (h.settled userId hhas).imp_right fun howed => @owed_append userId [request] _ howed
  · rcases List.mem_cons.mp hother with rfl | hold
    · exact .inr hnew
    · exact .inl hold

theorem get_eq_some {profileId : String} (h : s.profiles.get userId profileId = some x) :
    x ∈ s.profiles.rows ∧ x.id = profileId ∧ x.userId = userId := by
  obtain ⟨hrow, huser⟩ := Option.filter_eq_some_iff.mp h
  obtain ⟨hmem, hid⟩ := row_some hrow
  exact ⟨hmem, hid, of_decide_eq_true huser⟩

theorem has_eq_true {store : Store} {profileId : String} : store.has profileId = true ↔
    ∃ x ∈ store.rows, x.id = profileId := by
  rw [Store.has, Option.isSome_iff_ne_none, Ne, row_eq_none]
  push Not
  rfl

/-- The loaded row is the only one with its id. -/
theorem get_names {profileId : String} (h : s.profiles.get userId profileId = some x)
    (hy : y ∈ s.profiles.rows) (hid : y.id = profileId) : y.userId = userId := by
  obtain ⟨hmem, hxid, huser⟩ := get_eq_some h
  rw [s.profiles.ids.eq hy hmem (hid.trans hxid.symm), huser]

/-! ## one step -/

theorem Inv.insert {sawNone : Bool} {new : Profile} {ids} (h : Inv s) (huser : new.userId = userId)
    (hactive : new.isActive = sawNone) (hid : ∀ x ∈ s.profiles.rows, x.id ≠ new.id)
    (hnew : ∀ other ∈ s.open_, new.id ∉ other.names)
    (hclear : if sawNone then lit s userId = false else has s userId = true ∨ owed s.open_ userId = true) :
    Inv ⟨⟨s.profiles.rows ++ [new], ids⟩, s.open_.erase (.creating userId sawNone)⟩ := by
  subst huser hactive
  have hkeep {u : String} (howed : owed s.open_ u = true) :
      owed (s.open_.erase (.creating new.userId new.isActive)) u = true := owed_erase howed rfl
  have hdark (hon : new.isActive = true) {x : Profile} (hx : x ∈ s.profiles.rows) (hxon : x.isActive = true)
      (hxuser : x.userId = new.userId) : False := by
    rw [if_pos hon] at hclear
    rw [lit_iff.mpr ⟨x, hx, hxuser, hxon⟩] at hclear
    cases hclear
  constructor
  · intro x hxt y hyt hxon hyon hsame
    rcases List.mem_append.mp hxt with hx | hx <;> rcases List.mem_append.mp hyt with hy | hy
    · exact h.single x hx y hy hxon hyon hsame
    · obtain rfl := List.mem_singleton.mp hy
      exact (hdark hyon hx hxon hsame).elim
    · obtain rfl := List.mem_singleton.mp hx
      exact (hdark hxon hy hyon hsame.symm).elim
    · rw [List.mem_singleton.mp hx, List.mem_singleton.mp hy]
  · intro u hhas
    have hold (hhas : has s u = true) : lit ⟨⟨s.profiles.rows ++ [new], ids⟩, s.open_.erase
        (.creating new.userId new.isActive)⟩ u = true ∨ owed (s.open_.erase
        (.creating new.userId new.isActive)) u = true := by
      refine (h.settled u hhas).imp (fun hlit => ?_) hkeep
      obtain ⟨x, hx, hxuser, hxon⟩ := lit_iff.mp hlit
      exact lit_iff.mpr ⟨x, List.mem_append_left _ hx, hxuser, hxon⟩
    obtain ⟨x, hx, hxuser⟩ := has_iff.mp hhas
    rcases List.mem_append.mp hx with hx | hx
    · exact hold (has_iff.mpr ⟨x, hx, hxuser⟩)
    · obtain rfl := List.mem_singleton.mp hx
      subst hxuser
      by_cases hon : x.isActive = true
      · exact .inl (lit_iff.mpr ⟨x, List.mem_append_right _ (.head _), rfl, hon⟩)
      · rw [if_neg hon] at hclear
        exact hclear.elim hold fun howed => .inr (hkeep howed)
  · intro other hother id hmem x hxt hxid
    have hold := List.mem_of_mem_erase hother
    rcases List.mem_append.mp hxt with hx | hx
    · exact h.known other hold id hmem x hx hxid
    · rw [List.mem_singleton.mp hx] at hxid
      exact (hnew other hold (hxid ▸ hmem)).elim

theorem Inv.switch {profileId : String} {lights : Bool} {active : List String} (h : Inv s)
    (hopen : .switching userId profileId lights active ∈ s.open_)
    (hthere : lights = true → s.profiles.has profileId = true)
    (hclear : if lights then ∀ x ∈ s.profiles.rows, x.userId = userId → x.isActive = true → x.id = profileId ∨ x.id ∈ active
      else owed s.open_ userId = true ∨ ∀ x ∈ s.profiles.rows, x.isActive = true → x.id ∉ active) :
    Inv ⟨if lights then (s.profiles.setFlags (fun x => x.id ∈ active) false).setFlags (fun x => x.id = profileId) true
      else s.profiles.setFlags (fun x => x.id ∈ active) false,
      (none : Option Request).toList ++ s.open_.erase (.switching userId profileId lights active)⟩ := by
  have hown {x : Profile} (hx : x ∈ s.profiles.rows) (hid : x.id ∈ profileId :: active) : x.userId = userId :=
    h.known _ hopen x.id hid x hx rfl
  have hkeep {u : String} (howed : owed s.open_ u = true) : owed (s.open_.erase
      (.switching userId profileId lights active)) u = true := owed_erase howed rfl
  cases lights with
  | true =>
    rw [if_pos rfl] at hclear ⊢
    refine h.commit (reflags_turned ..) (fun x hx y hy hxon hyon hsame => ?_) (fun u hhas => ?_) (by exact nofun)
    · by_cases hu : x.userId = userId
      · have htarget {z : Profile} (hz : z ∈ s.profiles.rows) (hzuser : z.userId = userId)
            (hzon : (if z.id = profileId then true else if z.id ∈ active then false else z.isActive) = true) :
            z.id = profileId := by
          by_contra hne
          rw [if_neg hne] at hzon
          split at hzon
          · cases hzon
          · exact (hclear z hz hzuser hzon).elim hne ‹_›
        rw [htarget hx hu hxon, htarget hy (hsame ▸ hu) hyon]
      · have hother {z : Profile} (hz : z ∈ s.profiles.rows) (hzuser : z.userId ≠ userId) :
            z.id ≠ profileId ∧ z.id ∉ active :=
          ⟨fun hid => hzuser (hown hz (hid ▸ .head _)), fun hmem => hzuser (hown hz (.tail _ hmem))⟩
        rw [if_neg (hother hx hu).1, if_neg (hother hx hu).2] at hxon
        rw [if_neg (hother hy (hsame ▸ hu)).1, if_neg (hother hy (hsame ▸ hu)).2] at hyon
        exact h.single x hx y hy hxon hyon hsame
    · by_cases hu : u = userId
      · obtain ⟨x, hx, hid⟩ := has_eq_true.mp (hthere rfl)
        exact .inl ⟨x, hx, (hown hx (hid ▸ .head _)).trans hu.symm, if_pos hid⟩
      · refine (h.settled u hhas).imp (fun hlit => ?_) hkeep
        obtain ⟨x, hx, hxuser, hxon⟩ := lit_iff.mp hlit
        have hstays : x.id ∉ active := fun hmem => hu (hxuser.symm.trans (hown hx (.tail _ hmem)))
        exact ⟨x, hx, hxuser, by rw [if_neg hstays, hxon, ite_self]⟩
  | false =>
    rw [if_neg (by exact nofun)] at hclear ⊢
    have hoff {x : Profile} (hx : (if decide (x.id ∈ active) then false else x.isActive) = true) : x.isActive = true := by
      split at hx
      · cases hx
      · exact hx
    refine h.commit (reflags_setFlags ..) (fun x hx y hy hxon hyon => h.single x hx y hy (hoff hxon) (hoff hyon))
      (fun u hhas => ?_)
      (by exact nofun)
    refine or_iff_not_imp_right.mpr fun hnot => ?_
    have hnone : owed s.open_ u ≠ true := fun howed => hnot (hkeep howed)
    obtain ⟨x, hx, hxuser, hxon⟩ := lit_iff.mp ((h.settled u hhas).resolve_right hnone)
    have hstays : x.id ∉ active := by
      intro hmem
      rw [← hxuser, hown hx (.tail _ hmem)] at hnone
      exact hclear.resolve_left hnone x hx hxon hmem
    exact ⟨x, hx, hxuser, by rw [if_neg (by simpa using hstays), hxon]⟩

theorem Inv.remove {profileId : String} {wasActive : Bool} (h : Inv s)
    (hopen : .deleting userId profileId wasActive ∈ s.open_)
    (hclear : (Op.remove userId profileId wasActive).clear s = true) :
    Inv ⟨s.profiles.delete profileId, (if wasActive then some (.promoting userId) else none : Option Request).toList ++
      s.open_.erase (.deleting userId profileId wasActive)⟩ := by
  have hrows {x : Profile} : x ∈ (s.profiles.delete profileId).rows ↔ x ∈ s.profiles.rows ∧ x.id ≠ profileId := by
    rw [Store.delete, mem_deleteWhere, decide_eq_false_iff_not]
  have hown := h.known _ hopen profileId (.head _)
  constructor
  · intro x hx y hy
    exact h.single x (hrows.mp hx).1 y (hrows.mp hy).1
  · intro u hhas
    have hkeep (howed : owed s.open_ u = true) : owed ((if wasActive then some (.promoting userId) else none :
        Option Request).toList ++ s.open_.erase (.deleting userId profileId wasActive)) u = true :=
      owed_append (owed_erase howed rfl)
    obtain ⟨y, hy, hyuser⟩ := has_iff.mp hhas
    obtain ⟨hyold, hyid⟩ := hrows.mp hy
    rcases h.settled u (has_iff.mpr ⟨y, hyold, hyuser⟩) with hlit | howed
    · obtain ⟨x, hx, hxuser, hxon⟩ := lit_iff.mp hlit
      by_cases hid : x.id = profileId
      · -- the active profile goes: the request promotes another one, or nothing is left to promote
        have hu : u = userId := hxuser.symm.trans (hown x hx hid)
        subst hu
        simp only [Op.clear, Bool.or_eq_true, List.all_eq_true, decide_eq_true_eq, ne_eq, decide_not,
          Bool.not_eq_true', decide_eq_false_iff_not] at hclear
        rcases hclear with ((hwas | howed) | hoff) | hlast
        · rw [hwas]
          exact .inr (by simp [owed, Request.promotes])
        · exact .inr (hkeep howed)
        · rcases hoff x hx with hne | hoff
          · exact (hne hid).elim
          · rw [hxon] at hoff
            cases hoff
        · exact ((hlast y hyold).elim (· hyuser) hyid).elim
      · exact .inl (lit_iff.mpr ⟨x, hrows.mpr ⟨hx, hid⟩, hxuser, hxon⟩)
    · exact .inr (hkeep howed)
  · intro other hother id hmem x hx hxid
    rcases List.mem_append.mp hother with hother | hother
    · split at hother
      · obtain rfl := List.mem_singleton.mp hother
        cases hmem
      · cases hother
    · exact h.known other (List.mem_of_mem_erase hother) id hmem x (hrows.mp hx).1 hxid

theorem State.spares_iff : s.spares request = true ↔ (request.promotes request.userId = true →
    has s request.userId = true → lit s request.userId = true ∨ owed (s.open_.erase request) request.userId = true) := by
  simp only [State.spares, Bool.or_eq_true, Bool.not_eq_true']
  cases request.promotes request.userId <;> cases has s request.userId <;> simp

/-- The request ends, and no flag changes. -/
theorem Inv.ends {rows : Store} (h : Inv s) (hr : Reflags s.profiles.rows rows.rows (·.isActive))
    (hspares : s.spares request = true) : Inv ⟨rows, (none : Option Request).toList ++ s.open_.erase request⟩ := by
  refine h.kept hr (fun u hhas howed => ?_) (by exact nofun)
  cases hpromotes : request.promotes u with
  | false => exact .inr (owed_erase howed hpromotes)
  | true =>
    obtain ⟨rfl, hself⟩ := promotes_eq_true hpromotes
    exact State.spares_iff.mp hspares hself hhas

/-- A delete that has to promote a profile finds one that is active, goes on with one, or finds none at all. -/
theorem Inv.handsOver (h : Inv s)
    (hnow : has s userId = true → lit s userId = true ∨ owed next.toList userId = true)
    (hnext : ∀ new ∈ next, ∀ id ∈ new.names, ∀ x ∈ s.profiles.rows, x.id = id → x.userId = new.userId) :
    Inv ⟨s.profiles, next.toList ++ s.open_.erase (.promoting userId)⟩ := by
  refine h.kept (.refl _) (fun u hhas howed => ?_) hnext
  by_cases hu : u = userId
  · subst hu
    refine (hnow hhas).imp_right fun hnew => ?_
    rw [owed, List.any_append, Bool.or_eq_true]
    exact .inl hnew
  · exact .inr (owed_append (owed_erase howed (by simpa [Request.promotes] using Ne.symm hu)))

theorem Inv.promote {profileId : String} (h : Inv s) (hopen : .promotingTo userId profileId ∈ s.open_)
    (hclear : (Op.promote userId profileId).clear s = true) :
    Inv ⟨s.profiles.setFlags (fun x => x.id = profileId) true,
      (none : Option Request).toList ++ s.open_.erase (.promotingTo userId profileId)⟩ := by
  have hown {x : Profile} (hx : x ∈ s.profiles.rows) (hid : x.id = profileId) : x.userId = userId :=
    h.known _ hopen x.id (hid ▸ .head _) x hx rfl
  have hflags := reflags_setFlags s.profiles (fun x => x.id = profileId) true
  simp only [decide_eq_true_eq] at hflags
  simp only [Op.clear] at hclear
  split at hclear
  next hthere =>
    simp only [List.all_eq_true, Bool.or_eq_true, decide_eq_true_eq, ne_eq, decide_not, Bool.not_eq_true',
      decide_eq_false_iff_not] at hclear
    obtain ⟨target, htarget, htid⟩ := has_eq_true.mp hthere
    refine h.commit hflags (fun x hx y hy hxon hyon hsame => ?_) (fun u hhas => ?_) (by exact nofun)
    · by_cases hu : x.userId = userId
      · have honly {z : Profile} (hz : z ∈ s.profiles.rows) (hzuser : z.userId = userId)
            (hzon : (if z.id = profileId then true else z.isActive) = true) : z.id = profileId := by
          by_contra hne
          rw [if_neg hne] at hzon
          rcases hclear z hz with (hnot | hoff) | hid
          · exact hnot hzuser
          · rw [hzon] at hoff
            cases hoff
          · exact hne hid
        rw [honly hx hu hxon, honly hy (hsame ▸ hu) hyon]
      · rw [if_neg fun hid => hu (hown hx hid)] at hxon
        rw [if_neg fun hid => hu (hsame.trans (hown hy hid))] at hyon
        exact h.single x hx y hy hxon hyon hsame
    · by_cases hu : u = userId
      · exact .inl ⟨target, htarget, (hown htarget htid).trans hu.symm, if_pos htid⟩
      · refine (h.settled u hhas).imp (fun hlit => ?_) fun howed => ?_
        · obtain ⟨x, hx, hxuser, hxon⟩ := lit_iff.mp hlit
          exact ⟨x, hx, hxuser, by rw [hxon, ite_self]⟩
        · exact owed_erase howed (by simpa [Request.promotes] using Ne.symm hu)
  next hgone =>
    have hnone (x : Profile) (hx : x ∈ s.profiles.rows) : decide (x.id = profileId) = false :=
      decide_eq_false fun hid => hgone (has_eq_true.mpr ⟨x, hx, hid⟩)
    have hsame : (s.profiles.setFlags (fun x => x.id = profileId) true).rows = s.profiles.rows :=
      updateWhere_of_none hnone
    exact h.ends (by rw [hsame]; exact .refl _) hclear

theorem Inv.step (h : Inv s) (hclear : op.clear s = true) (hstep : step s op = some t) : Inv t := by
  cases op with
  | create userId =>
    cases hstep
    exact h.begin (by exact nofun)
  | insert userId sawNone newId fields now =>
    simp only [Profiles.step] at hstep
    split at hstep
    next => cases hstep
    next hknown =>
      split at hstep
      next hnew =>
        obtain ⟨-, rfl⟩ := resume_eq_some.mp hstep
        have habsent : s.profiles.has newId = false := by
          rw [← Bool.not_eq_true, has_eq_true]
          exact fun ⟨x, hx, hid⟩ => hnew x hx hid
        refine h.insert rfl rfl hnew (fun other hother hmem => hknown ?_) ?_
        · exact List.any_eq_true.mpr ⟨other, hother, decide_eq_true hmem⟩
        · rw [Op.clear, habsent, Bool.false_or] at hclear
          cases sawNone <;> simpa using hclear
      next =>
        obtain ⟨-, rfl⟩ := resume_eq_some.mp hstep
        exact h.ends (.refl _) rfl
  | setActive userId profileId | delete userId profileId =>
    obtain ⟨x, hget, rfl⟩ := Option.map_eq_some_iff.mp hstep
    refine h.begin fun id hmem y hy hid => ?_
    obtain rfl := List.mem_singleton.mp hmem
    exact get_names hget hy hid
  | update userId profileId =>
    obtain ⟨x, hget, rfl⟩ := Option.map_eq_some_iff.mp hstep
    refine h.begin fun id hmem y hy hid => ?_
    obtain rfl := List.mem_singleton.mp hmem
    rw [s.profiles.ids.eq hy (get_eq_some hget).1 hid]
    rfl
  | readAll userId profileId wasActive =>
    obtain ⟨hopen, rfl⟩ := resume_eq_some.mp hstep
    refine h.kept (.refl _) (fun u _ howed => .inr (owed_append (owed_erase howed rfl))) fun new hnew id hmem y hy hid => ?_
    obtain rfl := Option.mem_some.mp hnew
    rcases List.mem_cons.mp hmem with rfl | hmem
    · exact h.known _ hopen id (.head _) y hy hid
    · obtain ⟨x, hx, rfl⟩ := List.mem_map.mp hmem
      obtain ⟨hmine, huser⟩ := List.mem_filter.mp (List.mem_of_mem_filter hx)
      rw [s.profiles.ids.eq hy hmine hid]
      exact of_decide_eq_true huser
  | switch userId profileId lights active =>
    simp only [Profiles.step] at hstep
    split at hstep
    next hthere =>
      obtain ⟨hopen, rfl⟩ := resume_eq_some.mp hstep
      refine h.switch hopen (fun hon => ?_) ?_
      · rw [hon] at hthere
        simpa using (Bool.and_eq_true _ _ ▸ hthere).2
      · simp only [Op.clear, hthere, Bool.not_true, Bool.false_or] at hclear
        cases lights with
        | true =>
          intro x hx huser hon
          simpa [huser, hon] using List.all_eq_true.mp hclear x hx
        | false =>
          refine ((Bool.or_eq_true _ _).mp hclear).imp_right fun hall x hx hon => ?_
          simpa [hon] using List.all_eq_true.mp hall x hx
    next =>
      obtain ⟨-, rfl⟩ := resume_eq_some.mp hstep
      exact h.ends (.refl _) rfl
  | write loaded fields now =>
    obtain ⟨-, rfl⟩ := resume_eq_some.mp hstep
    exact h.ends (.update (fun _ => ⟨rfl, rfl⟩) fun x => (ite_self _).symm) rfl
  | remove userId profileId wasActive =>
    obtain ⟨hopen, rfl⟩ := resume_eq_some.mp hstep
    exact h.remove hopen hclear
  | succeed userId successor =>
    simp only [Profiles.step] at hstep
    split at hstep
    next =>
      split at hstep
      next => cases hstep
      next hnone =>
        obtain ⟨-, rfl⟩ := resume_eq_some.mp hstep
        exact h.handsOver (fun hhas => (hnone hhas).elim) (by exact nofun)
    next profileId =>
      split at hstep
      next => cases hstep
      next x hfilter =>
        obtain ⟨-, rfl⟩ := resume_eq_some.mp hstep
        have hget := (Option.filter_eq_some_iff.mp hfilter).1
        obtain ⟨hx, hid, huser⟩ := get_eq_some hget
        refine h.handsOver (fun _ => ?_) fun new hnew id hmem y hy hyid => ?_
        · split
          next hon => exact .inl (lit_iff.mpr ⟨x, hx, huser, hon⟩)
          next => exact .inr (by simp [owed, Request.promotes])
        · split at hnew
          next => cases hnew
          next =>
            obtain rfl := Option.mem_some.mp hnew
            obtain rfl := List.mem_singleton.mp hmem
            exact get_names hget hy hyid
  | promote userId profileId =>
    obtain ⟨hopen, rfl⟩ := resume_eq_some.mp hstep
    exact h.promote hopen hclear
  | die request =>
    obtain ⟨-, rfl⟩ := resume_eq_some.mp hstep
    exact h.ends (.refl _) hclear

/-- A promise that is not in the rest was the request's own. -/
theorem owed_of_append {first rest : List Request} (h : owed (first ++ rest.erase request) userId = true) :
    owed first userId = true ∨ owed rest userId = true := by
  obtain ⟨other, hmem, hother⟩ := List.any_eq_true.mp h
  rcases List.mem_append.mp hmem with hfirst | hrest
  · exact .inl (List.any_eq_true.mpr ⟨other, hfirst, hother⟩)
  · exact .inr (List.any_eq_true.mpr ⟨other, List.mem_of_mem_erase hrest, hother⟩)

theorem Inv.spares_of {rows : Store} (hr : Reflags s.profiles.rows rows.rows (·.isActive))
    (h : Inv ⟨rows, (none : Option Request).toList ++ s.open_.erase request⟩) : s.spares request = true := by
  rw [State.spares_iff]
  intro _ hhas
  obtain ⟨x, hx, hxuser⟩ := has_iff.mp hhas
  obtain ⟨y, hy, -, hyuser, -⟩ := hr.after x hx
  refine (h.settled _ (has_iff.mpr ⟨y, hy, hyuser.trans hxuser⟩)).imp_left fun hlit => ?_
  obtain ⟨z, hz, hzuser, hzon⟩ := lit_iff.mp hlit
  obtain ⟨w, hw, -, hwuser, hwon⟩ := hr.before z hz
  exact lit_iff.mpr ⟨w, hw, hwuser.symm.trans hzuser, hwon.symm.trans hzon⟩

/-- The condition is exact. -/
theorem clear_of_step (h : Inv s) (hstep : step s op = some t) (ht : Inv t) : op.clear s = true := by
  cases op with
  | create | setActive | readAll | update | write | delete | succeed => rfl
  | insert userId sawNone newId fields now =>
    simp only [Profiles.step] at hstep
    split at hstep
    next => cases hstep
    next hknown =>
      split at hstep
      next hnew =>
        obtain ⟨-, rfl⟩ := resume_eq_some.mp hstep
        rw [Op.clear, Bool.or_eq_true]
        refine .inr ?_
        cases sawNone with
        | true =>
          rw [if_pos rfl, Bool.not_eq_true', ← Bool.not_eq_true]
          intro hlit
          obtain ⟨x, hx, hxuser, hxon⟩ := lit_iff.mp hlit
          exact hnew x hx (ht.single x (List.mem_append_left _ hx) _ (List.mem_append_right _ (.head _)) hxon rfl hxuser)
        | false =>
          rw [if_neg (by exact nofun), Bool.or_eq_true]
          refine (ht.settled userId (has_iff.mpr ⟨_, List.mem_append_right _ (.head _), rfl⟩)).imp (fun hlit => ?_)
            fun howed => (owed_of_append howed).resolve_left (by exact nofun)
          obtain ⟨x, hx, hxuser, hxon⟩ := lit_iff.mp hlit
          rcases List.mem_append.mp hx with hold | hmade
          · exact has_iff.mpr ⟨x, hold, hxuser⟩
          · rw [List.mem_singleton.mp hmade] at hxon
            cases hxon
      next hnew =>
        push Not at hnew
        rw [Op.clear, has_eq_true.mpr hnew, Bool.true_or]
  | switch userId profileId lights active =>
    simp only [Profiles.step] at hstep
    split at hstep
    next hthere =>
      obtain ⟨hopen, rfl⟩ := resume_eq_some.mp hstep
      have hown {x : Profile} (hx : x ∈ s.profiles.rows) (hid : x.id ∈ profileId :: active) : x.userId = userId :=
        h.known _ hopen x.id hid x hx rfl
      rw [Op.clear, hthere, Bool.not_true, Bool.false_or]
      cases lights with
      | true =>
        rw [if_pos rfl] at ht ⊢
        rw [Bool.not_true, Bool.false_or, Bool.and_eq_true] at hthere
        obtain ⟨target, htarget, htid⟩ := has_eq_true.mp hthere.2
        obtain ⟨target', htarget', hid', huser', hon'⟩ := (reflags_turned _ active profileId).after target htarget
        rw [if_pos htid] at hon'
        refine List.all_eq_true.mpr fun x hx => ?_
        by_contra hnot
        simp only [ne_eq, decide_not, Bool.or_eq_true, Bool.not_eq_true', decide_eq_false_iff_not, decide_eq_true_eq,
          not_or, not_not, Bool.not_eq_false] at hnot
        obtain ⟨⟨⟨hxuser, hxon⟩, hxid⟩, hstays⟩ := hnot
        obtain ⟨y, hy, hyid, hyuser, hyon⟩ := (reflags_turned _ active profileId).after x hx
        rw [if_neg hxid, if_neg hstays, hxon] at hyon
        have hsame := ht.single y hy target' htarget' hyon hon'
          (by rw [hyuser, hxuser, huser', hown htarget (htid ▸ .head _)])
        exact hxid (by rw [← hyid, hsame, hid', htid])
      | false =>
        rw [if_neg (by exact nofun)] at ht ⊢
        rw [Bool.or_eq_true]
        refine or_iff_not_imp_right.mpr fun hnot => ?_
        obtain ⟨x, hx, hxnot⟩ := List.all_eq_false.mp (Bool.not_eq_true _ ▸ hnot)
        simp only [Bool.or_eq_true, Bool.not_eq_true', decide_eq_true_eq, not_or, Bool.not_eq_false, not_not] at hxnot
        obtain ⟨hxon, hmem⟩ := hxnot
        have hxuser := hown hx (.tail _ hmem)
        obtain ⟨y, hy, hyid, hyuser, -⟩ := (reflags_setFlags _ (fun x => x.id ∈ active) false).after x hx
        refine (ht.settled userId (has_iff.mpr ⟨y, hy, hyuser.trans hxuser⟩)).elim (fun hlit => ?_) fun howed =>
          (owed_of_append howed).resolve_left (by exact nofun)
        obtain ⟨z, hz, hzuser, hzon⟩ := lit_iff.mp hlit
        obtain ⟨w, hw, hwid, hwuser, hwon⟩ := (reflags_setFlags _ (fun x => x.id ∈ active) false).before z hz
        rw [hzon] at hwon
        split at hwon
        next => cases hwon
        next hstays =>
          have hsame := h.single w hw x hx hwon.symm hxon (by rw [← hwuser, hzuser, hxuser])
          exact (hstays (decide_eq_true (hsame ▸ hmem))).elim
    next hgone => rw [Op.clear, Bool.eq_false_iff.mpr hgone, Bool.not_false, Bool.true_or]
  | remove userId profileId wasActive =>
    obtain ⟨hopen, rfl⟩ := resume_eq_some.mp hstep
    by_contra hnot
    simp only [Op.clear, ne_eq, decide_not, Bool.or_eq_true, not_or, Bool.not_eq_true] at hnot
    obtain ⟨⟨⟨hwas, howed⟩, hon⟩, hothers⟩ := hnot
    subst hwas
    obtain ⟨x, hx, hxnot⟩ := List.all_eq_false.mp hon
    obtain ⟨y, hy, hynot⟩ := List.all_eq_false.mp hothers
    simp only [Bool.or_eq_true, Bool.not_eq_true', decide_eq_false_iff_not, decide_eq_true_eq, not_or, not_not,
      Bool.not_eq_false] at hxnot hynot
    have hxuser : x.userId = userId := h.known _ hopen profileId (.head _) x hx hxnot.1
    have hstays : y ∈ (s.profiles.delete profileId).rows := mem_deleteWhere.mpr ⟨hy, decide_eq_false hynot.2⟩
    rcases ht.settled userId (has_iff.mpr ⟨y, hstays, hynot.1⟩) with hlit | hleft
    · obtain ⟨z, hz, hzuser, hzon⟩ := lit_iff.mp hlit
      obtain ⟨hzold, hzid⟩ := mem_deleteWhere.mp hz
      have hsame := h.single z hzold x hx hzon hxnot.2 (hzuser.trans hxuser.symm)
      exact of_decide_eq_false hzid (hsame.trans hxnot.1)
    · rcases owed_of_append hleft with hnew | hold
      · cases hnew
      · rw [howed] at hold
        cases hold
  | promote userId profileId =>
    obtain ⟨hopen, rfl⟩ := resume_eq_some.mp hstep
    have hflags := reflags_setFlags s.profiles (fun x => x.id = profileId) true
    simp only [decide_eq_true_eq] at hflags
    simp only [Op.clear]
    split
    next hthere =>
      obtain ⟨target, htarget, htid⟩ := has_eq_true.mp hthere
      have htuser := h.known _ hopen profileId (.head _) target htarget htid
      obtain ⟨target', htarget', hid', huser', hon'⟩ := hflags.after target htarget
      rw [if_pos htid] at hon'
      refine List.all_eq_true.mpr fun x hx => ?_
      by_contra hnot
      simp only [ne_eq, decide_not, Bool.or_eq_true, Bool.not_eq_true', decide_eq_false_iff_not, decide_eq_true_eq,
        not_or, not_not, Bool.not_eq_false] at hnot
      obtain ⟨⟨hxuser, hxon⟩, hxid⟩ := hnot
      obtain ⟨y, hy, hyid, hyuser, hyon⟩ := hflags.after x hx
      rw [if_neg hxid, hxon] at hyon
      have hsame := ht.single y hy target' htarget' hyon hon' (by rw [hyuser, hxuser, huser', htuser]; rfl)
      exact hxid (by rw [← hyid, hsame, hid', htid])
    next hgone =>
      have hsame : (s.profiles.setFlags (fun x => x.id = profileId) true).rows = s.profiles.rows :=
        updateWhere_of_none fun x hx => decide_eq_false fun hid => hgone (has_eq_true.mpr ⟨x, hx, hid⟩)
      exact ht.spares_of (by rw [hsame]; exact .refl _)
  | die request =>
    obtain ⟨-, rfl⟩ := resume_eq_some.mp hstep
    exact ht.spares_of (.refl _)

/-! ## runs -/

theorem Inv.reach (h : profiles.Reach (fun s op => op.clear s = true) s) : Inv s := by
  refine h.inv (fun s hs => ?_) fun s op t _ hinv hclear hstep => hinv.step hclear hstep
  obtain rfl : s = ⟨.empty, []⟩ := hs
  exact ⟨by exact nofun, by exact nofun, by exact nofun⟩

def State.active (s : State) (userId : String) : List Profile :=
  s.profiles.rows.filter fun x => x.userId = userId && x.isActive

def State.busy (s : State) (userId : String) : Bool := s.open_.any fun request => request.userId = userId

theorem mem_active : x ∈ s.active userId ↔ x ∈ s.profiles.rows ∧ x.userId = userId ∧ x.isActive = true := by
  simp [State.active, List.mem_filter]

theorem Inv.length_le (h : Inv s) : (s.active userId).length ≤ 1 := by
  have hnodup : ((s.active userId).map Profile.id).Nodup :=
    (keyed_iff_nodup.mp s.profiles.ids).sublist (List.filter_sublist.map _)
  have hsame : ∀ x ∈ s.active userId, ∀ y ∈ s.active userId, x.id = y.id := by
    intro x hx y hy
    obtain ⟨hxmem, hxuser, hxon⟩ := mem_active.mp hx
    obtain ⟨hymem, hyuser, hyon⟩ := mem_active.mp hy
    exact h.single x hxmem y hymem hxon hyon (hxuser.trans hyuser.symm)
  match hrows : s.active userId with
  | [] | [_] => simp
  | x :: y :: rest =>
    rw [hrows] at hnodup hsame
    have hne : x.id ≠ y.id := fun heq => (List.nodup_cons.mp hnodup).1 (heq ▸ .head _)
    exact (hne (hsame x (.head _) y (.tail _ (.head _)))).elim

theorem not_owed (h : s.busy userId = false) : owed s.open_ userId = false := by
  rw [← Bool.not_eq_true] at h ⊢
  intro howed
  obtain ⟨request, hmem, hpromotes⟩ := List.any_eq_true.mp howed
  exact h (List.any_eq_true.mpr ⟨request, hmem, decide_eq_true (promotes_eq_true hpromotes).1⟩)

/-- **One active profile.** -/
theorem exactly_one_active (h : profiles.Reach (fun s op => op.clear s = true) s) (userId : String) :
    (s.active userId).length ≤ 1 ∧
      (s.busy userId = false → has s userId = true → (s.active userId).length = 1) := by
  have hinv := Inv.reach h
  refine ⟨hinv.length_le, fun hidle hhas => Nat.le_antisymm hinv.length_le ?_⟩
  have hlit := (hinv.settled userId hhas).resolve_right (by rw [not_owed hidle]; exact nofun)
  obtain ⟨x, hx, hxuser, hxon⟩ := lit_iff.mp hlit
  exact List.length_pos_of_mem (mem_active.mpr ⟨hx, hxuser, hxon⟩)

def sample : Fields := ⟨"home", "http://localhost", "m", none, 3⟩

/-- A second profile is created and made active, and then deleted. -/
theorem exactly_one_active_promoted : ∃ s, profiles.Reach (fun s op => op.clear s = true) s ∧
    s.profiles.rows.map (fun x => (x.id, x.isActive)) = [("a", true)] ∧ s.open_ = [] ∧
    (s.active "u").length = 1 := by
  obtain ⟨s, hs, hview⟩ := Option.map_eq_some_iff.mp (show
    (profiles.exec ⟨.empty, []⟩ [.create "u", .insert "u" true "a" sample "1", .create "u",
      .insert "u" false "b" sample "2", .setActive "u" "b", .readAll "u" "b" false, .switch "u" "b" true ["a"],
      .delete "u" "b", .remove "u" "b" true, .succeed "u" (some "a"), .promote "u" "a"]).map
      (fun s => (s.profiles.rows.map fun x => (x.id, x.isActive), s.open_, has s "u")) =
      some ([("a", true)], [], true) by decide +kernel)
  obtain ⟨hrows, hopen, hhas⟩ := Prod.ext_iff.mp hview |>.imp_right Prod.ext_iff.mp
  have hreach : profiles.Reach (fun s op => op.clear s = true) s :=
    Reach.of_guarded (.start rfl) (by decide +kernel) hs
  have hidle : s.busy "u" = false := by rw [State.busy, show s.open_ = [] from hopen]; rfl
  exact ⟨s, hreach, hrows, hopen, (exactly_one_active hreach "u").2 hidle hhas⟩

/-- Two creates that both saw no profile; a delete that dies before it promotes. -/
theorem active_twice_or_never :
    (∃ s, profiles.Reach free s ∧ (s.active "u").length = 2 ∧ s.busy "u" = false) ∧
    ∃ s, profiles.Reach free s ∧ (s.active "u").length = 0 ∧ s.busy "u" = false ∧ has s "u" = true := by
  constructor
  · obtain ⟨s, hs, hview⟩ := Option.map_eq_some_iff.mp (show
      (profiles.exec ⟨.empty, []⟩ [.create "u", .create "u", .insert "u" true "a" sample "1",
        .insert "u" true "b" sample "1"]).map (fun s => ((s.active "u").length, s.busy "u")) =
        some (2, false) by decide +kernel)
    obtain ⟨htwice, hidle⟩ := Prod.ext_iff.mp hview
    exact ⟨s, .of_exec (.start rfl) hs, htwice, hidle⟩
  · obtain ⟨s, hs, hview⟩ := Option.map_eq_some_iff.mp (show
      (profiles.exec ⟨.empty, []⟩ [.create "u", .insert "u" true "a" sample "1", .create "u",
        .insert "u" false "b" sample "2", .delete "u" "a", .remove "u" "a" true, .die (.promoting "u")]).map
        (fun s => ((s.active "u").length, s.busy "u", has s "u")) = some (0, false, true) by decide +kernel)
    obtain ⟨hnever, hidle, hhas⟩ := Prod.ext_iff.mp hview |>.imp_right Prod.ext_iff.mp
    exact ⟨s, .of_exec (.start rfl) hs, hnever, hidle, hhas⟩

end Kajet.Profiles
