import Kajet.Notices.Store

/-!
# Episodes

What a notice says is a matter of the calls on its key since it was last opened.

* `calls`, `episode`     the calls on a user's key; those since the last opening;
* `Tells`                a row says what its episode was;
* `transitions`          the calls that change what the user has to know;
* `Law`, `notices_law`   holds of every state reached.
-/

namespace Kajet.Notices
open Str Table Machine

/-! ## the history of a key -/

namespace Call

def slot : Call → String × Text
  | raised userId key _ | resolved userId key _ | acknowledged userId key _ => (userId, key)

def now : Call → ℚ
  | raised _ _ now | resolved _ _ now | acknowledged _ _ now => now

def isRaised : Call → Bool
  | raised .. => true
  | _ => false

def isResolved : Call → Bool
  | resolved .. => true
  | _ => false

def isAcknowledged : Call → Bool
  | acknowledged .. => true
  | _ => false

end Call

/-- The calls on a user's key, last first. -/
def calls (log : List Call) (slot : String × Text) : List Call := log.filter fun c => c.slot = slot

/-- Something was called, and the last call was no resolve. -/
def active (log : List Call) (slot : String × Text) : Bool := (calls log slot).head?.any fun c => !c.isResolved

/-- The calls since the last opening; resolves after them are left out. -/
def episode (log : List Call) (slot : String × Text) : List Call :=
  ((calls log slot).dropWhile (·.isResolved)).takeWhile fun c => !c.isResolved

/-- The row says what its episode was. -/
structure Tells (log : List Call) (n : Notice) : Prop where
  count : n.count = ((episode log n.slot).filter (·.isRaised)).length
  firstSeenAt : some n.firstSeenAt = (((episode log n.slot).filter (·.isRaised)).getLast?).map (·.now)
  lastSeenAt : some n.lastSeenAt = (((episode log n.slot).filter (·.isRaised)).head?).map (·.now)
  acknowledgedAt : n.acknowledgedAt = (((episode log n.slot).filter (·.isAcknowledged)).getLast?).map (·.now)
  resolvedAt : n.resolvedAt = none ↔ active log n.slot = true

/-- The call opens an episode, resolves one, or is the first acknowledgement of one. -/
def transition (log : List Call) : Call → Bool
  | .raised userId key _ => !active log (userId, key)
  | .resolved userId key _ => active log (userId, key)
  | .acknowledged userId key _ => ((episode log (userId, key)).filter (·.isAcknowledged)).isEmpty

/-- The users of the transitions, last first. -/
def transitions : List Call → List String
  | [] => []
  | c :: log => if transition log c then c.slot.1 :: transitions log else transitions log

/-! ## what one more call does -/

variable {log : List Call} {slot : String × Text} {c : Call} {s t : State} {n : Notice}

theorem calls_cons : calls (c :: log) slot = if c.slot = slot then c :: calls log slot else calls log slot := by
  rw [calls, List.filter_cons]
  by_cases h : c.slot = slot <;> simp [h, calls]

theorem calls_other (h : c.slot ≠ slot) : calls (c :: log) slot = calls log slot := by
  rw [calls_cons, if_neg h]

theorem calls_self (h : c.slot = slot) : calls (c :: log) slot = c :: calls log slot := by
  rw [calls_cons, if_pos h]

theorem active_self (h : c.slot = slot) : active (c :: log) slot = !c.isResolved := by
  rw [active, calls_self h]
  rfl

theorem episode_resolved (h : c.slot = slot) (hc : c.isResolved = true) :
    episode (c :: log) slot = episode log slot := by
  rw [episode, calls_self h, List.dropWhile_cons_of_pos hc]
  rfl

/-- A call that is no resolve goes on with an active episode, or starts a new one. -/
theorem episode_self (h : c.slot = slot) (hc : c.isResolved = false) :
    episode (c :: log) slot = c :: if active log slot then episode log slot else [] := by
  have hdrop : episode (c :: log) slot = c :: (calls log slot).takeWhile fun c => !c.isResolved := by
    rw [episode, calls_self h, List.dropWhile_cons_of_neg (by rw [hc]; exact Bool.false_ne_true),
      List.takeWhile_cons_of_pos (by rw [hc]; rfl)]
  rw [hdrop, active, episode]
  cases hcalls : calls log slot with
  | nil => rfl
  | cons d rest =>
    cases hd : d.isResolved with
    | true => simp [hd]
    | false => simp [hd]

theorem Tells.other (h : Tells log n) (hc : c.slot ≠ n.slot) : Tells (c :: log) n := by
  obtain ⟨hcount, hfirst, hlast, hack, hresolved⟩ := h
  simp only [episode, active] at hcount hfirst hlast hack hresolved
  constructor <;> simp only [episode, active, calls_other hc] <;> assumption

theorem Tells.count_pos (h : Tells log n) : 0 < n.count := by
  rw [h.count, List.length_pos_iff]
  intro hnil
  have hfirst := h.firstSeenAt
  rw [hnil] at hfirst
  cases hfirst

theorem Tells.resolvedAt_isSome (h : Tells log n) : n.resolvedAt.isSome = !active log n.slot := by
  cases hactive : active log n.slot with
  | true =>
    rw [h.resolvedAt.mpr hactive]
    rfl
  | false =>
    cases hresolved : n.resolvedAt with
    | some now => rfl
    | none =>
      rw [h.resolvedAt.mp hresolved] at hactive
      cases hactive

/-- The last element of a longer list. -/
theorem getLast?_cons_of_ne {α : Type} {a : α} {l : List α} (h : l ≠ []) : (a :: l).getLast? = l.getLast? := by
  cases l with
  | nil => exact absurd rfl h
  | cons b l => rfl

/-! ## the four kinds of change -/

theorem Tells.opened {newId userId : String} {kind key payload : Text} {now : ℚ}
    (h : calls log (userId, key) = []) :
    Tells (.raised userId key now :: log) (Store.opened newId userId kind key payload now) := by
  have hepisode : episode (.raised userId key now :: log) (userId, key) = [.raised userId key now] := by
    have hself := @episode_self log (userId, key) (.raised userId key now) rfl rfl
    rw [active, h] at hself
    exact hself
  constructor
  · exact congrArg (fun l => (l.filter (·.isRaised)).length) hepisode.symm
  · exact congrArg (fun l => ((l.filter (·.isRaised)).getLast?).map (·.now)) hepisode.symm
  · exact congrArg (fun l => ((l.filter (·.isRaised)).head?).map (·.now)) hepisode.symm
  · exact congrArg (fun l => ((l.filter (·.isAcknowledged)).getLast?).map (·.now)) hepisode.symm
  · exact ⟨fun _ => active_self rfl, fun _ => rfl⟩

theorem Tells.raised {kind payload : Text} {now : ℚ} (h : Tells log n) :
    Tells (.raised n.userId n.key now :: log) (n.raised kind payload now) := by
  have hresolved := h.resolvedAt_isSome
  have hepisode := @episode_self log n.slot (.raised n.userId n.key now) rfl rfl
  have hslot : (n.raised kind payload now).slot = n.slot := rfl
  have hpos := h.count_pos
  have hne : (episode log n.slot).filter (·.isRaised) ≠ [] := by
    rw [h.count] at hpos
    exact List.length_pos_iff.mp hpos
  cases hactive : active log n.slot with
  | false =>
    rw [hactive] at hresolved hepisode
    constructor
    · rw [hslot, hepisode]
      exact if_pos hresolved
    · rw [hslot, hepisode]
      exact congrArg some (if_pos hresolved)
    · rw [hslot, hepisode]
      rfl
    · rw [hslot, hepisode]
      exact if_pos hresolved
    · exact ⟨fun _ => active_self rfl, fun _ => rfl⟩
  | true =>
    rw [hactive] at hresolved hepisode
    have hreopening : ¬ n.resolvedAt.isSome = true := by
      rw [hresolved]
      exact Bool.false_ne_true
    have hfilter : ((Call.raised n.userId n.key now :: episode log n.slot).filter (·.isRaised)) =
        .raised n.userId n.key now :: (episode log n.slot).filter (·.isRaised) := rfl
    constructor
    · rw [hslot, hepisode, if_pos rfl, hfilter, List.length_cons, ← h.count]
      exact if_neg hreopening
    · rw [hslot, hepisode, if_pos rfl, hfilter, getLast?_cons_of_ne hne, ← h.firstSeenAt]
      exact congrArg some (if_neg hreopening)
    · rw [hslot, hepisode]
      rfl
    · rw [hslot, hepisode, if_pos rfl]
      exact (if_neg hreopening).trans h.acknowledgedAt
    · exact ⟨fun _ => active_self rfl, fun _ => rfl⟩

/-- A resolve leaves everything but the time of it. -/
theorem Tells.resolved {now : ℚ} {resolvedAt : Option ℚ} (h : Tells log n) (hresolved : resolvedAt ≠ none) :
    Tells (.resolved n.userId n.key now :: log) { n with resolvedAt := resolvedAt } := by
  have hepisode := @episode_resolved log n.slot (.resolved n.userId n.key now) rfl rfl
  have hactive := @active_self log n.slot (.resolved n.userId n.key now) rfl
  have hslot : ({ n with resolvedAt := resolvedAt } : Notice).slot = n.slot := rfl
  constructor
  · rw [hslot, hepisode]
    exact h.count
  · rw [hslot, hepisode]
    exact h.firstSeenAt
  · rw [hslot, hepisode]
    exact h.lastSeenAt
  · rw [hslot, hepisode]
    exact h.acknowledgedAt
  · rw [hslot, hactive]
    exact ⟨fun h => absurd h hresolved, fun h => (nomatch h)⟩

/-- An acknowledgement counts when it is the first one of an active notice. -/
theorem Tells.acknowledged {now : ℚ} (h : Tells log n) (hactive : active log n.slot = true) :
    Tells (.acknowledged n.userId n.key now :: log)
      { n with acknowledgedAt := n.acknowledgedAt.or (some now) } := by
  have hepisode := @episode_self log n.slot (.acknowledged n.userId n.key now) rfl rfl
  rw [hactive, if_pos rfl] at hepisode
  have hslot : ({ n with acknowledgedAt := n.acknowledgedAt.or (some now) } : Notice).slot = n.slot := rfl
  constructor
  · rw [hslot, hepisode]
    exact h.count
  · rw [hslot, hepisode]
    exact h.firstSeenAt
  · rw [hslot, hepisode]
    exact h.lastSeenAt
  · rw [hslot, hepisode]
    show n.acknowledgedAt.or (some now) = _
    rw [h.acknowledgedAt]
    have hfilter : ((Call.acknowledged n.userId n.key now :: episode log n.slot).filter (·.isAcknowledged)) =
        .acknowledged n.userId n.key now :: (episode log n.slot).filter (·.isAcknowledged) := rfl
    rw [hfilter]
    cases hack : (episode log n.slot).filter (·.isAcknowledged) with
    | nil => rfl
    | cons c rest =>
      rw [getLast?_cons_of_ne (List.cons_ne_nil c rest), List.getLast?_eq_some_getLast (List.cons_ne_nil c rest)]
      rfl
  · exact ⟨fun _ => active_self rfl, fun _ => h.resolvedAt.mpr hactive⟩

/-! ## the law -/

/-- There is a row of the slot. -/
def HasRow (rows : List Notice) (slot : String × Text) : Prop := ∃ n ∈ rows, n.slot = slot

/-- Every row says what its episode was, only keys with a row have been called, and the events are those
of the transitions. -/
structure Law (s : State) : Prop where
  told : ∀ n ∈ s.notices.rows, Tells s.log n
  known : ∀ slot, calls s.log slot ≠ [] → HasRow s.notices.rows slot
  probed : ∀ slot ∈ s.probing, HasRow s.notices.rows slot
  events : s.events = transitions s.log

/-- A call on one key, in a store that has the other rows as they were. -/
theorem Law.commit {store : Store} {changed : Bool} (h : Law s)
    (hother : ∀ n ∈ store.rows, n.slot ≠ c.slot → n ∈ s.notices.rows)
    (hself : ∀ n ∈ store.rows, n.slot = c.slot → Tells (c :: s.log) n)
    (hkeep : ∀ slot, HasRow s.notices.rows slot → HasRow store.rows slot)
    (hrow : HasRow store.rows c.slot) (hchanged : changed = transition s.log c) :
    Law (s.commit store changed c.slot.1 c) where
  told n hn := by
    by_cases hslot : n.slot = c.slot
    · exact hself n hn hslot
    · exact (h.told n (hother n hn hslot)).other fun heq => hslot heq.symm
  known slot hcalls := by
    by_cases hslot : c.slot = slot
    · exact hslot ▸ hrow
    · rw [show (s.commit store changed c.slot.1 c).log = c :: s.log from rfl, calls_other hslot] at hcalls
      exact hkeep slot (h.known slot hcalls)
  probed slot hslot := hkeep slot (h.probed slot hslot)
  events := by
    show (if changed then c.slot.1 :: s.events else s.events) = transitions (c :: s.log)
    rw [transitions, hchanged, h.events]

/-- An update leaves a row of every slot. -/
theorem HasRow.updateWhere {rows : List Notice} {p : Notice → Bool} {f : Notice → Notice}
    (hf : ∀ n, (f n).slot = n.slot) (h : HasRow rows slot) : HasRow (updateWhere p f rows) slot := by
  obtain ⟨n, hn, hslot⟩ := h
  cases hp : p n with
  | true => exact ⟨f n, mem_updateWhere_of_sel hn hp, (hf n).trans hslot⟩
  | false => exact ⟨n, mem_updateWhere_of_not hn hp, hslot⟩

theorem Law.raised {userId newId : String} {kind key payload : Text} {now : ℚ} {r : Store × RaisedNotice}
    (h : Law s) (hr : s.notices.raiseInSession newId userId kind key payload now = some r) :
    Law (s.commit r.1 r.2.opened userId (.raised userId key now)) := by
  rw [Store.raiseInSession] at hr
  split at hr
  · rename_i n hrow
    obtain ⟨hn, hslot⟩ := row_some hrow
    obtain rfl := Option.some.inj hr
    obtain ⟨rfl, rfl⟩ := Prod.mk.inj hslot
    apply Law.commit (c := .raised n.userId n.key now) h
    · intro x hx hne
      obtain ⟨y, -, hy, rfl⟩ | ⟨hx, -⟩ := mem_updateWhere.mp hx
      · exact absurd (of_decide_eq_true hy) hne
      · exact hx
    · intro x hx hx'
      obtain ⟨y, hym, hy, rfl⟩ | ⟨-, hx⟩ := mem_updateWhere.mp hx
      · obtain ⟨hu, hk⟩ := Prod.mk.inj (of_decide_eq_true hy)
        have htold := @Tells.raised s.log y kind payload now (h.told y hym)
        rw [hu, hk] at htold
        exact htold
      · exact absurd hx' (of_decide_eq_false hx)
    · exact fun slot hslot => hslot.updateWhere fun _ => rfl
    · exact HasRow.updateWhere (fun _ => rfl) ⟨n, hn, rfl⟩
    · have htold := h.told n hn
      have hresolved := htold.resolvedAt_isSome
      show decide ((n.raised kind payload now).count = 1) = !active s.log n.slot
      rw [← hresolved]
      cases hopen : n.resolvedAt.isSome with
      | true => simp [Notice.raised, hopen]
      | false =>
        have hpos := htold.count_pos
        simp [Notice.raised, hopen]
        omega
  · rename_i hrow
    split at hr
    · rename_i hid
      obtain rfl := Option.some.inj hr
      have hcalls : calls s.log (userId, key) = [] := by
        by_contra hne
        obtain ⟨n, hn, hslot⟩ := h.known _ hne
        exact row_eq_none.mp hrow n hn hslot
      apply Law.commit (c := .raised userId key now) h
      · intro x hx hne
        rcases List.mem_append.mp hx with hx | hx
        · exact hx
        · exact absurd (List.mem_singleton.mp hx ▸ rfl) hne
      · intro x hx hx'
        rcases List.mem_append.mp hx with hx | hx
        · exact absurd hx' (row_eq_none.mp hrow x hx)
        · rw [List.mem_singleton.mp hx]
          exact Tells.opened hcalls
      · rintro slot ⟨n, hn, hslot⟩
        exact ⟨n, List.mem_append_left _ hn, hslot⟩
      · exact ⟨_, List.mem_append_right _ (List.mem_singleton_self _), rfl⟩
      · show true = !active s.log (userId, key)
        rw [active, hcalls]
        rfl
    · cases hr

theorem Law.resolved {userId : String} {key : Text} {now : ℚ} (h : Law s)
    (hrow : HasRow s.notices.rows (userId, key)) :
    Law (s.commit (s.notices.resolveInSession userId key now).1 (s.notices.resolveInSession userId key now).2
      userId (.resolved userId key now)) := by
  apply Law.commit (c := .resolved userId key now) h
  · intro x hx hne
    obtain ⟨y, -, hy, rfl⟩ | ⟨hx, -⟩ := mem_updateWhere.mp hx
    · simp only [Bool.and_eq_true, decide_eq_true_eq] at hy
      exact absurd (Prod.ext hy.1.1 hy.1.2) hne
    · exact hx
  · intro x hx hx'
    obtain ⟨rfl, rfl⟩ := Prod.mk.inj hx'
    obtain ⟨y, hym, hy, rfl⟩ | ⟨hx, hy⟩ := mem_updateWhere.mp hx
    · exact (h.told y hym).resolved (Option.some_ne_none now)
    · have hsome : x.resolvedAt ≠ none := fun hnone => by simp [hnone] at hy
      exact (h.told x hx).resolved hsome
  · exact fun slot hslot => hslot.updateWhere fun _ => rfl
  · exact hrow.updateWhere fun _ => rfl
  · obtain ⟨n, hn, hslot⟩ := hrow
    have hfind := s.notices.slots.row_eq.mpr ⟨hn, hslot⟩
    obtain ⟨rfl, rfl⟩ := Prod.mk.inj hslot
    have hone := s.notices.slots.length_filter (p := fun x => x.userId = n.userId && x.key = n.key &&
      x.resolvedAt.isNone) (fun x hx => by
        simp only [Bool.and_eq_true, decide_eq_true_eq] at hx
        exact Prod.ext hx.1.1 hx.1.2) hfind
    have hresolved := (h.told n hn).resolvedAt_isSome
    show decide ((s.notices.rows.filter _).length = 1) = active s.log n.slot
    rw [hone, ← Option.not_isSome, hresolved]
    simp

/-- What an acknowledgement does to the row with its id. -/
def acknowledge (now : ℚ) (n : Notice) : Notice := { n with acknowledgedAt := n.acknowledgedAt.or (some now) }

theorem acknowledge_again {now : ℚ} (h : n.acknowledgedAt.isNone = false) : acknowledge now n = n := by
  obtain ⟨id, userId, kind, key, payload, count, first, last, resolvedAt, acknowledgedAt, delivered⟩ := n
  cases acknowledgedAt with
  | none => cases h
  | some at_ => rfl

/-- The active notice that an acknowledgement is about. -/
theorem acknowledge_ok {store : Store} {userId noticeId : String} {now : ℚ} {r : Store × Bool}
    (hr : store.acknowledgeInSession userId noticeId now = some r) :
    ∃ n ∈ store.rows, Store.ownedActive noticeId userId n = true ∧ r.2 = n.acknowledgedAt.isNone ∧
      r.1.rows = updateWhere (fun x => x.id = noticeId) (acknowledge now) store.rows := by
  have hid : ∀ x, Store.ownedActive noticeId userId x = true → x.id = noticeId := by
    intro x hx
    simp only [Store.ownedActive, Bool.and_eq_true, decide_eq_true_eq] at hx
    exact hx.1.1
  have hmem : ∃ n ∈ store.rows, Store.ownedActive noticeId userId n = true := by
    rw [Store.acknowledgeInSession] at hr
    split at hr
    · rename_i hone
      obtain ⟨n, hn⟩ := List.exists_mem_of_length_pos (Nat.lt_of_lt_of_eq Nat.zero_lt_one hone.symm)
      obtain ⟨hn, hp⟩ := List.mem_filter.mp hn
      exact ⟨n, hn, (Bool.and_eq_true_iff.mp hp).1⟩
    · split at hr
      · rename_i hany
        exact List.any_eq_true.mp hany
      · cases hr
  obtain ⟨n, hn, howned⟩ := hmem
  have hone := store.ids.length_filter
    (p := fun x => Store.ownedActive noticeId userId x && x.acknowledgedAt.isNone)
    (fun x hx => hid x (Bool.and_eq_true_iff.mp hx).1) (store.ids.row_eq.mpr ⟨hn, hid n howned⟩)
  rw [howned, Bool.true_and] at hone
  refine ⟨n, hn, howned, ?_⟩
  -- the row with the id is `n`, so the rest of the `WHERE` is a question about `n`
  have heq : ∀ x ∈ store.rows, x.id = noticeId → x = n := fun x hx hxid =>
    store.ids.eq hx hn (hxid.trans (hid n howned).symm)
  simp only [Store.acknowledgeInSession] at hr
  cases hnone : n.acknowledgedAt.isNone with
  | true =>
    rw [hnone] at hone
    obtain rfl := Option.some.inj ((if_pos (of_decide_eq_true hone)).symm.trans hr)
    refine ⟨rfl, List.map_congr_left fun x hx => ?_⟩
    by_cases hxid : x.id = noticeId
    · obtain rfl := heq x hx hxid
      simp [howned, hxid, acknowledge, Option.isNone_iff_eq_none.mp hnone]
    · have hx : ¬ Store.ownedActive noticeId userId x = true := fun hx => hxid (hid x hx)
      simp [hx, hxid]
  | false =>
    rw [hnone] at hone
    have hr := (if_neg (of_decide_eq_false hone)).symm.trans hr
    obtain rfl := Option.some.inj ((if_pos (List.any_eq_true.mpr ⟨n, hn, howned⟩)).symm.trans hr)
    refine ⟨rfl, (Eq.symm ?_)⟩
    rw [updateWhere]
    refine (List.map_congr_left fun x hx => ?_).trans (List.map_id _)
    by_cases hxid : x.id = noticeId
    · obtain rfl := heq x hx hxid
      rw [if_pos (decide_eq_true hxid), acknowledge_again hnone]
      rfl
    · rw [if_neg (by simpa using hxid)]
      rfl

theorem Law.acknowledged {userId noticeId : String} {now : ℚ} {r : Store × Bool} (h : Law s)
    (hr : s.notices.acknowledgeInSession userId noticeId now = some r) :
    Law (s.commit r.1 r.2 userId (.acknowledged userId (s.keyOf noticeId) now)) := by
  obtain ⟨n, hn, howned, hchanged, hrows⟩ := acknowledge_ok hr
  simp only [Store.ownedActive, Bool.and_eq_true, decide_eq_true_eq] at howned
  obtain ⟨⟨rfl, rfl⟩, hopen⟩ := howned
  have hkey : s.keyOf n.id = n.key := by
    rw [State.keyOf, s.notices.ids.row_eq.mpr ⟨hn, rfl⟩]
    rfl
  have htold := h.told n hn
  have hactive := htold.resolvedAt.mp (Option.isNone_iff_eq_none.mp hopen)
  rw [hkey]
  apply Law.commit (c := .acknowledged n.userId n.key now) h
  · intro x hx hne
    rw [hrows] at hx
    obtain ⟨y, hym, hy, rfl⟩ | ⟨hx, -⟩ := mem_updateWhere.mp hx
    · rw [s.notices.ids.eq hym hn (of_decide_eq_true hy)] at hne
      exact absurd rfl hne
    · exact hx
  · intro x hx hslot
    rw [hrows] at hx
    obtain ⟨y, hym, hy, rfl⟩ | ⟨hx, hy⟩ := mem_updateWhere.mp hx
    · rw [s.notices.ids.eq hym hn (of_decide_eq_true hy)]
      exact htold.acknowledged hactive
    · rw [s.notices.slots.eq hx hn hslot] at hy
      exact absurd rfl (of_decide_eq_false hy)
  · rw [hrows]
    exact fun slot hslot => hslot.updateWhere fun _ => rfl
  · rw [hrows]
    exact HasRow.updateWhere (fun _ => rfl) ⟨n, hn, rfl⟩
  · rw [hchanged, htold.acknowledgedAt, transition]
    show _ = ((episode s.log n.slot).filter (·.isAcknowledged)).isEmpty
    cases (episode s.log n.slot).filter (·.isAcknowledged) with
    | nil => rfl
    | cons c rest => rw [List.getLast?_eq_some_getLast (List.cons_ne_nil c rest)]; rfl

theorem Law.step {op : Op} (h : Law s) (hs : step s op = some t) : Law t := by
  cases op with
  | raise_ userId payload newId now =>
    rw [Notices.step] at hs
    split at hs
    · obtain ⟨r, hr, rfl⟩ := Option.map_eq_some_iff.mp hs
      exact h.raised hr
    · cases hs
  | probe userId payload =>
    rw [Notices.step] at hs
    split at hs
    · rename_i hfound
      obtain rfl := Option.some.inj hs
      obtain ⟨id, hid⟩ := Option.isSome_iff_exists.mp (Bool.and_eq_true_iff.mp hfound).2
      obtain ⟨n, hn, -⟩ := Option.map_eq_some_iff.mp hid
      have hp := List.find?_some hn
      simp only [Bool.and_eq_true, decide_eq_true_eq] at hp
      refine ⟨h.told, h.known, fun slot hslot => ?_, h.events⟩
      rcases List.mem_cons.mp hslot with rfl | hslot
      · exact ⟨n, List.mem_of_find?_eq_some hn, Prod.ext hp.1.1 hp.1.2⟩
      · exact h.probed slot hslot
    · cases hs
  | resolve userId payload now =>
    rw [Notices.step] at hs
    split at hs
    · rename_i hprobed
      obtain rfl := Option.some.inj hs
      have hlaw := @Law.resolved s userId payload.key now h (h.probed _ hprobed)
      exact ⟨hlaw.told, hlaw.known, fun slot hslot => hlaw.probed slot (List.mem_of_mem_erase hslot), hlaw.events⟩
    · cases hs
  | acknowledge userId noticeId now =>
    rw [Notices.step] at hs
    obtain ⟨r, hr, rfl⟩ := Option.map_eq_some_iff.mp hs
    exact h.acknowledged hr

/-! ## acknowledgements -/

/-- The call raises the resolved notice again. -/
def reopens (n : Notice) : Op → Bool
  | .raise_ userId payload _ _ => n.slot = (userId, payload.key) && n.resolvedAt.isSome
  | _ => false

/-- A step leaves the acknowledgement of a row, unless it opens the next episode. -/
theorem acknowledgement_kept {op : Op} (hs : step s op = some t) (hn : n ∈ s.notices.rows)
    (hacked : n.acknowledgedAt.isSome) : ∃ m ∈ t.notices.rows, m.id = n.id ∧ m.slot = n.slot ∧
      m.acknowledgedAt = if reopens n op then none else n.acknowledgedAt := by
  cases op with
  | raise_ userId payload newId now =>
    rw [Notices.step] at hs
    split at hs
    · obtain ⟨r, hr, rfl⟩ := Option.map_eq_some_iff.mp hs
      rw [Store.raiseInSession] at hr
      split at hr
      · obtain rfl := Option.some.inj hr
        by_cases hslot : n.slot = (userId, payload.key)
        · refine ⟨_, mem_updateWhere_of_sel hn (decide_eq_true hslot), rfl, rfl, ?_⟩
          simp only [Notice.raised, reopens, decide_eq_true hslot, Bool.true_and]
        · refine ⟨n, mem_updateWhere_of_not hn (decide_eq_false hslot), rfl, rfl, ?_⟩
          simp only [reopens, decide_eq_false hslot, Bool.false_and, Bool.false_eq_true, if_false]
      · rename_i hrow
        split at hr
        · obtain rfl := Option.some.inj hr
          refine ⟨n, List.mem_append_left _ hn, rfl, rfl, ?_⟩
          simp only [reopens, decide_eq_false (row_eq_none.mp hrow n hn), Bool.false_and, Bool.false_eq_true,
            if_false]
        · cases hr
    · cases hs
  | probe userId payload =>
    rw [Notices.step] at hs
    split at hs
    · obtain rfl := Option.some.inj hs
      exact ⟨n, hn, rfl, rfl, rfl⟩
    · cases hs
  | resolve userId payload now =>
    rw [Notices.step] at hs
    split at hs
    · obtain rfl := Option.some.inj hs
      cases hp : n.userId = userId && n.key = payload.key && n.resolvedAt.isNone with
      | true => exact ⟨_, mem_updateWhere_of_sel hn hp, rfl, rfl, rfl⟩
      | false => exact ⟨n, mem_updateWhere_of_not hn hp, rfl, rfl, rfl⟩
    · cases hs
  | acknowledge userId noticeId now =>
    rw [Notices.step] at hs
    obtain ⟨r, hr, rfl⟩ := Option.map_eq_some_iff.mp hs
    obtain ⟨-, -, -, -, hrows⟩ := acknowledge_ok hr
    have hagain : acknowledge now n = n := acknowledge_again (by rw [← Option.not_isSome, hacked]; rfl)
    refine ⟨n, ?_, rfl, rfl, rfl⟩
    show n ∈ r.1.rows
    rw [hrows]
    by_cases hid : n.id = noticeId
    · exact hagain ▸ mem_updateWhere_of_sel hn (decide_eq_true hid)
    · exact mem_updateWhere_of_not hn (decide_eq_false hid)

theorem acknowledge_isSome {userId noticeId : String} {now : ℚ} :
    (step s (.acknowledge userId noticeId now)).isSome ↔
      ∃ n ∈ s.notices.rows, n.id = noticeId ∧ n.userId = userId ∧ n.resolvedAt = none := by
  have howned : ∀ n, Store.ownedActive noticeId userId n = true ↔
      n.id = noticeId ∧ n.userId = userId ∧ n.resolvedAt = none := by
    intro n
    simp only [Store.ownedActive, Bool.and_eq_true, decide_eq_true_eq, Option.isNone_iff_eq_none, and_assoc]
  simp only [← howned]
  rw [Notices.step, Option.isSome_map]
  constructor
  · intro h
    obtain ⟨r, hr⟩ := Option.isSome_iff_exists.mp h
    obtain ⟨n, hn, hactive, -⟩ := acknowledge_ok hr
    exact ⟨n, hn, hactive⟩
  · intro h
    simp only [Store.acknowledgeInSession]
    split
    · rfl
    · rw [if_pos (List.any_eq_true.mpr h)]
      rfl

/-- **Notice episodes.**  One row for each user and key; a row says what its episode was; an
acknowledgement is there until a resolved notice is raised again; only an active notice of the user can be
acknowledged; the events are those of the transitions. -/
theorem notices_law (h : notices.Reach free s) :
    Keyed Notice.slot s.notices.rows ∧ (∀ n ∈ s.notices.rows, Tells s.log n) ∧
    (∀ op t, notices.next s op = some t → ∀ n ∈ s.notices.rows, n.acknowledgedAt.isSome →
      ∃ m ∈ t.notices.rows, m.id = n.id ∧ m.slot = n.slot ∧
        m.acknowledgedAt = if reopens n op then none else n.acknowledgedAt) ∧
    (∀ userId noticeId now, (notices.next s (.acknowledge userId noticeId now)).isSome ↔
      ∃ n ∈ s.notices.rows, n.id = noticeId ∧ n.userId = userId ∧ n.resolvedAt = none) ∧
    s.events = transitions s.log := by
  have hlaw : Law s := by
    apply h.inv
    · rintro s rfl
      exact ⟨fun n hn => (nomatch hn), fun slot hne => absurd rfl hne, fun slot hslot => (nomatch hslot), rfl⟩
    · exact fun s op t _ hlaw _ hs => hlaw.step hs
  exact ⟨s.notices.slots, hlaw.told, fun op t hs n hn hacked => acknowledgement_kept hs hn hacked,
    fun userId noticeId now => acknowledge_isSome, hlaw.events⟩

/-- Raised twice, acknowledged in between, resolved and raised again. -/
def reopened : List Op :=
  let payload := .embeddingAuth "p1".toList
  [.raise_ "u" payload "n1" 1, .acknowledge "u" "n1" 2, .raise_ "u" payload "n2" 3, .probe "u" payload,
    .resolve "u" payload 4, .raise_ "u" payload "n3" 5, .raise_ "v" payload "n4" 6]

theorem notices_law_reopened : ∃ s, notices.exec .empty reopened = some s ∧
    s.notices.rows.map (fun n => (n.id, n.count, n.firstSeenAt)) = [("n1", 1, 5), ("n4", 1, 6)] ∧
    (∀ n ∈ s.notices.rows, Tells s.log n) ∧
    s.events = transitions s.log ∧ s.events = ["v", "u", "u", "u", "u"] := by
  let view (s : State) : List (String × Nat × ℚ) × List String :=
    (s.notices.rows.map fun n => (n.id, n.count, n.firstSeenAt), s.events)
  obtain ⟨s, hs, hview⟩ := Option.map_eq_some_iff.mp
    (show (notices.exec .empty reopened).map view = some ([("n1", 1, 5), ("n4", 1, 6)], ["v", "u", "u", "u", "u"])
      from by decide +kernel)
  obtain ⟨hrows, hevents⟩ := Prod.mk.inj hview
  obtain ⟨-, htold, -, -, hlaw⟩ := notices_law (.of_exec (.start rfl) hs)
  exact ⟨s, hs, hrows, htold, hlaw, hevents⟩

end Kajet.Notices
