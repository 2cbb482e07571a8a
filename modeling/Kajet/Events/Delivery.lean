import Kajet.Events.Outbox

/-!
# What the connection delivers

While every row is committed with a `created_at` that no event the connection has already read
exceeds, nothing is skipped: at the end of each successful poll the connection has sent all the
events that were in the table (`outbox_delivers`).  A row that is committed later than that is never
sent (`late_never_sent`).

* `Delivery`      what is to hold of the connection;
* `InOrder`       the condition on the commits;
* `Inv`           the invariant, kept by each step of the connection (`read_inv`, `Moved`) and of the
                  publishers (`stage_inv`, `commit_inv`).
-/

namespace Kajet.Events
open Table Machine

/-- The connection's own events. -/
def Subscribed (user : String) (e : Event) : Prop := e.ownerId = user ∧ e.kind ∈ wsKinds

instance (user : String) : DecidablePred (Subscribed user) := fun _ =>
  inferInstanceAs (Decidable (_ ∧ _))

/-- The poll bound and the exclusion let the event through. -/
def Readable (c : Conn) (e : Event) : Prop := c.watermark ≤ e.createdAt ∧ e.id ∉ c.sentAtWatermark

section
variable {α : Type} (json : Json α) (user : String)

/-- No event goes out twice, each committed event is out, on its way or will be in the next poll, and
when a poll has been worked off all the events it could see are out. -/
structure Delivery (s : State) (c : Conn) : Prop where
  once : (c.sent.map (·.id)).Nodup
  pending : ∀ e ∈ s.events, Subscribed user e → (json.loads e.payload).isSome = true →
    e.out ∈ c.sent ∨ e.out ∈ c.queue ∨ Readable c e
  delivered : c.queue = [] → ∀ e ∈ c.seen, (json.loads e.payload).isSome = true → e.out ∈ c.sent

/-- A row of the user is not committed behind an event that the connection has already read. -/
def InOrder (s : State) : Op α → Prop
  | .commit eventId => ∀ e ∈ s.staged, e.id = eventId → Subscribed user e → ∀ c ∈ s.conn,
      c.watermark ≤ e.createdAt ∧ ∀ q ∈ c.queue, q.createdAt ≤ e.createdAt
  | _ => True

instance : (s : State) → (op : Op α) → Decidable (InOrder user s op)
  | _, .commit _ => inferInstanceAs (Decidable (∀ e ∈ _, _ → _ → ∀ c ∈ _, _ ∧ _))
  | _, .stage .. | _, .rollback _ | _, .sweep .. | _, .read _ => isTrue trivial
  | _, .readError | _, .send | _, .close => isTrue trivial

end

/-! ## the invariant -/

/-- The events that the connection has handled, and those it has read. -/
def Conn.handled (c : Conn) : List OutboxEvent := c.sent ++ c.skipped
def Conn.known (c : Conn) : List OutboxEvent := c.queue ++ c.handled

/-- The ids are different, and none is generated again. -/
structure IdsOk (s : State) : Prop where
  nodup : ((s.events ++ s.staged).map (·.id)).Nodup
  used : ∀ e ∈ s.events ++ s.staged, e.id ∈ s.usedIds

section
variable {α : Type} {json : Json α} {user : String}

/-- The connection on its way: the cursor part. -/
structure Cursor (json : Json α) (c : Conn) : Prop where
  nodup : (c.known.map (·.id)).Nodup
  past : ∀ x ∈ c.handled, x.createdAt ≤ c.watermark
  atWatermark : ∀ x ∈ c.handled, x.createdAt = c.watermark → x.id ∈ c.sentAtWatermark
  excluded : ∀ i ∈ c.sentAtWatermark, ∃ x ∈ c.handled, x.id = i
  above : ∀ q ∈ c.queue, c.watermark ≤ q.createdAt
  sorted : c.queue.Pairwise fun a b => a.createdAt ≤ b.createdAt
  malformed : ∀ x ∈ c.skipped, json.loads x.payload = none
  seen : ∀ e ∈ c.seen, e.out ∈ c.known

/-- The connection and the table. -/
structure Tracks (user : String) (s : State) (c : Conn) : Prop where
  fresh : ∀ x ∈ c.known, x.id ∈ s.usedIds ∧ x.id ∉ s.staged.map (·.id)
  same : ∀ e ∈ s.events, ∀ x ∈ c.known, x.id = e.id → x = e.out
  pending : ∀ e ∈ s.events, Subscribed user e → e.out ∈ c.known ∨
    Readable c e ∧ ∀ q ∈ c.queue, q.createdAt ≤ e.createdAt

structure Inv (json : Json α) (user : String) (s : State) : Prop where
  ids : IdsOk s
  cursor : ∀ c ∈ s.conn, Cursor json c
  tracks : ∀ c ∈ s.conn, Tracks user s c

variable {s t : State} {c c' : Conn} {op : Op α}

theorem Inv.delivery (h : Inv json user s) (hc : c ∈ s.conn) : Delivery json user s c := by
  have hcursor := h.cursor c hc
  have hsent : ∀ x ∈ c.handled, (json.loads x.payload).isSome = true → x ∈ c.sent := by
    intro x hx hloads
    rcases List.mem_append.mp hx with hx | hx
    · exact hx
    · rw [hcursor.malformed x hx] at hloads
      cases hloads
  constructor
  · refine hcursor.nodup.sublist (List.Sublist.map _ ?_)
    exact (List.sublist_append_left c.sent c.skipped).trans (List.sublist_append_right c.queue _)
  · intro e he hsub hloads
    rcases (h.tracks c hc).pending e he hsub with hknown | hread
    · rcases List.mem_append.mp hknown with hq | hhandled
      · exact .inr (.inl hq)
      · exact .inl (hsent _ hhandled hloads)
    · exact .inr (.inr hread.1)
  · intro hqueue e he hloads
    have hknown := hcursor.seen e he
    rw [Conn.known, hqueue] at hknown
    exact hsent _ hknown hloads

/-! ## the steps of the connection -/

/-- The event is handled, and nothing else of the connection moves. -/
structure Handled (json : Json α) (c c' : Conn) (q : OutboxEvent) : Prop where
  queue : c'.queue = c.queue
  seen : c'.seen = c.seen
  handled : c'.handled.Perm (q :: c.handled)
  malformed : ∀ x ∈ c'.skipped, x ∈ c.skipped ∨ json.loads x.payload = none

theorem deliver_handled (c : Conn) (q : OutboxEvent) : Handled json c (c.deliver json q) q ∧
    (c.deliver json q).watermark = c.watermark ∧
      (c.deliver json q).sentAtWatermark = c.sentAtWatermark := by
  unfold Conn.deliver
  split
  · exact ⟨⟨rfl, rfl, List.Perm.refl _, fun x hx => .inl hx⟩, rfl, rfl⟩
  · rename_i hloads
    refine ⟨⟨rfl, rfl, List.perm_middle, fun x hx => ?_⟩, rfl, rfl⟩
    rcases List.mem_cons.mp hx with rfl | hx
    · exact .inr hloads
    · exact .inl hx

/-- One turn of the loop: the watermark moves to a later event, and its set of ids begins anew. -/
theorem handle_handled (c : Conn) (q : OutboxEvent) : Handled json c (c.handle json q) q ∧
    (c.watermark < q.createdAt ∧ (c.handle json q).watermark = q.createdAt ∧
        (c.handle json q).sentAtWatermark = [q.id] ∨
      q.createdAt ≤ c.watermark ∧ (c.handle json q).watermark = c.watermark ∧
        (c.handle json q).sentAtWatermark = q.id :: c.sentAtWatermark) := by
  obtain ⟨⟨hqueue, hseen, hhandled, hmalformed⟩, hwatermark, hids⟩ := deliver_handled c q
  unfold Conn.handle Conn.advance
  split
  · rename_i hlt
    rw [hwatermark] at hlt
    exact ⟨⟨hqueue, hseen, hhandled, hmalformed⟩, .inl ⟨hlt, rfl, rfl⟩⟩
  · rename_i hle
    rw [hwatermark] at hle
    refine ⟨⟨hqueue, hseen, hhandled, hmalformed⟩, .inr ⟨not_lt.mp hle, hwatermark, ?_⟩⟩
    exact congrArg (q.id :: ·) hids

/-- The queue shrinks by its first event, which becomes a handled one. -/
structure Moved (json : Json α) (c c' : Conn) (q : OutboxEvent) : Prop where
  queue : c.queue = q :: c'.queue
  seen : c'.seen = c.seen
  handled : c'.handled.Perm (q :: c.handled)
  malformed : ∀ x ∈ c'.skipped, x ∈ c.skipped ∨ json.loads x.payload = none
  watermark : c.watermark < q.createdAt ∧ c'.watermark = q.createdAt ∧ c'.sentAtWatermark = [q.id] ∨
    q.createdAt ≤ c.watermark ∧ c'.watermark = c.watermark ∧
      c'.sentAtWatermark = q.id :: c.sentAtWatermark

theorem send_moved (h : c.send json = some c') : ∃ q, Moved json c c' q := by
  unfold Conn.send at h
  split at h
  · cases h
  · rename_i q queue hqueue
    cases h
    obtain ⟨⟨hq, hseen, hhandled, hmalformed⟩, hwatermark⟩ :=
      handle_handled { c with queue := queue } q
    exact ⟨q, ⟨by rw [hqueue, hq], hseen, hhandled, hmalformed, hwatermark⟩⟩

namespace Moved
variable {q : OutboxEvent} (h : Moved json c c' q)
include h

theorem known : c'.known.Perm c.known := by
  rw [Conn.known, Conn.known, h.queue]
  exact (h.handled.append_left c'.queue).trans List.perm_middle

theorem mem_handled {x : OutboxEvent} : x ∈ c'.handled ↔ x = q ∨ x ∈ c.handled := by
  rw [h.handled.mem_iff, List.mem_cons]

theorem cursor (hc : Cursor json c) : Cursor json c' := by
  have hsorted := hc.sorted
  rw [h.queue, List.pairwise_cons] at hsorted
  have habove : ∀ x ∈ c'.queue, x ∈ c.queue := fun x hx => by
    rw [h.queue]
    exact List.mem_cons_of_mem q hx
  constructor
  · exact (h.known.map _).nodup_iff.mpr hc.nodup
  · intro x hx
    rcases h.mem_handled.mp hx with rfl | hx <;>
      rcases h.watermark with ⟨hlt, hw, _⟩ | ⟨hle, hw, _⟩ <;> rw [hw]
    · exact hle
    · exact (hc.past x hx).trans hlt.le
    · exact hc.past x hx
  · intro x hx hat
    rcases h.watermark with ⟨hlt, hw, hids⟩ | ⟨hle, hw, hids⟩ <;> rw [hids] <;> rw [hw] at hat
    · rcases h.mem_handled.mp hx with rfl | hx
      · exact List.mem_singleton_self _
      · exact absurd hat ((hc.past x hx).trans_lt hlt).ne
    · rcases h.mem_handled.mp hx with rfl | hx
      · exact List.mem_cons_self
      · exact List.mem_cons_of_mem _ (hc.atWatermark x hx hat)
  · intro i hi
    rcases h.watermark with ⟨_, _, hids⟩ | ⟨_, _, hids⟩ <;> rw [hids] at hi
    · exact ⟨q, h.mem_handled.mpr (.inl rfl), (List.mem_singleton.mp hi).symm⟩
    · rcases List.mem_cons.mp hi with rfl | hi
      · exact ⟨q, h.mem_handled.mpr (.inl rfl), rfl⟩
      · obtain ⟨x, hx, hxi⟩ := hc.excluded i hi
        exact ⟨x, h.mem_handled.mpr (.inr hx), hxi⟩
  · intro x hx
    rcases h.watermark with ⟨_, hw, _⟩ | ⟨_, hw, _⟩ <;> rw [hw]
    · exact hsorted.1 x hx
    · exact hc.above x (habove x hx)
  · exact hsorted.2
  · intro x hx
    rcases h.malformed x hx with hx | hx
    · exact hc.malformed x hx
    · exact hx
  · intro e he
    rw [h.seen] at he
    exact h.known.mem_iff.mpr (hc.seen e he)

theorem tracks (ht : Tracks user s c) : Tracks user s c' := by
  constructor
  · exact fun x hx => ht.fresh x (h.known.mem_iff.mp hx)
  · exact fun e he x hx => ht.same e he x (h.known.mem_iff.mp hx)
  · intro e he hsub
    rw [h.known.mem_iff]
    rcases ht.pending e he hsub with hknown | ⟨⟨hw, hids⟩, hq⟩
    · exact .inl hknown
    · rw [h.queue] at hq
      have hqmem : q ∈ c.known := List.mem_append_left _ (by rw [h.queue]; exact List.mem_cons_self)
      by_cases hid : q.id = e.id
      · exact .inl (ht.same e he q hqmem hid ▸ hqmem)
      · refine .inr ⟨?_, fun x hx => hq x (List.mem_cons_of_mem q hx)⟩
        rcases h.watermark with ⟨_, hw', hids'⟩ | ⟨_, hw', hids'⟩ <;> rw [Readable, hw', hids']
        · exact ⟨hq q List.mem_cons_self, fun hmem => hid (List.mem_singleton.mp hmem).symm⟩
        · refine ⟨hw, fun hmem => ?_⟩
          rcases List.mem_cons.mp hmem with heq | hmem
          · exact hid heq.symm
          · exact hids hmem

end Moved

theorem IdsOk.eq (h : IdsOk s) {a b : Event} (ha : a ∈ s.events) (hb : b ∈ s.events)
    (hid : a.id = b.id) : a = b :=
  List.inj_on_of_nodup_map h.nodup (List.mem_append_left _ ha) (List.mem_append_left _ hb) hid

theorem IdsOk.notMem_staged (h : IdsOk s) {e : Event} (he : e ∈ s.events) :
    e.id ∉ s.staged.map (·.id) := by
  have hnodup := h.nodup
  rw [List.map_append] at hnodup
  exact fun hmem => List.disjoint_of_nodup_append hnodup (List.mem_map_of_mem he) hmem

/-- A poll reads exactly the subscribed rows that are readable. -/
theorem mem_readSince {rows : List Event}
    (h : Ordered s.events user wsKinds c.watermark rows) {x : OutboxEvent} :
    x ∈ readSince rows c.sentAtWatermark ↔
      ∃ e ∈ s.events, Subscribed user e ∧ Readable c e ∧ e.out = x := by
  simp only [readSince, List.mem_map, List.mem_filter, h.1.mem_iff, selectSince, decide_eq_true_eq,
    Subscribed, Readable]
  constructor
  · rintro ⟨e, ⟨⟨he, howner, hkind, hw⟩, hids⟩, rfl⟩
    exact ⟨e, he, ⟨howner, hkind⟩, ⟨hw, hids⟩, rfl⟩
  · rintro ⟨e, he, ⟨howner, hkind⟩, ⟨hw, hids⟩, rfl⟩
    exact ⟨e, ⟨⟨he, howner, hkind, hw⟩, hids⟩, rfl⟩

theorem read_inv (hids : IdsOk s) (hc : Cursor json c) (ht : Tracks user s c) {rows : List Event}
    (h : c.read user s.events rows = some c') : Cursor json c' ∧ Tracks user s c' := by
  unfold Conn.read at h
  split at h
  swap
  · cases h
  rename_i hread
  obtain ⟨hqueue, hrows⟩ := hread
  cases h
  have hknown : ∀ x ∈ c.known, x ∈ c.handled := by
    intro x hx
    rwa [Conn.known, hqueue] at hx
  have hmem := fun x : OutboxEvent => mem_readSince (x := x) hrows
  have hnow : ∀ e ∈ s.events, Subscribed user e →
      e.out ∈ readSince rows c.sentAtWatermark ++ c.handled := by
    intro e he hsub
    rcases ht.pending e he hsub with hold | ⟨hreadable, _⟩
    · exact List.mem_append_right _ (hknown _ hold)
    · exact List.mem_append_left _ ((hmem _).mpr ⟨e, he, hsub, hreadable, rfl⟩)
  have hhandled : ∀ x ∈ c.handled, x ∈ c.known := fun x hx => List.mem_append_right _ hx
  constructor
  · constructor
    · show ((readSince rows c.sentAtWatermark ++ c.handled).map (·.id)).Nodup
      rw [List.map_append, List.nodup_append]
      refine ⟨?_, ?_, ?_⟩
      · rw [readSince, List.map_map]
        have hsub : (rows.filter fun r => r.id ∉ c.sentAtWatermark).Sublist rows := List.filter_sublist
        have hselect : ((selectSince s.events user wsKinds c.watermark).map (·.id)).Nodup := by
          refine hids.nodup.sublist (List.Sublist.map _ ?_)
          exact List.filter_sublist.trans (List.sublist_append_left _ _)
        exact ((hrows.1.map _).nodup_iff.mpr hselect).sublist (hsub.map _)
      · exact hc.nodup.sublist ((List.sublist_append_right _ _).map _)
      · -- a handled event is behind the watermark, or excluded
        rintro i hi j hj rfl
        obtain ⟨x, hx, rfl⟩ := List.mem_map.mp hi
        obtain ⟨y, hy, hyx⟩ := List.mem_map.mp hj
        obtain ⟨e, he, _, ⟨hw, hex⟩, rfl⟩ := (hmem x).mp hx
        obtain rfl := ht.same e he y (hhandled y hy) hyx
        exact hex (hc.atWatermark _ hy (le_antisymm (hc.past _ hy) hw))
    · exact hc.past
    · exact hc.atWatermark
    · exact hc.excluded
    · intro q hq
      obtain ⟨e, _, _, ⟨hw, _⟩, rfl⟩ := (hmem q).mp hq
      exact hw
    · exact List.pairwise_map.mpr (hrows.2.sublist List.filter_sublist)
    · exact hc.malformed
    · intro e he
      obtain ⟨he, hsub⟩ := List.mem_filter.mp he
      exact hnow e he (of_decide_eq_true hsub)
  · constructor
    · intro x hx
      rcases List.mem_append.mp hx with hx | hx
      · obtain ⟨e, he, _, _, rfl⟩ := (hmem x).mp hx
        exact ⟨hids.used e (List.mem_append_left _ he), hids.notMem_staged he⟩
      · exact ht.fresh x (hhandled x hx)
    · intro e he x hx hid
      rcases List.mem_append.mp hx with hx | hx
      · obtain ⟨e', he', _, _, rfl⟩ := (hmem x).mp hx
        rw [hids.eq he' he hid]
      · exact ht.same e he x (hhandled x hx) hid
    · exact fun e he hsub => .inl (hnow e he hsub)

/-! ## the steps of the publishers -/

/-- The rows of the table are among the old ones, none is staged anew, and no id is forgotten. -/
theorem Tracks.shrink (ht : Tracks user s c) (hevents : ∀ e ∈ t.events, e ∈ s.events)
    (hstaged : ∀ e ∈ t.staged, e ∈ s.staged ∨ e.id ∉ s.usedIds)
    (hused : ∀ i ∈ s.usedIds, i ∈ t.usedIds) : Tracks user t c := by
  constructor
  · intro x hx
    obtain ⟨hid, hold⟩ := ht.fresh x hx
    refine ⟨hused _ hid, fun hmem => ?_⟩
    obtain ⟨e, he, heq⟩ := List.mem_map.mp hmem
    rcases hstaged e he with he | hnew
    · exact hold (heq ▸ List.mem_map_of_mem he)
    · exact hnew (heq ▸ hid)
  · exact fun e he => ht.same e (hevents e he)
  · exact fun e he => ht.pending e (hevents e he)

theorem stage_inv {eventId ownerId kind : String} {payload : α} {now : ℚ} (h : Inv json user s)
    (hnext : step json user s (.stage eventId ownerId kind payload now) = some t) :
    Inv json user t := by
  simp only [step] at hnext
  split at hnext
  · cases hnext
  rename_i hnew
  cases hnext
  refine ⟨⟨?_, ?_⟩, h.cursor, fun c hc => (h.tracks c hc).shrink (fun e he => he) ?_ ?_⟩
  · rw [(List.perm_middle.map Event.id).nodup_iff, List.map_cons, List.nodup_cons]
    refine ⟨fun hmem => ?_, h.ids.nodup⟩
    obtain ⟨e, he, heq⟩ := List.mem_map.mp hmem
    exact hnew (heq ▸ h.ids.used e he : (publish json eventId ownerId kind payload now).id ∈ s.usedIds)
  · intro e he
    rcases List.mem_cons.mp (List.perm_middle.mem_iff.mp he) with rfl | he
    · exact List.mem_cons_self
    · exact List.mem_cons_of_mem _ (h.ids.used e he)
  · intro e he
    rcases List.mem_cons.mp he with rfl | he
    · exact .inr hnew
    · exact .inl he
  · exact fun i hi => List.mem_cons_of_mem _ hi

/-- Rows go from the table and from the open transactions. -/
theorem drop_inv (h : Inv json user s) {events staged : List Event} (hevents : events.Sublist s.events)
    (hstaged : staged.Sublist s.staged) :
    Inv json user { s with events := events, staged := staged } := by
  have hsub := hevents.append hstaged
  refine ⟨⟨h.ids.nodup.sublist (hsub.map _), fun e he => h.ids.used e (hsub.subset he)⟩, h.cursor,
    fun c hc => (h.tracks c hc).shrink (fun e he => hevents.subset he) ?_ fun i hi => hi⟩
  exact fun e he => .inl (hstaged.subset he)

/-- The row comes into the table: it is new to the connection, and not behind it. -/
theorem commit_inv {eventId : String} (h : Inv json user s)
    (horder : InOrder (α := α) user s (.commit eventId))
    (hnext : step json user s (.commit eventId) = some t) : Inv json user t := by
  obtain ⟨e, hrow, rfl⟩ := Option.map_eq_some_iff.mp hnext
  obtain ⟨hmem, hid⟩ := row_some hrow
  have hstaged : (deleteWhere (fun x => x.id = eventId) s.staged).Sublist s.staged :=
    List.filter_sublist
  refine ⟨⟨?_, ?_⟩, h.cursor, fun c hc => ?_⟩
  · rw [List.cons_append, List.map_cons, List.nodup_cons]
    refine ⟨fun hin => ?_, h.ids.nodup.sublist ((hstaged.append_left s.events).map _)⟩
    obtain ⟨x, hx, heq⟩ := List.mem_map.mp hin
    rcases List.mem_append.mp hx with hx | hx
    · exact h.ids.notMem_staged hx (heq ▸ List.mem_map_of_mem hmem)
    · exact of_decide_eq_false (mem_deleteWhere.mp hx).2 (heq.trans hid)
  · intro x hx
    rcases List.mem_append.mp hx with hx | hx
    · rcases List.mem_cons.mp hx with rfl | hx
      · exact h.ids.used _ (List.mem_append_right _ hmem)
      · exact h.ids.used x (List.mem_append_left _ hx)
    · exact h.ids.used x (List.mem_append_right _ (hstaged.subset hx))
  · have ht := h.tracks c hc
    have hnew : ∀ x ∈ c.known, x.id ≠ e.id := fun x hx heq =>
      (ht.fresh x hx).2 (heq ▸ List.mem_map_of_mem hmem)
    constructor
    · intro x hx
      obtain ⟨hused, hold⟩ := ht.fresh x hx
      exact ⟨hused, fun hin => hold ((hstaged.map _).subset hin)⟩
    · intro e' he' x hx heq
      rcases List.mem_cons.mp he' with rfl | he'
      · exact absurd heq (hnew x hx)
      · exact ht.same e' he' x hx heq
    · intro e' he' hsub
      rcases List.mem_cons.mp he' with rfl | he'
      · obtain ⟨hw, hq⟩ := horder e' hmem hid hsub c hc
        refine .inr ⟨⟨hw, fun hin => ?_⟩, hq⟩
        obtain ⟨x, hx, heq⟩ := (h.cursor c hc).excluded _ hin
        exact hnew x (List.mem_append_right _ hx) heq
      · exact ht.pending e' he' hsub

theorem step_inv (h : Inv json user s) (horder : InOrder user s op)
    (hnext : step json user s op = some t) : Inv json user t := by
  cases op with
  | stage eventId ownerId kind payload now => exact stage_inv h hnext
  | commit eventId => exact commit_inv h horder hnext
  | rollback eventId =>
    cases hnext
    exact drop_inv h (List.Sublist.refl _) List.filter_sublist
  | sweep now olderThan =>
    cases hnext
    exact drop_inv h List.filter_sublist (List.Sublist.refl _)
  | read rows =>
    obtain ⟨c, hconn, hrest⟩ := Option.bind_eq_some_iff.mp hnext
    obtain ⟨c', hread, hlast⟩ := Option.bind_eq_some_iff.mp hrest
    cases hlast
    have hinv := read_inv h.ids (h.cursor c hconn) (h.tracks c hconn) hread
    refine ⟨⟨h.ids.nodup, h.ids.used⟩, ?_, ?_⟩ <;> intro _ hc <;> cases hc
    · exact hinv.1
    · exact ⟨hinv.2.fresh, hinv.2.same, hinv.2.pending⟩
  | readError =>
    obtain ⟨_, _, rfl⟩ := Option.map_eq_some_iff.mp hnext
    exact h
  | send =>
    obtain ⟨c, hconn, hrest⟩ := Option.bind_eq_some_iff.mp hnext
    obtain ⟨c', hsend, hlast⟩ := Option.bind_eq_some_iff.mp hrest
    cases hlast
    obtain ⟨q, hmoved⟩ := send_moved hsend
    have ht := hmoved.tracks (h.tracks c hconn)
    refine ⟨⟨h.ids.nodup, h.ids.used⟩, ?_, ?_⟩ <;> intro _ hc <;> cases hc
    · exact hmoved.cursor (h.cursor c hconn)
    · exact ⟨ht.fresh, ht.same, ht.pending⟩
  | close =>
    cases hnext
    exact ⟨⟨h.ids.nodup, h.ids.used⟩, fun _ hc => (nomatch hc), fun _ hc => (nomatch hc)⟩

theorem start_inv (h : (outbox json user).start s) : Inv json user s := by
  obtain ⟨hconn, hnodup, hused, hepoch⟩ := h
  refine ⟨⟨hnodup, hused⟩, ?_, ?_⟩ <;> intro c hc <;> rw [hconn] at hc <;> cases hc
  · refine ⟨List.nodup_nil, ?_, ?_, ?_, ?_, List.Pairwise.nil, ?_, ?_⟩ <;> exact fun _ hx => nomatch hx
  · refine ⟨fun _ hx => (nomatch hx), fun _ _ _ hx => (nomatch hx), fun e he _ => Or.inr ⟨?_, ?_⟩⟩
    · exact ⟨hepoch e he, List.not_mem_nil⟩
    · exact fun _ hq => (nomatch hq)

/-- Every run whose commits are in order delivers. -/
theorem outbox_delivers (h : (outbox json user).Reach (InOrder user) s) :
    ∀ c ∈ s.conn, Delivery json user s c := fun _ hc =>
  (h.inv (P := Inv json user) (fun _ => start_inv) fun _ _ _ _ hinv horder hnext =>
    step_inv hinv horder hnext).delivery hc

/-! ## a late commit -/

/-- The cursor is past the event, which the connection has not read. -/
def Late (x : OutboxEvent) (s : State) : Prop :=
  ∀ c ∈ s.conn, x.createdAt < c.watermark ∧ x ∉ c.known

theorem late_step {x : OutboxEvent} (h : Late x s) (hnext : step json user s op = some t) :
    Late x t := by
  cases op with
  | stage eventId ownerId kind payload now =>
    simp only [step] at hnext
    split at hnext <;> cases hnext
    exact h
  | commit eventId =>
    obtain ⟨e, _, rfl⟩ := Option.map_eq_some_iff.mp hnext
    exact h
  | rollback eventId => cases hnext; exact h
  | sweep now olderThan => cases hnext; exact h
  | read rows =>
    obtain ⟨c, hconn, hrest⟩ := Option.bind_eq_some_iff.mp hnext
    obtain ⟨c', hread, hlast⟩ := Option.bind_eq_some_iff.mp hrest
    cases hlast
    obtain ⟨hlt, hknown⟩ := h c hconn
    unfold Conn.read at hread
    split at hread
    swap
    · cases hread
    rename_i hrows
    cases hread
    intro _ hc
    cases hc
    refine ⟨hlt, fun hmem => ?_⟩
    rcases List.mem_append.mp hmem with hmem | hmem
    · obtain ⟨e, _, _, ⟨hle, _⟩, rfl⟩ := (mem_readSince hrows.2).mp hmem
      exact absurd hlt (not_lt.mpr hle)
    · exact hknown (List.mem_append_right _ hmem)
  | readError =>
    obtain ⟨_, _, rfl⟩ := Option.map_eq_some_iff.mp hnext
    exact h
  | send =>
    obtain ⟨c, hconn, hrest⟩ := Option.bind_eq_some_iff.mp hnext
    obtain ⟨c', hsend, hlast⟩ := Option.bind_eq_some_iff.mp hrest
    cases hlast
    obtain ⟨q, hmoved⟩ := send_moved hsend
    obtain ⟨hlt, hknown⟩ := h c hconn
    intro _ hc
    cases hc
    refine ⟨?_, fun hmem => hknown (hmoved.known.mem_iff.mp hmem)⟩
    rcases hmoved.watermark with ⟨hq, hw, _⟩ | ⟨_, hw, _⟩ <;> rw [hw]
    · exact hlt.trans hq
    · exact hlt
  | close => cases hnext; exact fun _ hc => (nomatch hc)

/-- A row that is committed behind the watermark is never sent, however the run goes on. -/
theorem late_never_sent {x : OutboxEvent} {ops : List (Op α)} (h : Late x s)
    (hrun : (outbox json user).exec s ops = some t) : ∀ c ∈ t.conn, x ∉ c.sent := by
  induction ops generalizing s with
  | nil =>
    cases hrun
    intro c hc hmem
    exact (h c hc).2 (List.mem_append_right _ (List.mem_append_left _ hmem))
  | cons op ops ih =>
    rw [exec_cons] at hrun
    obtain ⟨r, hr, hrun⟩ := Option.bind_eq_some_iff.mp hrun
    exact ih (late_step h hr) hrun

end

/-! ## two publishers -/

/-- Payloads that are the empty object. -/
def emptyObject : Json Unit where
  dumps _ := "\x7b\x7d"
  loads s := if s = "\x7b\x7d" then some () else none
  loads_dumps _ := rfl

def idle : State := ⟨[], [], [], some Conn.new⟩

def early : Event := ⟨"a", "u", "note_updated", "\x7b\x7d", 1⟩
def later : Event := ⟨"b", "u", "note_updated", "\x7b\x7d", 2⟩

/-- Both publishers have read the clock; their rows become visible as `ops` says. -/
def published (ops : List (Op Unit)) : List (Op Unit) :=
  .stage "a" "u" "note_updated" () 1 :: .stage "b" "u" "note_updated" () 2 :: ops

theorem start_idle : (outbox emptyObject "u").start idle :=
  ⟨rfl, List.nodup_nil, by decide, by decide⟩

theorem outbox_delivers_both : ∃ s, ∃ c ∈ s.conn, Delivery emptyObject "u" s c ∧
    c.sent = [later.out, early.out] := by
  obtain ⟨s, hs, hsent⟩ := Option.map_eq_some_iff.mp (show ((outbox emptyObject "u").exec idle
    (published [.commit "a", .read [early], .send, .commit "b", .read [early, later], .send])).map
      (fun s => s.conn.map Conn.sent) = some (some [later.out, early.out]) by decide +kernel)
  obtain ⟨c, hc, hsent⟩ := Option.map_eq_some_iff.mp hsent
  exact ⟨s, c, hc, outbox_delivers (.of_guarded (.start start_idle) (by decide +kernel) hs) c hc,
    hsent⟩

/-- The row of the earlier clock is committed after the connection has read the later one: the
connection never sends it. -/
theorem outbox_skips : ∃ s, (outbox emptyObject "u").Reach free s ∧ early ∈ s.events ∧
    Subscribed "u" early ∧ s.conn.isSome = true ∧
    ∀ ops t, (outbox emptyObject "u").exec s ops = some t → ∀ c ∈ t.conn, early.out ∉ c.sent := by
  obtain ⟨s, hs, hview⟩ := Option.map_eq_some_iff.mp (show ((outbox emptyObject "u").exec idle
    (published [.commit "b", .read [later], .send, .commit "a"])).map
      (fun s => (s.events, s.conn)) = some ([early, later],
        some ⟨2, ["b"], [], [later.out], [], [later]⟩) by decide +kernel)
  obtain ⟨hevents, hconn⟩ := Prod.mk.inj hview
  refine ⟨s, .of_exec (.start start_idle) hs, ?_, by decide, by rw [hconn]; rfl, fun ops t ht => ?_⟩
  · rw [hevents]
    exact List.mem_cons_self
  · refine late_never_sent (fun c hc => ?_) ht
    rw [hconn] at hc
    cases hc
    decide +kernel

end Kajet.Events
