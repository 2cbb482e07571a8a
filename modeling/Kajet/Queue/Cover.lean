import Kajet.Lib.Fallible
import Kajet.Queue.Commit
import Kajet.Queue.Fence

/-!
# What still owes a run

A change is answered by a later run of its job: the enqueue leaves a pending row, and a row that is claimed
is run again unless the attempt on it ends well.  A row of a kind and a key is pledged as long as every
attempt that can complete it is a good one, for instance one that looked after the change.

* `Grows`            what enqueues do: no row changes its state or its lock, new rows are pending;
* `Locks`, `locks_step`   pending rows are not locked, failed rows are;
* `Pledged`, `Covered`    a row that is not done unless a good attempt completes it;
* `Watched`, `watched_step`    what holds of the attempts that execute on the rows of a key;
* `covered_step`     a covered key stays covered, or a good attempt completes its row.
-/

namespace Kajet.Queue
open Table Machine Fallible

/-! ## what an enqueue leaves alone -/

/-- The row has the same lock and state. -/
structure Same (r r' : Job) : Prop where
  id : r'.id = r.id
  kind : r'.kind = r.kind
  dedupKey : r'.dedupKey = r.dedupKey
  status : r'.status = r.status
  lockedBy : r'.lockedBy = r.lockedBy
  lockedAt : r'.lockedAt = r.lockedAt

structure Grows (rows rows' : List Job) : Prop where
  keeps : ∀ r ∈ rows, ∃ r' ∈ rows', Same r r'
  origin : ∀ r' ∈ rows', (∃ r ∈ rows, Same r r') ∨ (r'.status = .pending ∧ r'.lockedBy = none)

section
variable {rows rows' rows'' : List Job} {kind : String} {e : JobEntry} {a : EnqueueArgs} {jobId id : String}

theorem Same.refl (r : Job) : Same r r := ⟨rfl, rfl, rfl, rfl, rfl, rfl⟩

theorem Same.trans {a b c : Job} (h : Same a b) (h' : Same b c) : Same a c :=
  ⟨h'.id.trans h.id, h'.kind.trans h.kind, h'.dedupKey.trans h.dedupKey, h'.status.trans h.status,
    h'.lockedBy.trans h.lockedBy, h'.lockedAt.trans h.lockedAt⟩

theorem Grows.refl (rows : List Job) : Grows rows rows :=
  ⟨fun r hr => ⟨r, hr, .refl r⟩, fun r hr => .inl ⟨r, hr, .refl r⟩⟩

theorem Grows.trans (h : Grows rows rows') (h' : Grows rows' rows'') : Grows rows rows'' where
  keeps r hr := by
    obtain ⟨b, hb, hrb⟩ := h.keeps r hr
    obtain ⟨c, hc, hbc⟩ := h'.keeps b hb
    exact ⟨c, hc, hrb.trans hbc⟩
  origin c hc := by
    rcases h'.origin c hc with ⟨b, hb, hbc⟩ | hnew
    · rcases h.origin b hb with ⟨r, hr, hrb⟩ | hnew
      · exact .inl ⟨r, hr, hrb.trans hbc⟩
      · exact .inr ⟨hbc.status.trans hnew.1, hbc.lockedBy.trans hnew.2⟩
    · exact .inr hnew

theorem Grows.update {p : Job → Bool} {f : Job → Job} (hf : ∀ r, Same r (f r)) : Grows rows (updateWhere p f rows) where
  keeps r hr := by
    cases hp : p r with
    | true => exact ⟨f r, mem_updateWhere_of_sel hr hp, hf r⟩
    | false => exact ⟨r, mem_updateWhere_of_not hr hp, .refl r⟩
  origin r' hr' := by
    rcases mem_updateWhere.mp hr' with ⟨r, hr, _, rfl⟩ | ⟨hr, _⟩
    · exact .inl ⟨r, hr, hf r⟩
    · exact .inl ⟨r', hr, .refl r'⟩

theorem Grows.insert {js : List Job} (hj : ∀ j ∈ js, j.status = .pending ∧ j.lockedBy = none) :
    Grows rows (rows ++ js) where
  keeps r hr := ⟨r, List.mem_append_left _ hr, .refl r⟩
  origin r' hr' := by
    rcases List.mem_append.mp hr' with hr | hr
    · exact .inl ⟨r', hr, .refl r'⟩
    · exact .inr (hj r' hr)

theorem grows_new (rows : List Job) : Grows rows (rows ++ [newJob id kind e a]) :=
  .insert fun j hj => by rw [List.mem_singleton.mp hj]; exact ⟨rfl, rfl⟩

theorem upsert_grows (h : upsert rows (newJob id kind e a) a = .ok rows') : Grows rows rows' := by
  unfold upsert at h
  split at h
  · cases h
  split at h
  · rw [← Except.ok.inj h]
    exact .update fun r => ⟨rfl, rfl, rfl, rfl, rfl, rfl⟩
  · obtain ⟨rfl, _⟩ := flush_ok h
    exact grows_new rows

theorem enqueueInSession_grows (h : enqueueInSession rows jobId kind e a = .ok (rows', id)) : Grows rows rows' := by
  unfold enqueueInSession at h
  cases hd : e.dedupKey with
  | none =>
    rw [hd] at h
    obtain ⟨rows1, h1, h2⟩ := bind_ok h
    obtain ⟨rfl, _⟩ := flush_ok h1
    cases h2
    exact grows_new rows
  | some key =>
    rw [hd] at h
    obtain ⟨rows1, h1, h2⟩ := bind_ok h
    obtain ⟨_, _, h3⟩ := bind_ok h2
    cases h3
    exact upsert_grows h1

theorem upsertReturning_grows {acc acc' : List Job × List (Option String × String)} {x : JobEntry × String}
    (h : upsertReturning kind a acc x = .ok acc') : Grows acc.1 acc'.1 := by
  unfold upsertReturning at h
  obtain ⟨rows1, h1, h2⟩ := bind_ok h
  split at h2
  · cases h2; exact upsert_grows h1
  · cases h2

theorem upsertChunk_grows {acc acc' : List Job × List (Nat × String)} {chunk : List (Nat × JobEntry × String)}
    (h : upsertChunk kind a acc chunk = .ok acc') : Grows acc.1 acc'.1 := by
  unfold upsertChunk at h
  obtain ⟨⟨rows1, returned⟩, h1, h2⟩ := bind_ok h
  obtain ⟨ids, _, h3⟩ := bind_ok h2
  cases h3
  exact foldlM_inv (P := fun acc' => Grows acc.1 acc'.1) (.refl _)
    (fun _ _ _ _ hg h => hg.trans (upsertReturning_grows h)) h1

theorem enqueueManyInSession_grows {entries : List (JobEntry × String)} {ids : List String}
    (h : enqueueManyInSession rows kind entries a = .ok (rows', ids)) : Grows rows rows' := by
  unfold enqueueManyInSession at h
  obtain ⟨rows1, h1, h2⟩ := bind_ok h
  obtain ⟨⟨rows2, pairs⟩, h3, h4⟩ := bind_ok h2
  obtain ⟨rfl, _⟩ := flush_ok h1
  cases h4
  have hplain : Grows rows (rows ++ (entries.filter fun x => x.1.dedupKey = none).map fun x => newJob x.2 kind x.1 a) :=
    .insert fun j hj => by
      obtain ⟨x, _, rfl⟩ := List.mem_map.mp hj
      exact ⟨rfl, rfl⟩
  exact hplain.trans (foldlM_inv
    (P := fun acc => Grows (rows ++ (entries.filter fun x => x.1.dedupKey = none).map fun x => newJob x.2 kind x.1 a) acc.1)
    (.refl _) (fun _ _ _ _ hg h => hg.trans (upsertChunk_grows h)) h3)

end

theorem commit_grows {β : Type} {db : Db} {x : Except DbError (List Job × β)}
    (h : ∀ rows' b, x = .ok (rows', b) → Grows db.rows rows') : Grows db.rows (db.commit x).rows := by
  cases x with
  | ok x => exact h x.1 x.2 rfl
  | error e => exact .refl _

/-! ## locks -/

structure RowLocks (r : Job) : Prop where
  pending : r.status = .pending → r.lockedBy = none
  failed : r.status = .failed → r.lockedBy ≠ none

structure Locks (db : Db) : Prop where
  rows : ∀ r ∈ db.rows, RowLocks r
  /-- what an open `retry` has read -/
  retries : ∀ s ∈ db.sessions, ∀ seen now, s.call = .retry seen now → seen.status = .failed ∧ seen.lockedBy ≠ none

section
variable {db db' : Db} {r : Job}

theorem RowLocks.same {r' : Job} (h : RowLocks r) (hs : Same r r') : RowLocks r' :=
  ⟨fun hp => by rw [hs.lockedBy]; exact h.pending (hs.status ▸ hp),
    fun hf => by rw [hs.lockedBy]; exact h.failed (hs.status ▸ hf)⟩

theorem Locks.grows (h : Locks db) {rows' : List Job} (hg : Grows db.rows rows') : ∀ r ∈ rows', RowLocks r := by
  intro r' hr'
  rcases hg.origin r' hr' with ⟨r, hr, hs⟩ | ⟨hp, hn⟩
  · exact (h.rows r hr).same hs
  · exact ⟨fun _ => hn, fun hf => by rw [hp] at hf; cases hf⟩

/-- An update whose rows are locked as they should be. -/
theorem Locks.update (h : Locks db) {p : Job → Bool} {f : Job → Job} (hf : ∀ r ∈ db.rows, p r = true → RowLocks (f r)) :
    ∀ r ∈ updateWhere p f db.rows, RowLocks r := by
  intro r' hr'
  rcases mem_updateWhere.mp hr' with ⟨r, hr, hp, rfl⟩ | ⟨hr, _⟩
  · exact hf r hr hp
  · exact h.rows r' hr

theorem rowLocks_failValues {seen : Job} {a : FailArgs} (r : Job) : RowLocks (failValues seen a r) := by
  unfold failValues
  by_cases hmax : seen.maxAttempts ≤ ((seen.attempts + 1 : Nat) : Int)
  · simp only [hmax, if_true]
    exact ⟨(nomatch ·), fun _ => (nomatch ·)⟩
  · simp only [hmax, if_false]
    exact ⟨fun _ => rfl, fun h => nomatch h⟩

theorem retryValues_pending {seen : Job} (hs : seen.status = .failed) (hl : seen.lockedBy ≠ none) (now : ℚ) (r : Job) :
    (retryValues seen now r).status = .pending ∧ (retryValues seen now r).lockedBy = none := by
  refine ⟨if_neg ?_, if_neg (Ne.symm hl)⟩
  rw [hs]
  exact fun h => nomatch h

theorem call_locks (h : Locks db) {s : Session} (hs : s ∈ db.sessions) {rows' : List Job} {res : Option FailResult}
    (hw : s.call.write db.rows = .ok (rows', res)) : ∀ r ∈ rows', RowLocks r := by
  cases hc : s.call with
  | fail seen a =>
    rw [hc] at hw
    simp only [Call.write] at hw
    cases hf : failWrite db.rows seen a with
    | error e => rw [hf] at hw; cases hw
    | ok x =>
      rw [hf] at hw
      cases hw
      obtain ⟨rows1, h1, h2⟩ := bind_ok hf
      have hrows : x.1 = updateWhere (fence seen.id a.worker) (failValues seen a) db.rows := by
        rw [← (flush_ok h1).1]
        split at h2 <;> cases h2 <;> rfl
      rw [hrows]
      exact h.update fun r _ _ => rowLocks_failValues r
  | retry seen now =>
    obtain ⟨hst, hl⟩ := h.retries s hs seen now hc
    rw [hc] at hw
    simp only [Call.write] at hw
    cases hf : retryWrite db.rows seen now with
    | error e => rw [hf] at hw; cases hw
    | ok x =>
      rw [hf] at hw
      cases hw
      unfold retryWrite at hf
      split at hf
      · obtain ⟨rfl, _⟩ := flush_ok hf
        refine h.update fun r _ _ => ?_
        obtain ⟨hp, hn⟩ := retryValues_pending hst hl now r
        exact ⟨fun _ => hn, fun h => by rw [hp] at h; cases h⟩
      · cases hf
  | dismiss seen =>
    rw [hc] at hw
    cases hw
    exact fun r hr => h.rows r (mem_deleteWhere.mp hr).1

theorem begin_retries (h : Locks db) {c : Caller} {jobId : String} {g : Job → Bool} {call : Job → Call}
    (hcall : ∀ seen ∈ db.rows, g seen = true → ∀ seen' now, call seen = .retry seen' now →
      seen'.status = .failed ∧ seen'.lockedBy ≠ none) :
    ∀ s ∈ (db.begin c jobId g call).sessions, ∀ seen now, s.call = .retry seen now →
      seen.status = .failed ∧ seen.lockedBy ≠ none := by
  intro s hs seen now he
  unfold Db.begin at hs
  split at hs
  · rename_i row hrow
    split at hs
    · rename_i hg
      rcases List.mem_append.mp hs with hs | hs
      · exact h.retries s hs seen now he
      · rw [List.mem_singleton.mp hs] at he
        exact hcall row (get_mem hrow).1 hg seen now he
    · exact h.retries s hs seen now he
  · exact h.retries s hs seen now he

theorem locks_step (h : Locks db) {op : Op} (hs : step db op = some db') : Locks db' := by
  cases op with
  | enqueue jobId kind e a =>
    rw [← Option.some.inj hs]
    exact ⟨h.grows (commit_grows fun _ _ hx => enqueueInSession_grows hx), by rw [commit_sessions]; exact h.retries⟩
  | enqueueMany kind entries a =>
    rw [← Option.some.inj hs]
    exact ⟨h.grows (commit_grows fun _ _ hx => enqueueManyInSession_grows hx), by rw [commit_sessions]; exact h.retries⟩
  | claim worker now staleAfter tie =>
    rw [← Option.some.inj hs]
    refine ⟨?_, h.retries⟩
    rcases claim_cases db.rows worker now staleAfter tie with e | ⟨j, _, e⟩
    · rw [e]
      exact h.rows
    · rw [e]
      exact h.update fun r _ _ => ⟨by exact nofun, by exact nofun⟩
  | renewClaim worker now =>
    rw [← Option.some.inj hs]
    exact ⟨h.update fun r hr _ => ⟨(h.rows r hr).pending, (h.rows r hr).failed⟩, h.retries⟩
  | complete jobId worker now =>
    rw [← Option.some.inj hs]
    exact ⟨h.update fun r _ _ => ⟨by exact nofun, by exact nofun⟩, h.retries⟩
  | failTerminal jobId worker error now =>
    rw [← Option.some.inj hs]
    refine ⟨h.update fun r _ hf => ⟨by exact nofun, fun _ hn => ?_⟩, h.retries⟩
    cases (fence_iff.mp hf).2.symm.trans hn
  | resetRunningToPending worker now =>
    rw [← Option.some.inj hs]
    refine ⟨?_, by rw [commit_sessions]; exact h.retries⟩
    cases hreset : resetRunningToPending db.rows worker now with
    | error e => exact h.rows
    | ok x =>
      obtain ⟨rows1, h1, h2⟩ := bind_ok hreset
      obtain ⟨rfl, _⟩ := flush_ok h1
      cases h2
      exact h.update fun r _ _ => ⟨fun _ => rfl, by exact nofun⟩
  | sweepDone olderThan now =>
    rw [← Option.some.inj hs]
    exact ⟨fun r hr => h.rows r (mem_deleteWhere.mp hr).1, h.retries⟩
  | deleteForWorkspace userId workspace =>
    rw [← Option.some.inj hs]
    exact ⟨fun r hr => h.rows r (mem_deleteWhere.mp hr).1, h.retries⟩
  | beginFail c jobId a =>
    rw [← Option.some.inj hs]
    exact ⟨by rw [begin_rows]; exact h.rows, begin_retries h fun _ _ _ _ _ he => by cases he⟩
  | beginRetry c jobId userId now =>
    rw [← Option.some.inj hs]
    refine ⟨by rw [begin_rows]; exact h.rows, begin_retries h fun seen hseen hg seen' now' he => ?_⟩
    obtain ⟨rfl, _⟩ := Call.retry.inj he
    simp only [mayRetry, decide_eq_true_eq] at hg
    exact ⟨hg.2, (h.rows seen hseen).failed hg.2⟩
  | beginDismiss c jobId userId =>
    rw [← Option.some.inj hs]
    exact ⟨by rw [begin_rows]; exact h.rows, begin_retries h fun _ _ _ _ _ he => by cases he⟩
  | finish c =>
    obtain ⟨s, hfind, rfl⟩ := Option.map_eq_some_iff.mp hs
    refine ⟨?_, fun s' hs' => h.retries s' (List.mem_of_mem_erase hs')⟩
    cases hw : s.call.write db.rows with
    | error e => exact h.rows
    | ok x => exact call_locks h (List.mem_of_find?_eq_some hfind) hw
  | abandon c =>
    obtain ⟨s, _, rfl⟩ := Option.map_eq_some_iff.mp hs
    exact ⟨h.rows, fun s' hs' => h.retries s' (List.mem_of_mem_erase hs')⟩

end

/-! ## a key that is covered -/

def IsOf (kind key : String) (r : Job) : Prop := r.kind = kind ∧ r.dedupKey = some key

instance (kind key : String) (r : Job) : Decidable (IsOf kind key r) := inferInstanceAs (Decidable (_ ∧ _))

/-- The row is not done, and an attempt that is to complete it is a good one. -/
def Pledged (as : List Attempt) (good : Nat → Prop) (r : Job) : Prop :=
  r.status = .pending ∨ r.status = .failed ∨ (r.status = .running ∧
    ∀ k A, as[k]? = some A → A.phase = .executing → fence A.row A.worker r = true → good k)

def Covered (f : Fleet) (kind key : String) (good : Nat → Prop) : Prop :=
  ∃ r ∈ f.db.rows, IsOf kind key r ∧ Pledged f.attempts good r

def Call.dismissed : Call → Option Job
  | .dismiss seen => some seen
  | _ => none

/-- The operation takes away no row of the key that is not done: no `dismiss` and no deletion of its workspace. -/
def spares (kind key : String) (f : Fleet) : FleetOp → Prop
  | .other (.deleteForWorkspace userId workspace) => ∀ r ∈ f.db.rows, IsOf kind key r →
      ¬ (r.userId = some userId ∧ r.payload.workspace = some workspace)
  | .other (.finish c) => ∀ s ∈ f.db.sessions, s.caller = c → ∀ seen ∈ s.call.dismissed,
      ∀ r ∈ f.db.rows, IsOf kind key r → r.id ≠ seen.id
  | _ => True

instance (kind key : String) (f : Fleet) (op : FleetOp) : Decidable (spares kind key f op) := by
  unfold spares
  split <;> infer_instance

/-- The attempts that execute on a row of the key, under its lock. -/
def Watched (f : Fleet) (kind key : String) (good : Nat → Prop) : Prop :=
  ∀ (k : Nat) (A : Attempt), f.attempts[k]? = some A → A.phase = .executing → ∀ r ∈ f.db.rows, IsOf kind key r →
    fence A.row A.worker r = true → good k

section
variable {f f' : Fleet} {kind key : String} {good : Nat → Prop} {as as' : List Attempt} {r r' : Job} {db' : Db}
  {k : Nat} {A : Attempt}

theorem IsOf.same (h : IsOf kind key r) (hs : Same r r') : IsOf kind key r' :=
  ⟨hs.kind.trans h.1, hs.dedupKey.trans h.2⟩

theorem Pledged.same (h : Pledged as good r) (hs : Same r r') : Pledged as good r' := by
  unfold Pledged fence
  rw [hs.status, hs.lockedBy, hs.id]
  exact h

/-- More attempts, or attempts that no longer execute. -/
theorem Pledged.attempts (h : Pledged as good r) (hsub : ∀ k A, as'[k]? = some A → A.phase = .executing →
    fence A.row A.worker r = true → as[k]? = some A ∨ good k) : Pledged as' good r := by
  rcases h with h | h | ⟨hrun, hall⟩
  · exact .inl h
  · exact .inr (.inl h)
  · refine .inr (.inr ⟨hrun, fun k A hA hx hf => ?_⟩)
    rcases hsub k A hA hx hf with hold | hgood
    · exact hall k A hold hx hf
    · exact hgood

/-- An attempt that does not execute any more. -/
theorem Pledged.setPhase (h : Pledged as good r) {ph : Phase} (hA : as[k]? = some A) (hph : ph ≠ .executing) :
    Pledged (as.set k { A with phase := ph }) good r :=
  h.attempts fun j B hB hx _ => by
    rcases (getElem?_setPhase hA j B).mp hB with ⟨_, rfl⟩ | ⟨_, hB⟩
    · exact absurd hx hph
    · exact .inl hB

/-- The rows that a key is covered by, while some rows and attempts change. -/
theorem Covered.grows (h : Covered f kind key good) (hg : Grows f.db.rows db'.rows) :
    Covered ⟨db', f.attempts⟩ kind key good := by
  obtain ⟨r, hr, hof, hp⟩ := h
  obtain ⟨r', hr', hs⟩ := hg.keeps r hr
  exact ⟨r', hr', hof.same hs, hp.same hs⟩

/-- An update that sets a row to `pending` or `failed` where it selects it. -/
theorem Covered.update (h : Covered f kind key good) {p : Job → Bool} {g : Job → Job}
    (hg : ∀ r, p r = true → (g r).kind = r.kind ∧ (g r).dedupKey = r.dedupKey ∧
      ((g r).status = .pending ∨ (g r).status = .failed)) (hrows : db'.rows = updateWhere p g f.db.rows) :
    Covered ⟨db', f.attempts⟩ kind key good := by
  obtain ⟨r, hr, hof, hp⟩ := h
  show ∃ r ∈ db'.rows, _
  rw [hrows]
  cases hsel : p r with
  | true =>
    obtain ⟨hkind, hkey, hst⟩ := hg r hsel
    refine ⟨g r, mem_updateWhere_of_sel hr hsel, ⟨hkind.trans hof.1, hkey.trans hof.2⟩, ?_⟩
    rcases hst with hst | hst
    · exact .inl hst
    · exact .inr (.inl hst)
  | false => exact ⟨r, mem_updateWhere_of_not hr hsel, hof, hp⟩

theorem Covered.delete (h : Covered f kind key good) {p : Job → Bool}
    (hkeep : ∀ r ∈ f.db.rows, IsOf kind key r → r.status ≠ .done → p r = false)
    (hrows : db'.rows = deleteWhere p f.db.rows) : Covered ⟨db', f.attempts⟩ kind key good := by
  obtain ⟨r, hr, hof, hp⟩ := h
  show ∃ r ∈ db'.rows, _
  rw [hrows]
  refine ⟨r, mem_deleteWhere.mpr ⟨hr, hkeep r hr hof fun hdone => ?_⟩, hof, hp⟩
  rcases hp with h | h | ⟨h, _⟩ <;> exact nomatch h.symm.trans hdone

theorem Covered.rows (h : Covered f kind key good) (hrows : db'.rows = f.db.rows) :
    Covered ⟨db', f.attempts⟩ kind key good := h.grows (by rw [hrows]; exact .refl _)

theorem Covered.record (h : Covered ⟨db', f.attempts⟩ kind key good) {ph : Phase} (hA : f.attempts[k]? = some A)
    (hph : ph ≠ .executing) : Covered (f.record k A ph db') kind key good := by
  obtain ⟨r, hr, hof, hp⟩ := h
  exact ⟨r, hr, hof, hp.setPhase hA hph⟩

/-- The write of a `fail` sets its row to `failed` or `pending`, or is rolled back. -/
theorem Covered.fail (h : Covered f kind key good) (seen : Job) (a : FailArgs) {sessions : List Session} :
    Covered ⟨{ f.db.commit ((Call.fail seen a).write f.db.rows) with sessions := sessions }, f.attempts⟩ kind key good := by
  cases hw : failWrite f.db.rows seen a with
  | error e => exact h.rows (by simp only [Call.write, hw]; rfl)
  | ok x =>
    obtain ⟨rows1, h1, h2⟩ := bind_ok hw
    have hrows : x.1 = updateWhere (fence seen.id a.worker) (failValues seen a) f.db.rows := by
      rw [← (flush_ok h1).1]
      split at h2 <;> cases h2 <;> rfl
    refine h.update (g := failValues seen a) (p := fence seen.id a.worker) (fun r _ => ?_)
      (by simp only [Call.write, hw]; exact hrows)
    obtain ⟨_, hkind, hkey⟩ := failValues_id seen a r
    refine ⟨hkind, hkey, ?_⟩
    by_cases hmax : seen.maxAttempts ≤ seen.attempts + 1
    · exact .inr (failValues_failed hmax r)
    · exact .inl (failValues_pending hmax r).1

/-- A heartbeat changes no state. -/
theorem Covered.renew (h : Covered f kind key good) (worker : String) (now : ℚ) :
    Covered ⟨{ f.db with rows := (renewClaim f.db.rows worker now).1 }, f.attempts⟩ kind key good := by
  obtain ⟨r, hr, hof, hp⟩ := h
  cases hsel : heldBy worker r with
  | true => exact ⟨_, mem_updateWhere_of_sel hr hsel, hof, hp⟩
  | false => exact ⟨r, mem_updateWhere_of_not hr hsel, hof, hp⟩

/-- What no attempt issues. -/
theorem Covered.other (h : Covered f kind key good) (hlocks : Locks f.db) {op : Op}
    (hspare : spares kind key f (.other op)) (hplain : op.plain = true) (hs : step f.db op = some db') :
    Covered ⟨db', f.attempts⟩ kind key good := by
  cases op with
  | enqueue jobId kind' e a =>
    rw [← Option.some.inj hs]
    exact h.grows (commit_grows fun _ _ hx => enqueueInSession_grows hx)
  | enqueueMany kind' entries a =>
    rw [← Option.some.inj hs]
    exact h.grows (commit_grows fun _ _ hx => enqueueManyInSession_grows hx)
  | renewClaim worker now =>
    rw [← Option.some.inj hs]
    exact h.renew worker now
  | resetRunningToPending worker now =>
    rw [← Option.some.inj hs]
    cases hreset : resetRunningToPending f.db.rows worker now with
    | error e => exact h.rows rfl
    | ok x =>
      obtain ⟨rows1, h1, h2⟩ := bind_ok hreset
      obtain ⟨rfl, _⟩ := flush_ok h1
      cases h2
      exact h.update (p := heldBy worker) (g := requeue now) (fun r _ => ⟨rfl, rfl, .inl rfl⟩) rfl
  | sweepDone olderThan now =>
    rw [← Option.some.inj hs]
    exact h.delete (fun r _ _ hdone => decide_eq_false fun hsel => hdone hsel.1) rfl
  | deleteForWorkspace userId workspace =>
    rw [← Option.some.inj hs]
    exact h.delete (fun r hr hof _ => decide_eq_false (hspare r hr hof)) rfl
  | beginRetry c jobId userId now =>
    rw [← Option.some.inj hs]
    exact h.rows (begin_rows ..)
  | beginDismiss c jobId userId =>
    rw [← Option.some.inj hs]
    exact h.rows (begin_rows ..)
  | finish c =>
    cases c with
    | attempt k => cases hplain
    | user n =>
      obtain ⟨s, hfind, rfl⟩ := Option.map_eq_some_iff.mp hs
      have hmem := List.mem_of_find?_eq_some hfind
      have hcaller : s.caller = .user n := by simpa using List.find?_some hfind
      cases hc : s.call with
      | fail seen a => exact h.fail seen a
      | retry seen now =>
        obtain ⟨hst, hl⟩ := hlocks.retries s hmem seen now hc
        cases hw : retryWrite f.db.rows seen now with
        | error e => exact h.rows (by simp only [Call.write, hw]; rfl)
        | ok x =>
          refine h.update (g := retryValues seen now) (p := fun r => r.id = seen.id)
            (fun r _ => ⟨rfl, rfl, .inl (retryValues_pending hst hl now r).1⟩) ?_
          simp only [Call.write, hw]
          unfold retryWrite at hw
          split at hw
          · exact (flush_ok hw).1
          · cases hw
      | dismiss seen =>
        refine h.delete (p := fun r => r.id = seen.id) (fun r hr hof _ => decide_eq_false ?_) rfl
        exact hspare s hmem hcaller seen (by rw [hc]; rfl) r hr hof
  | abandon c =>
    obtain ⟨s, _, rfl⟩ := Option.map_eq_some_iff.mp hs
    exact h.rows rfl
  | claim => cases hplain
  | complete => cases hplain
  | failTerminal => cases hplain
  | beginFail => cases hplain

/-- The attempts after a claim. -/
theorem claimed_getElem? (new : Option Attempt) (hA : (f.attempts ++ new.toList)[k]? = some A) :
    f.attempts[k]? = some A ∨ (k = f.attempts.length ∧ new = some A) := by
  rw [List.getElem?_append] at hA
  split at hA
  · exact .inl hA
  · cases new with
    | none => simp at hA
    | some B =>
      rw [Option.toList_some, List.getElem?_singleton] at hA
      split at hA
      · exact .inr ⟨by omega, hA⟩
      · cases hA

/-- The attempt of a claim executes on the row that it took. -/
theorem Covered.claim (h : Covered f kind key good) {worker : String} {now staleAfter : ℚ} {tie : Nat}
    (hok : claimsAfresh f (.claim worker now staleAfter tie)) (hnew : good f.attempts.length) :
    Covered ⟨{ f.db with rows := (Queue.claim f.db.rows worker now staleAfter tie).1 },
      f.attempts ++ ((Queue.claim f.db.rows worker now staleAfter tie).2.map fun job =>
        (⟨job.id, worker, .executing⟩ : Attempt)).toList⟩ kind key good := by
  rcases claim_cases f.db.rows worker now staleAfter tie with e | ⟨j, _, e⟩
  · rw [e, Option.map_none, Option.toList_none, List.append_nil]
    exact h.rows rfl
  have hfresh := hok (lock worker now j) (by rw [e]; rfl)
  rw [e]
  obtain ⟨r, hr, hof, hp⟩ := h
  by_cases hid : r.id = j.id
  · refine ⟨lock worker now r, mem_updateWhere_of_sel hr (decide_eq_true hid), hof, .inr (.inr ⟨rfl, ?_⟩)⟩
    intro k A hA hx hf
    obtain ⟨hrow, hworker⟩ := fence_iff.mp hf
    rcases claimed_getElem? (some ⟨j.id, worker, .executing⟩) hA with hold | ⟨rfl, _⟩
    · -- an earlier attempt of this worker on the row has reported
      have hrep := hfresh A (List.mem_of_getElem? hold) (hrow.symm.trans hid) (Option.some.inj hworker).symm
      rw [hrep] at hx
      cases hx
    · exact hnew
  · refine ⟨r, mem_updateWhere_of_not hr (decide_eq_false hid), hof, hp.attempts fun k A hA _ hf => ?_⟩
    rcases claimed_getElem? (some ⟨j.id, worker, .executing⟩) hA with hold | ⟨rfl, _⟩
    · exact .inl hold
    · exact .inr hnew

/-! ## the attempts on the rows of a key -/

theorem Keeps.trans {a b c : Job} (h : Keeps a b) (h' : Keeps b c) : Keeps a c :=
  ⟨h'.id.trans h.id, h'.kind.trans h.kind, h'.dedupKey.trans h.dedupKey, fun w hw => h.lockedBy w (h'.lockedBy w hw),
    fun hr => h.running (h'.running hr)⟩

/-- Where a locked row comes from. -/
theorem Change.kept {rows rows' : List Job} (h : Change Keeps rows rows') (hr : r' ∈ rows') {w : String}
    (hw : r'.lockedBy = some w) : ∃ r ∈ rows, Keeps r r' := by
  induction h generalizing r' with
  | refl => exact ⟨r', hr, rfl, rfl, rfl, fun _ h => h, fun h => h⟩
  | insert js hj _ =>
    rcases List.mem_append.mp hr with hr | hr
    · exact ⟨r', hr, rfl, rfl, rfl, fun _ h => h, fun h => h⟩
    · exact nomatch (hj r' hr).2.symm.trans hw
  | update p g hg _ =>
    rcases mem_updateWhere.mp hr with ⟨r, hmem, hp, rfl⟩ | ⟨hmem, _⟩
    · exact ⟨r, hmem, hg r hmem hp⟩
    · exact ⟨r', hmem, rfl, rfl, rfl, fun _ h => h, fun h => h⟩
  | delete => exact ⟨r', (mem_deleteWhere.mp hr).1, rfl, rfl, rfl, fun _ h => h, fun h => h⟩
  | trans _ _ ih ih' =>
    obtain ⟨b, hb, hbr⟩ := ih' hr hw
    obtain ⟨a, ha, hab⟩ := ih hb (hbr.lockedBy w hw)
    exact ⟨a, ha, hab.trans hbr⟩

/-- A step that is no claim. -/
theorem fleetStep_change (hinv : FleetInv f) {op : FleetOp}
    (hop : ∀ worker now staleAfter tie, op ≠ .claim worker now staleAfter tie) (hs : fleetStep f op = some f') :
    Change Keeps f.db.rows f'.db.rows := by
  have hstep : ∀ {op' : Op} {db : Db}, step f.db op' = some db →
      (∀ worker now staleAfter tie, op' ≠ .claim worker now staleAfter tie) → Change Keeps f.db.rows db.rows := by
    intro op' db hdb hne
    rcases step_cases hinv.table.ok hdb with h | ⟨worker, now, staleAfter, tie, h, _⟩
    · exact h
    · exact absurd h (hne worker now staleAfter tie)
  cases op with
  | claim worker now staleAfter tie => exact absurd rfl (hop worker now staleAfter tie)
  | lose k =>
    obtain ⟨A, _, rfl⟩ := Option.map_eq_some_iff.mp hs
    exact .refl _
  | other op =>
    simp only [fleetStep] at hs
    split at hs
    · rename_i hp
      obtain ⟨db, hdb, rfl⟩ := Option.map_eq_some_iff.mp hs
      exact hstep hdb fun _ _ _ _ e => by rw [e] at hp; cases hp
    · cases hs
  | _ =>
    obtain ⟨A, _, h1⟩ := Option.bind_eq_some_iff.mp hs
    obtain ⟨db, hdb, rfl⟩ := Option.map_eq_some_iff.mp h1
    exact hstep hdb fun _ _ _ _ e => by cases e

/-- An attempt that executes after a step did so before it. -/
theorem fleetStep_executing {op : FleetOp} (hop : ∀ worker now staleAfter tie, op ≠ .claim worker now staleAfter tie)
    (hs : fleetStep f op = some f') (hA : f'.attempts[k]? = some A) (hx : A.phase = .executing) :
    f.attempts[k]? = some A := by
  have hset : ∀ {m : Nat} {B : Attempt} {ph : Phase}, f.attempts[m]? = some B → ph ≠ .executing →
      (f.attempts.set m { B with phase := ph })[k]? = some A → f.attempts[k]? = some A := by
    intro m B ph hB hph hk
    rcases (getElem?_setPhase hB k A).mp hk with ⟨_, rfl⟩ | ⟨_, hk⟩
    · exact absurd hx hph
    · exact hk
  cases op with
  | claim worker now staleAfter tie => exact absurd rfl (hop worker now staleAfter tie)
  | lose m =>
    obtain ⟨B, hB, rfl⟩ := Option.map_eq_some_iff.mp hs
    exact hset (Fleet.at_some hB).1 (by simp) hA
  | other op =>
    simp only [fleetStep] at hs
    split at hs
    · obtain ⟨db, _, rfl⟩ := Option.map_eq_some_iff.mp hs
      exact hA
    · cases hs
  | beginFail m error now base cap =>
    obtain ⟨B, hB, h1⟩ := Option.bind_eq_some_iff.mp hs
    obtain ⟨db, _, rfl⟩ := Option.map_eq_some_iff.mp h1
    exact hset (Fleet.at_some hB).1 (by split <;> simp) hA
  | _ =>
    obtain ⟨B, hB, h1⟩ := Option.bind_eq_some_iff.mp hs
    obtain ⟨db, _, rfl⟩ := Option.map_eq_some_iff.mp h1
    exact hset (Fleet.at_some hB).1 (by simp) hA

/-- The attempt of a claim is the only one to execute on its row under the lock. -/
theorem watched_claim (h : Watched f kind key good) (hinv : FleetInv f) {worker : String} {now staleAfter : ℚ} {tie : Nat}
    (hok : claimsAfresh f (.claim worker now staleAfter tie))
    (hnew : ∀ job, (claim f.db.rows worker now staleAfter tie).2 = some job → IsOf kind key job → good f.attempts.length) :
    Watched ⟨{ f.db with rows := (claim f.db.rows worker now staleAfter tie).1 },
      f.attempts ++ ((claim f.db.rows worker now staleAfter tie).2.map fun job =>
        (⟨job.id, worker, .executing⟩ : Attempt)).toList⟩ kind key good := by
  intro k A hA hx r hr hof hf
  obtain ⟨hrow, hworker⟩ := fence_iff.mp hf
  have htable := claim_inv hinv.table worker now staleAfter tie
  rcases claim_cases f.db.rows worker now staleAfter tie with e | ⟨j, hj, e⟩
  · rw [e] at hA hr
    rw [Option.map_none, Option.toList_none, List.append_nil] at hA
    exact h k A hA hx r hr hof hf
  rw [e] at hA hr
  have hfresh := hok (lock worker now j) (by rw [e]; rfl)
  rcases claimed_getElem? _ hA with hold | ⟨rfl, hlast⟩
  · rcases mem_updateWhere.mp hr with ⟨r0, _, hid, rfl⟩ | ⟨hr, _⟩
    · have hrep := hfresh A (List.mem_of_getElem? hold) (hrow.symm.trans (of_decide_eq_true hid))
        (Option.some.inj hworker).symm
      exact nomatch hrep.symm.trans hx
    · exact h k A hold hx r hr hof hf
  · refine hnew (lock worker now j) (by rw [e]) ?_
    have hAr : A.row = j.id := by rw [← Option.some.inj hlast]; rfl
    rcases mem_updateWhere.mp hr with ⟨r0, hr0, hid, rfl⟩ | ⟨_, hid⟩
    · have hjr : r0 = j := hinv.table.ok.eq_of_id hr0 (claimable_mem hj).1 (of_decide_eq_true hid)
      rw [← hjr]
      exact hof
    · exact absurd (hrow.trans hAr) (of_decide_eq_false hid)

theorem watched_step (h : Watched f kind key good) (hinv : FleetInv f) {op : FleetOp} (hok : claimsAfresh f op)
    (hs : fleetStep f op = some f')
    (hnew : ∀ worker now staleAfter tie job, op = .claim worker now staleAfter tie →
      (claim f.db.rows worker now staleAfter tie).2 = some job → IsOf kind key job → good f.attempts.length) :
    Watched f' kind key good := by
  by_cases hop : ∀ worker now staleAfter tie, op ≠ .claim worker now staleAfter tie
  · intro k A hA hx r' hr' hof hf
    obtain ⟨hrow, hworker⟩ := fence_iff.mp hf
    obtain ⟨r, hr, hk⟩ := (fleetStep_change hinv hop hs).kept hr' hworker
    exact h k A (fleetStep_executing hop hs hA hx) hx r hr ⟨hk.kind ▸ hof.1, hk.dedupKey ▸ hof.2⟩
      (fence_iff.mpr ⟨hk.id ▸ hrow, hk.lockedBy _ hworker⟩)
  · push Not at hop
    obtain ⟨worker, now, staleAfter, tie, rfl⟩ := hop
    rw [← Option.some.inj hs]
    exact watched_claim h hinv hok fun job hjob hof => hnew worker now staleAfter tie job rfl hjob hof

theorem Covered.mono {good' : Nat → Prop} (h : Covered f kind key good) (hgood : ∀ k, good k → good' k) :
    Covered f kind key good' := by
  obtain ⟨r, hr, hof, hp⟩ := h
  refine ⟨r, hr, hof, ?_⟩
  rcases hp with hp | hp | ⟨hrun, hall⟩
  · exact .inl hp
  · exact .inr (.inl hp)
  · exact .inr (.inr ⟨hrun, fun k A hA hx hf => hgood k (hall k A hA hx hf)⟩)

/-- A pending row covers its key. -/
theorem covered_of_pending (hr : r ∈ f.db.rows) (hof : IsOf kind key r) (hp : r.status = .pending) :
    Covered f kind key good := ⟨r, hr, hof, .inl hp⟩

/-- **A covered key stays covered**, unless an attempt that is a good one completes its row. -/
theorem covered_step (hinv : FleetInv f) (hlocks : Locks f.db) {op : FleetOp} (hok : claimsAfresh f op)
    (hspare : spares kind key f op) (hnew : good f.attempts.length) (h : Covered f kind key good)
    (hs : fleetStep f op = some f') : Covered f' kind key good ∨
      ∃ k now A, op = .complete k now ∧ f.attempts[k]? = some A ∧ A.phase = .executing ∧ good k ∧
        ∃ r ∈ f.db.rows, IsOf kind key r ∧ fence A.row A.worker r = true := by
  cases op with
  | claim worker now staleAfter tie =>
    rw [← Option.some.inj hs]
    exact .inl (h.claim hok hnew)
  | complete k now =>
    obtain ⟨A, hA, hs⟩ := Option.bind_eq_some_iff.mp hs
    obtain ⟨hA, hx⟩ := Fleet.at_some hA
    rw [← Option.some.inj hs]
    obtain ⟨r, hr, hof, hp⟩ := h
    by_cases hf : fence A.row A.worker r = true
    · refine .inr ⟨k, now, A, rfl, hA, hx, ?_, r, hr, hof, hf⟩
      -- a row that passes the fence of an executing attempt is running
      rcases hp with hpend | hfail | ⟨_, hall⟩
      · exact nomatch ((hlocks.rows r hr).pending hpend).symm.trans (fence_iff.mp hf).2
      · exact absurd (Or.inr hfail) (hinv.live_fence hA (by rw [hx]; simp) hr hf).2
      · exact hall k A hA hx hf
    · exact .inl ⟨r, mem_updateWhere_of_not hr (Bool.not_eq_true _ ▸ hf), hof, hp.setPhase hA (by simp)⟩
  | failTerminal k error now =>
    obtain ⟨A, hA, hs⟩ := Option.bind_eq_some_iff.mp hs
    obtain ⟨hA, hx⟩ := Fleet.at_some hA
    rw [← Option.some.inj hs]
    exact .inl ((h.update (p := fence A.row A.worker)
      (g := fun r => { r with status := .failed, lastError := some error, updatedAt := now })
      (fun r _ => ⟨rfl, rfl, .inr rfl⟩) rfl).record hA (by simp))
  | beginFail k error now base cap =>
    obtain ⟨A, hA, hs⟩ := Option.bind_eq_some_iff.mp hs
    obtain ⟨hA, hx⟩ := Fleet.at_some hA
    rw [← Option.some.inj hs]
    exact .inl ((h.rows (begin_rows ..)).record hA (by split <;> simp))
  | finishFail k =>
    obtain ⟨A, hA, hs⟩ := Option.bind_eq_some_iff.mp hs
    obtain ⟨hA, hx⟩ := Fleet.at_some hA
    obtain ⟨db, hdb, rfl⟩ := Option.map_eq_some_iff.mp hs
    obtain ⟨s, hfind, rfl⟩ := Option.map_eq_some_iff.mp hdb
    have hb := hinv.calls s (List.mem_of_find?_eq_some hfind)
    have hcaller : s.caller = .attempt k := by simpa using List.find?_some hfind
    simp only [Backed, hcaller] at hb
    obtain ⟨B, seen, a, _, _, hcall, _⟩ := hb
    rw [hcall]
    exact .inl ((h.fail seen a).record hA (by simp))
  | lose k =>
    obtain ⟨A, hA, rfl⟩ := Option.map_eq_some_iff.mp hs
    obtain ⟨hA, hx⟩ := Fleet.at_some hA
    exact .inl ((h.rows rfl).record hA (by simp))
  | abandonFail k =>
    obtain ⟨A, hA, hs⟩ := Option.bind_eq_some_iff.mp hs
    obtain ⟨hA, hx⟩ := Fleet.at_some hA
    obtain ⟨db, hdb, rfl⟩ := Option.map_eq_some_iff.mp hs
    obtain ⟨s, _, rfl⟩ := Option.map_eq_some_iff.mp hdb
    exact .inl ((h.rows rfl).record hA (by simp))
  | other op =>
    simp only [fleetStep] at hs
    split at hs
    · rename_i hp
      obtain ⟨db, hdb, rfl⟩ := Option.map_eq_some_iff.mp hs
      exact .inl (h.other hlocks hspare hp hdb)
    · cases hs

end
end Kajet.Queue
