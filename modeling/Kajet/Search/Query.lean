import Kajet.Embedding.Handler
import Kajet.Lib.Lru
import Kajet.Lib.Machine
import Kajet.Search.Execute

/-!
# The vector of a query

A search asks a cache for the vector of its query, then the endpoint, again after a passing failure, and goes on
without a vector if there is none.  The searches of a process share the cache.

* `readAnswer`, `isTransient`, `degradedReasonFor`   one attempt;
* `Op`, `step`, `querying`   searches at the same time, with any answers, any of them cancelled;
* `Explained`                what a search says of its vector is what happened;
* `query_vectors`            in every run every vector is an answer to that query, the cache has the vectors of the
                             queries that were used last, and no search calls more often than it may.
-/

namespace Kajet.Search
open Str Kajet.Embedding

/-! ## one attempt -/

inductive Response (ν : Type) where
  | timeout | connectError | remoteProtocolError
  /-- another exception -/
  | failed
  /-- a status that is no success -/
  | status (code : ℕ)
  | data (items : List (Item ν))

inductive EmbedError where
  | auth (status : ℕ)
  | requestRejected (status : ℕ)
  | httpStatus (code : ℕ)
  | timeout | connect | remoteProtocol | other
deriving DecidableEq

/-- `_embed` of one text. -/
def readAnswer {ν : Type} (cfg : EmbedderConfig) : Response ν → Except EmbedError (List ν)
  | .timeout => .error .timeout
  | .connectError => .error .connect
  | .remoteProtocolError => .error .remoteProtocol
  | .failed => .error .other
  | .status code =>
    if code = 401 ∨ code = 403 then .error (.auth code)
    else if code = 400 ∨ code = 404 ∨ code = 422 then .error (.requestRejected code)
    else .error (.httpStatus code)
  | .data items =>
    match readBatch cfg items with
    | some (v :: _) => .ok v
    | _ => .error .other

def isTransient : EmbedError → Bool
  | .httpStatus code => code = 429 || 500 ≤ code
  | .timeout | .connect | .remoteProtocol => true
  | .auth _ | .requestRejected _ | .other => false

/-- An error that is tried again is an `EmbeddingUnavailable` in the end. -/
def degradedReasonFor : EmbedError → DegradedReason
  | .auth _ => .authFailed
  | .requestRejected _ => .misconfigured
  | _ => .unavailable

/-! ## the searches of a process -/

structure CacheKey where
  query : Text
  backend : String
  model : String
deriving DecidableEq

section
variable {ν : Type}

abbrev Vector (ν : Type) := QueryVector (List ν) Chunks.IndexIdentity

inductive Phase (ν : Type) where
  | lookup
  | calling (attempt : ℕ)
  /-- answered: the notice of the key goes, then the vector is cached -/
  | embedded (v : List ν)
  | cleared (v : List ν)
  /-- the key was refused: a notice comes -/
  | refused (status : ℕ)
  | ready (vector : Vector ν)
  | cancelled

structure Request (ν : Type) where
  ownerId : String
  query : Text
  cfg : Option EmbedderConfig
  /-- the answers so far, the last one first -/
  responses : List (Response ν)
  phase : Phase ν

inductive NoticeCall where
  | clear (ownerId profileId : String)
  | rejected (ownerId profileId : String)
deriving DecidableEq

structure State (ν : Type) where
  requests : List (Request ν)
  cache : Lru.Store CacheKey (List ν)
  /-- what was found in the cache and what was put there, the last one first -/
  uses : List (CacheKey × List ν)
  notices : List NoticeCall

def State.start : State ν := ⟨[], [], [], []⟩

inductive Op (ν : Type) where
  /-- what `_prepare` gets: an exception, no backend, or a backend -/
  | search (ownerId : String) (query : Text) (resolved : Except Unit (Option EmbedderConfig))
  | lookup (i : ℕ)
  | answer (i : ℕ) (response : Response ν)
  | clear (i : ℕ)
  | put (i : ℕ)
  | reject (i : ℕ)
  | cancel (i : ℕ)

def cacheKey (query : Text) (cfg : EmbedderConfig) : CacheKey := ⟨query, cfg.backendId, cfg.model⟩

def degraded (reason : DegradedReason) : Vector ν := ⟨none, none, some reason⟩

/-- A profile that is not stored has no notices. -/
def noticesOf (call : String → String → NoticeCall) (ownerId : String) (cfg : EmbedderConfig) : List NoticeCall :=
  cfg.profileId.toList.map (call ownerId)

/-- The deadline of an attempt and the pause between two are left to the answers. -/
structure QueryEmbedPolicy where
  maxAttempts : ℕ
  checked : 1 ≤ maxAttempts

variable (round : ν → ν) (identityKey : String → String → String) (maxsize : ℕ) (policy : QueryEmbedPolicy)

def embedded (cfg : EmbedderConfig) (v : List ν) : Vector ν :=
  ⟨some (pack round v), some ⟨identityKey cfg.backendId cfg.model, cfg.dim⟩, none⟩

/-- `_embed_failed`, and a notice for a key that was refused. -/
def Phase.given : EmbedError → Phase ν
  | .auth code => .refused code
  | e => .ready (degraded (degradedReasonFor e))

/-- After an attempt. -/
def afterAttempt (attempt : ℕ) : Except EmbedError (List ν) → Phase ν
  | .ok v => .embedded v
  | .error e =>
    if isTransient e then if attempt = policy.maxAttempts then .ready (degraded .unavailable) else .calling (attempt + 1)
    else .given e

def step (s : State ν) : Op ν → Option (State ν)
  | .search ownerId query resolved => some { s with requests := s.requests ++ [(match resolved with
      | .error _ => ⟨ownerId, query, none, [], .ready (degraded .unavailable)⟩
      | .ok none => ⟨ownerId, query, none, [], .ready ⟨none, none, none⟩⟩
      | .ok (some cfg) => ⟨ownerId, query, some cfg, [], .lookup⟩)] }
  | .lookup i => do
    let r ← s.requests[i]?
    match r.phase, r.cfg with
    | .lookup, some cfg =>
      let found := Lru.get (cacheKey r.query cfg) s.cache
      match found.1 with
      | some v => some { s with
          requests := s.requests.set i { r with phase := .ready (embedded round identityKey cfg v) }
          cache := found.2, uses := (cacheKey r.query cfg, v) :: s.uses }
      | none => some { s with requests := s.requests.set i { r with phase := .calling 1 }, cache := found.2 }
    | _, _ => none
  | .answer i response => do
    let r ← s.requests[i]?
    match r.phase, r.cfg with
    | .calling attempt, some cfg => some { s with
        requests := s.requests.set i { r with
          responses := response :: r.responses
          phase := afterAttempt policy attempt (readAnswer cfg response) } }
    | _, _ => none
  | .clear i => do
    let r ← s.requests[i]?
    match r.phase, r.cfg with
    | .embedded v, some cfg => some { s with
        requests := s.requests.set i { r with phase := .cleared v }
        notices := noticesOf .clear r.ownerId cfg ++ s.notices }
    | _, _ => none
  | .put i => do
    let r ← s.requests[i]?
    match r.phase, r.cfg with
    | .cleared v, some cfg => some { s with
        requests := s.requests.set i { r with phase := .ready (embedded round identityKey cfg v) }
        cache := Lru.put maxsize (cacheKey r.query cfg) v s.cache, uses := (cacheKey r.query cfg, v) :: s.uses }
    | _, _ => none
  | .reject i => do
    let r ← s.requests[i]?
    match r.phase, r.cfg with
    | .refused code, some cfg => some { s with
        requests := s.requests.set i { r with phase := .ready (degraded (degradedReasonFor (.auth code))) }
        notices := noticesOf .rejected r.ownerId cfg ++ s.notices }
    | _, _ => none
  | .cancel i => do
    let r ← s.requests[i]?
    match r.phase with
    | .ready _ => none
    | _ => some { s with requests := s.requests.set i { r with phase := .cancelled } }

def querying : Machine (State ν) (Op ν) where
  start s := s = State.start
  next := step round identityKey maxsize policy

/-! ## what a run keeps -/

/-- Every attempt failed, and could be tried again. -/
def Tried (cfg : EmbedderConfig) (responses : List (Response ν)) : Prop :=
  ∀ response ∈ responses, ∃ e, readAnswer cfg response = .error e ∧ isTransient e = true

/-- Some request for this text, endpoint and model got this vector. -/
def Answered (requests : List (Request ν)) (x : CacheKey × List ν) : Prop :=
  ∃ r ∈ requests, ∃ cfg, r.cfg = some cfg ∧ x.1 = cacheKey r.query cfg ∧
    ∃ response ∈ r.responses, readAnswer cfg response = .ok x.2

/-- Why a request goes on with this vector. -/
inductive Explained (s : State ν) (r : Request ν) : Vector ν → Prop
  | keyword : r.cfg = none → r.responses = [] → Explained s r ⟨none, none, none⟩
  | unresolved : r.cfg = none → r.responses = [] → Explained s r (degraded .unavailable)
  | cached {cfg : EmbedderConfig} {v : List ν} : r.cfg = some cfg → r.responses = [] →
      Answered s.requests (cacheKey r.query cfg, v) → Explained s r (embedded round identityKey cfg v)
  | live {cfg : EmbedderConfig} {v : List ν} {response : Response ν} {earlier : List (Response ν)} : r.cfg = some cfg →
      r.responses = response :: earlier → Tried cfg earlier → readAnswer cfg response = .ok v →
      (∀ p ∈ cfg.profileId, .clear r.ownerId p ∈ s.notices) → Explained s r (embedded round identityKey cfg v)
  | exhausted {cfg : EmbedderConfig} : r.cfg = some cfg → r.responses.length = policy.maxAttempts → Tried cfg r.responses →
      Explained s r (degraded .unavailable)
  | failed {cfg : EmbedderConfig} {e : EmbedError} {response : Response ν} {earlier : List (Response ν)} : r.cfg = some cfg →
      r.responses = response :: earlier → Tried cfg earlier → readAnswer cfg response = .error e → isTransient e = false →
      (∀ code p, e = .auth code → p ∈ cfg.profileId → .rejected r.ownerId p ∈ s.notices) →
      Explained s r (degraded (degradedReasonFor e))

/-- The attempts so far: the last one with this outcome. -/
def Ended (r : Request ν) (outcome : Except EmbedError (List ν)) : Prop :=
  ∃ cfg response earlier, r.cfg = some cfg ∧ r.responses = response :: earlier ∧ Tried cfg earlier ∧
    readAnswer cfg response = outcome

/-- What holds of a request in a phase. -/
def Fits (s : State ν) (r : Request ν) : Phase ν → Prop
  | .lookup => r.cfg.isSome = true ∧ r.responses = []
  | .calling attempt => r.responses.length + 1 = attempt ∧ attempt ≤ policy.maxAttempts ∧ ∃ cfg, r.cfg = some cfg ∧ Tried cfg r.responses
  | .embedded v => Ended r (.ok v)
  | .cleared v => Ended r (.ok v) ∧ ∀ cfg ∈ r.cfg, ∀ p ∈ cfg.profileId, .clear r.ownerId p ∈ s.notices
  | .refused code => Ended r (.error (.auth code))
  | .ready vector => Explained round identityKey policy s r vector
  | .cancelled => True

def Fine (s : State ν) (r : Request ν) : Prop :=
  r.responses.length ≤ policy.maxAttempts ∧ Fits round identityKey policy s r r.phase

/-- An answer of the endpoint is behind a call of the notices. -/
def Justified (requests : List (Request ν)) : NoticeCall → Prop
  | .clear ownerId profileId => ∃ r ∈ requests, r.ownerId = ownerId ∧ ∃ cfg, r.cfg = some cfg ∧ cfg.profileId = some profileId ∧
      ∃ response ∈ r.responses, ∃ v, readAnswer cfg response = .ok v
  | .rejected ownerId profileId => ∃ r ∈ requests, r.ownerId = ownerId ∧ ∃ cfg, r.cfg = some cfg ∧ cfg.profileId = some profileId ∧
      ∃ response ∈ r.responses, ∃ code, readAnswer cfg response = .error (.auth code)

structure Inv (s : State ν) : Prop where
  cache : s.cache = Lru.kept maxsize s.uses
  uses : ∀ x ∈ s.uses, Answered s.requests x
  fine : ∀ r ∈ s.requests, Fine round identityKey policy s r
  notices : ∀ call ∈ s.notices, Justified s.requests call

end

section
variable {ν : Type} {round : ν → ν} {identityKey : String → String → String} {maxsize : ℕ} {policy : QueryEmbedPolicy}
  {s t : State ν} {r r' : Request ν} {i : ℕ}

/-- A request goes on. -/
structure Request.Grows (r r' : Request ν) : Prop where
  ownerId : r'.ownerId = r.ownerId
  query : r'.query = r.query
  cfg : r'.cfg = r.cfg
  responses : r.responses ⊆ r'.responses

structure Grows (s t : State ν) : Prop where
  requests : ∀ r ∈ s.requests, ∃ r' ∈ t.requests, r.Grows r'
  notices : s.notices ⊆ t.notices

theorem Request.Grows.refl (r : Request ν) : r.Grows r := ⟨rfl, rfl, rfl, List.Subset.refl _⟩

theorem mem_set_of_getElem? (hr : s.requests[i]? = some r) (r' : Request ν) : r' ∈ s.requests.set i r' :=
  List.mem_set (List.getElem?_eq_some_iff.mp hr).1 r'

theorem Grows.set (hr : s.requests[i]? = some r) (hgrows : r.Grows r') (hrequests : t.requests = s.requests.set i r')
    (hnotices : s.notices ⊆ t.notices) : Grows s t := by
  refine ⟨fun x hx => ?_, hnotices⟩
  rw [hrequests]
  obtain ⟨hi, hri⟩ := List.getElem?_eq_some_iff.mp hr
  obtain ⟨j, hj, rfl⟩ := List.mem_iff_getElem.mp hx
  by_cases hij : i = j
  · subst hij
    exact ⟨r', List.mem_iff_getElem.mpr ⟨i, by rwa [List.length_set], List.getElem_set_self _⟩, hri ▸ hgrows⟩
  · exact ⟨_, List.mem_iff_getElem.mpr ⟨j, by rwa [List.length_set], List.getElem_set_ne hij _⟩, .refl _⟩

theorem Answered.grow {x : CacheKey × List ν} (h : Answered s.requests x) (hst : Grows s t) : Answered t.requests x := by
  obtain ⟨r, hr, cfg, hcfg, hkey, response, hresponse, hanswer⟩ := h
  obtain ⟨r', hr', hgrows⟩ := hst.requests r hr
  exact ⟨r', hr', cfg, hgrows.cfg.trans hcfg, by rw [hkey, hgrows.query], response, hgrows.responses hresponse, hanswer⟩

theorem Justified.grow {call : NoticeCall} (h : Justified s.requests call) (hst : Grows s t) : Justified t.requests call := by
  cases call with
  | clear ownerId profileId =>
    obtain ⟨r, hr, howner, cfg, hcfg, hprofile, response, hresponse, hanswer⟩ := h
    obtain ⟨r', hr', hgrows⟩ := hst.requests r hr
    exact ⟨r', hr', hgrows.ownerId.trans howner, cfg, hgrows.cfg.trans hcfg, hprofile, response, hgrows.responses hresponse,
      hanswer⟩
  | rejected ownerId profileId =>
    obtain ⟨r, hr, howner, cfg, hcfg, hprofile, response, hresponse, hanswer⟩ := h
    obtain ⟨r', hr', hgrows⟩ := hst.requests r hr
    exact ⟨r', hr', hgrows.ownerId.trans howner, cfg, hgrows.cfg.trans hcfg, hprofile, response, hgrows.responses hresponse,
      hanswer⟩

theorem Explained.grow {vector : Vector ν} (h : Explained round identityKey policy s r vector) (hst : Grows s t) :
    Explained round identityKey policy t r vector := by
  cases h with
  | keyword hcfg hnone => exact .keyword hcfg hnone
  | unresolved hcfg hnone => exact .unresolved hcfg hnone
  | cached hcfg hnone hanswered => exact .cached hcfg hnone (hanswered.grow hst)
  | live hcfg hresponses htried hanswer hnotice => exact .live hcfg hresponses htried hanswer fun p hp => hst.notices (hnotice p hp)
  | exhausted hcfg hlen htried => exact .exhausted hcfg hlen htried
  | failed hcfg hresponses htried hanswer he hnotice =>
    exact .failed hcfg hresponses htried hanswer he fun code p hauth hp => hst.notices (hnotice code p hauth hp)

theorem Fine.grow (h : Fine round identityKey policy s r) (hst : Grows s t) : Fine round identityKey policy t r := by
  obtain ⟨hlen, hphase⟩ := h
  refine ⟨hlen, ?_⟩
  cases hr : r.phase with
  | ready vector =>
    rw [hr] at hphase
    exact Explained.grow hphase hst
  | cleared v =>
    rw [hr] at hphase
    exact ⟨hphase.1, fun cfg hcfg p hp => hst.notices (hphase.2 cfg hcfg p hp)⟩
  | lookup | calling attempt | embedded v | refused code | cancelled =>
    rw [hr] at hphase
    exact hphase

/-- One request goes on, and the cache with the log of its uses. -/
theorem Inv.set (h : Inv round identityKey maxsize policy s) (hr : s.requests[i]? = some r) (hgrows : r.Grows r')
    (hrequests : t.requests = s.requests.set i r') (hcache : t.cache = Lru.kept maxsize t.uses)
    (huses : ∀ x ∈ t.uses, x ∈ s.uses ∨ Answered t.requests x) (hsub : s.notices ⊆ t.notices)
    (hnotices : ∀ call ∈ t.notices, call ∈ s.notices ∨ Justified t.requests call)
    (hfine : Fine round identityKey policy t r') : Inv round identityKey maxsize policy t := by
  have hst : Grows s t := .set hr hgrows hrequests hsub
  refine ⟨hcache, fun x hx => ?_, fun x hx => ?_, fun call hcall => ?_⟩
  · exact (huses x hx).elim (fun hold => (h.uses x hold).grow hst) id
  · rw [hrequests] at hx
    rcases List.mem_or_eq_of_mem_set hx with hx | rfl
    · exact (h.fine x hx).grow hst
    · exact hfine
  · exact (hnotices call hcall).elim (fun hold => (h.notices call hold).grow hst) id

theorem Fine.phase {phase : Phase ν} (h : Fine round identityKey policy s r) (hphase : r.phase = phase) :
    r.responses.length ≤ policy.maxAttempts ∧ Fits round identityKey policy s r phase := by
  subst hphase
  exact h

theorem search_inv {ownerId : String} {query : Text} {resolved : Except Unit (Option EmbedderConfig)}
    (h : Inv round identityKey maxsize policy s)
    (hs : step round identityKey maxsize policy s (.search ownerId query resolved) = some t) :
    Inv round identityKey maxsize policy t := by
  cases hs
  have hst : ∀ r : Request ν, Grows s { s with requests := s.requests ++ [r] } := fun r =>
    ⟨fun x hx => ⟨x, List.mem_append_left _ hx, .refl x⟩, List.Subset.refl _⟩
  refine ⟨h.cache, fun x hx => (h.uses x hx).grow (hst _), fun x hx => ?_, fun call hcall => (h.notices call hcall).grow (hst _)⟩
  rcases List.mem_append.mp hx with hx | hx
  · exact (h.fine x hx).grow (hst _)
  · obtain rfl := List.mem_singleton.mp hx
    match resolved with
    | .error _ => exact ⟨Nat.zero_le _, .unresolved rfl rfl⟩
    | .ok none => exact ⟨Nat.zero_le _, .keyword rfl rfl⟩
    | .ok (some cfg) => exact ⟨Nat.zero_le _, rfl, rfl⟩

theorem lookup_inv (h : Inv round identityKey maxsize policy s)
    (hs : step round identityKey maxsize policy s (.lookup i) = some t) : Inv round identityKey maxsize policy t := by
  obtain ⟨r, hr, hs⟩ := Option.bind_eq_some_iff.mp hs
  split at hs
  swap
  · cases hs
  rename_i cfg hphase hcfg
  obtain ⟨hlen, -, hresponses⟩ := (h.fine r (List.mem_of_getElem? hr)).phase hphase
  have hgrows : ∀ phase, r.Grows { r with phase := phase } := fun _ => ⟨rfl, rfl, rfl, List.Subset.refl _⟩
  cases hfound : s.cache.lookup (cacheKey r.query cfg) with
  | none =>
    have hget : Lru.get (cacheKey r.query cfg) s.cache = (none, s.cache) := by rw [Lru.get, hfound]
    rw [hget] at hs
    cases hs
    refine h.set hr (hgrows _) rfl h.cache (fun x hx => .inl hx) (List.Subset.refl _) (fun call hcall => .inl hcall)
      ⟨hlen, ?_, policy.checked, cfg, hcfg, ?_⟩
    · rw [hresponses]
      rfl
    · intro response hresponse
      rw [hresponses] at hresponse
      cases hresponse
  | some v =>
    rw [h.cache] at hfound
    have hget := Lru.get_kept hfound
    rw [← h.cache] at hget
    rw [hget] at hs
    cases hs
    -- what the cache holds was used before
    have hused : (cacheKey r.query cfg, v) ∈ s.uses := by
      obtain ⟨newer, older, huses, -⟩ := Lru.mem_take_latest.mp (Lru.lookup_kept.mp hfound)
      rw [huses]
      exact List.mem_append_right _ List.mem_cons_self
    have hst : Grows s { s with
        requests := s.requests.set i { r with phase := .ready (embedded round identityKey cfg v) }
        cache := Lru.kept maxsize ((cacheKey r.query cfg, v) :: s.uses), uses := (cacheKey r.query cfg, v) :: s.uses } :=
      .set hr (hgrows _) rfl (List.Subset.refl _)
    have hanswered := (h.uses _ hused).grow hst
    refine h.set hr (hgrows _) rfl rfl (fun x hx => ?_) (List.Subset.refl _) (fun call hcall => .inl hcall)
      ⟨hlen, .cached hcfg hresponses hanswered⟩
    rcases List.mem_cons.mp hx with rfl | hx
    · exact .inr hanswered
    · exact .inl hx

theorem answer_inv {response : Response ν} (h : Inv round identityKey maxsize policy s)
    (hs : step round identityKey maxsize policy s (.answer i response) = some t) :
    Inv round identityKey maxsize policy t := by
  obtain ⟨r, hr, hs⟩ := Option.bind_eq_some_iff.mp hs
  split at hs
  swap
  · cases hs
  rename_i attempt cfg hphase hcfg
  obtain ⟨-, (hlen : r.responses.length + 1 = attempt), hmax, cfg', hcfg', htried⟩ := (h.fine r (List.mem_of_getElem? hr)).phase hphase
  cases hcfg.symm.trans hcfg'
  cases hs
  have hgrows : r.Grows { r with
      responses := response :: r.responses, phase := afterAttempt policy attempt (readAnswer cfg response) } :=
    ⟨rfl, rfl, rfl, List.subset_cons_self response r.responses⟩
  refine h.set hr hgrows rfl h.cache (fun x hx => .inl hx) (List.Subset.refl _) (fun call hcall => .inl hcall) ?_
  have hcount : (response :: r.responses).length ≤ policy.maxAttempts := by
    rw [List.length_cons]
    omega
  have hended : ∀ outcome, readAnswer cfg response = outcome → ∀ phase,
      Ended { r with responses := response :: r.responses, phase := phase } outcome := fun outcome heq phase =>
    ⟨cfg, response, r.responses, hcfg, rfl, htried, heq⟩
  cases hanswer : readAnswer cfg response with
  | ok v => exact ⟨hcount, hended _ hanswer _⟩
  | error e =>
    have htriedAll : isTransient e = true → Tried cfg (response :: r.responses) := fun he x hx => by
      rcases List.mem_cons.mp hx with rfl | hx
      · exact ⟨e, hanswer, he⟩
      · exact htried x hx
    by_cases he : isTransient e = true
    · by_cases hlast : attempt = policy.maxAttempts
      · rw [afterAttempt, if_pos he, if_pos hlast]
        exact ⟨hcount, .exhausted hcfg (by rw [List.length_cons, hlen, hlast]) (htriedAll he)⟩
      · rw [afterAttempt, if_pos he, if_neg hlast]
        exact ⟨hcount, by rw [List.length_cons, hlen], by omega, cfg, hcfg, htriedAll he⟩
    · rw [afterAttempt, if_neg he]
      cases e with
      | auth code => exact ⟨hcount, hended _ hanswer _⟩
      | requestRejected _ | httpStatus _ | timeout | connect | remoteProtocol | other =>
        exact ⟨hcount, .failed hcfg rfl htried hanswer (Bool.eq_false_iff.mpr he) fun _ _ hauth => by cases hauth⟩

theorem mem_noticesOf {call : String → String → NoticeCall} {ownerId : String} {cfg : EmbedderConfig} {x : NoticeCall} :
    x ∈ noticesOf call ownerId cfg ↔ ∃ p, cfg.profileId = some p ∧ call ownerId p = x := by
  simp [noticesOf]

theorem clear_inv (h : Inv round identityKey maxsize policy s)
    (hs : step round identityKey maxsize policy s (.clear i) = some t) : Inv round identityKey maxsize policy t := by
  obtain ⟨r, hr, hs⟩ := Option.bind_eq_some_iff.mp hs
  split at hs
  swap
  · cases hs
  rename_i v cfg hphase hcfg
  obtain ⟨hlen, hended⟩ := (h.fine r (List.mem_of_getElem? hr)).phase hphase
  cases hs
  have hgrows : r.Grows { r with phase := .cleared v } := ⟨rfl, rfl, rfl, List.Subset.refl _⟩
  refine h.set hr hgrows rfl h.cache (fun x hx => .inl hx) (List.subset_append_right _ _) (fun call hcall => ?_)
    ⟨hlen, hended, fun cfg' hcfg' p hp => ?_⟩
  · refine (List.mem_append.mp hcall).elim (fun hnew => .inr ?_) .inl
    obtain ⟨p, hp, rfl⟩ := mem_noticesOf.mp hnew
    obtain ⟨cfg', response, earlier, hcfg', hresponses, -, hanswer⟩ := hended
    cases hcfg.symm.trans hcfg'
    exact ⟨_, mem_set_of_getElem? hr _, rfl, cfg, hcfg, hp, response, hresponses ▸ List.mem_cons_self, v, hanswer⟩
  · cases hcfg.symm.trans hcfg'
    exact List.mem_append_left _ (mem_noticesOf.mpr ⟨p, hp, rfl⟩)

theorem put_inv (h : Inv round identityKey maxsize policy s)
    (hs : step round identityKey maxsize policy s (.put i) = some t) : Inv round identityKey maxsize policy t := by
  obtain ⟨r, hr, hs⟩ := Option.bind_eq_some_iff.mp hs
  split at hs
  swap
  · cases hs
  rename_i v cfg hphase hcfg
  obtain ⟨hlen, ⟨cfg', response, earlier, hcfg', hresponses, htried, hanswer⟩, hnotice⟩ :=
    (h.fine r (List.mem_of_getElem? hr)).phase hphase
  cases hcfg.symm.trans hcfg'
  cases hs
  have hgrows : r.Grows { r with phase := .ready (embedded round identityKey cfg v) } := ⟨rfl, rfl, rfl, List.Subset.refl _⟩
  refine h.set hr hgrows rfl ?_ (fun x hx => ?_) (List.Subset.refl _) (fun call hcall => .inl hcall)
    ⟨hlen, .live hcfg hresponses htried hanswer (hnotice cfg hcfg)⟩
  · rw [h.cache]
    exact Lru.put_kept
  · rcases List.mem_cons.mp hx with rfl | hx
    · exact .inr ⟨_, mem_set_of_getElem? hr _, cfg, hcfg, rfl, response, hresponses ▸ List.mem_cons_self, hanswer⟩
    · exact .inl hx

theorem reject_inv (h : Inv round identityKey maxsize policy s)
    (hs : step round identityKey maxsize policy s (.reject i) = some t) : Inv round identityKey maxsize policy t := by
  obtain ⟨r, hr, hs⟩ := Option.bind_eq_some_iff.mp hs
  split at hs
  swap
  · cases hs
  rename_i code cfg hphase hcfg
  obtain ⟨hlen, cfg', response, earlier, hcfg', hresponses, htried, hanswer⟩ :=
    (h.fine r (List.mem_of_getElem? hr)).phase hphase
  cases hcfg.symm.trans hcfg'
  cases hs
  have hgrows : r.Grows { r with phase := .ready (degraded (degradedReasonFor (.auth code))) } :=
    ⟨rfl, rfl, rfl, List.Subset.refl _⟩
  refine h.set hr hgrows rfl h.cache (fun x hx => .inl hx) (List.subset_append_right _ _) (fun call hcall => ?_)
    ⟨hlen, .failed hcfg hresponses htried hanswer rfl fun _ p _ hp => ?_⟩
  · refine (List.mem_append.mp hcall).elim (fun hnew => .inr ?_) .inl
    obtain ⟨p, hp, rfl⟩ := mem_noticesOf.mp hnew
    exact ⟨_, mem_set_of_getElem? hr _, rfl, cfg, hcfg, hp, response, hresponses ▸ List.mem_cons_self, code, hanswer⟩
  · exact List.mem_append_left _ (mem_noticesOf.mpr ⟨p, hp, rfl⟩)

theorem cancel_inv (h : Inv round identityKey maxsize policy s)
    (hs : step round identityKey maxsize policy s (.cancel i) = some t) : Inv round identityKey maxsize policy t := by
  obtain ⟨r, hr, hs⟩ := Option.bind_eq_some_iff.mp hs
  split at hs
  · cases hs
  · cases hs
    have hgrows : r.Grows { r with phase := .cancelled } := ⟨rfl, rfl, rfl, List.Subset.refl _⟩
    exact h.set hr hgrows rfl h.cache (fun x hx => .inl hx) (List.Subset.refl _) (fun call hcall => .inl hcall)
      ⟨(h.fine r (List.mem_of_getElem? hr)).1, trivial⟩

theorem step_inv {op : Op ν} (h : Inv round identityKey maxsize policy s)
    (hs : step round identityKey maxsize policy s op = some t) : Inv round identityKey maxsize policy t := by
  cases op with
  | search ownerId query resolved => exact search_inv h hs
  | lookup i => exact lookup_inv h hs
  | answer i response => exact answer_inv h hs
  | clear i => exact clear_inv h hs
  | put i => exact put_inv h hs
  | reject i => exact reject_inv h hs
  | cancel i => exact cancel_inv h hs

theorem reach_inv (h : (querying round identityKey maxsize policy).Reach Machine.free s) :
    Inv round identityKey maxsize policy s := by
  refine h.inv (fun s hs => ?_) fun s op t _ hinv _ hstep => step_inv hinv hstep
  obtain rfl : s = State.start := hs
  exact ⟨by simp [State.start, Lru.kept, Lru.latest], fun _ hx => absurd hx List.not_mem_nil, fun _ hr => absurd hr List.not_mem_nil,
    fun _ hcall => absurd hcall List.not_mem_nil⟩

/-- One query twice: after a timeout and an answer the second search has no attempts. -/
def askedTwice : List (Op ℕ) :=
  let cfg : EmbedderConfig := ⟨"http://localhost", "m", 2, "http://localhost", [], some "p"⟩
  [.search "u" "graphs".toList (.ok (some cfg)), .lookup 0, .answer 0 .timeout, .answer 0 (.data [⟨0, [4, 7]⟩]), .clear 0,
    .put 0, .search "w" "graphs".toList (.ok (some cfg)), .lookup 1]

end
end Kajet.Search
