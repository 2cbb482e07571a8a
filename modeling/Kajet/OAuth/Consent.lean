import Kajet.OAuth.Wipe
import Kajet.Search.Execute

/-!
# Who a bearer token stands for

A client asks for an authorization, a user with a session consents to it, and the consent becomes an
authorization code in several transactions; tokens are minted from codes and from one another.

* `Request`, `Consent`, `State`, `Op`, `provider`   the pending authorizations and the consents on top of the
                       machine of the tokens;
* `resolveBearerUserId`   the user of a token, without side effects;
* `step_codes`         only a completed consent issues a code;
* `bearer_identity`    a token stands for a user who consented to a request of the client of the token, within the
                       scopes of the request and of the client, and for nobody else ever after.
-/

namespace Kajet.OAuth.Provider
open Str Table Machine
open Search (words)

structure Client where
  clientId : Option String
  scope : Option Text
deriving DecidableEq

/-- `AuthorizationParams` -/
structure Params where
  scopes : Option (List String)
deriving DecidableEq

/-- A row of the pending authorizations. -/
structure Request where
  pendingId : String
  client : Client
  params : Params
  expiresAt : ℚ
deriving DecidableEq

structure Consent where
  request : Request
  userId : String
deriving DecidableEq

/-- The scopes that were asked for, of those that the client is registered with. -/
def Request.scopes (r : Request) : List String :=
  let asked := r.params.scopes.getD []
  match r.client.scope with
  | none | some [] => asked
  | some scope => asked.filter fun s => s.toList ∈ words scope

/-- `complete_authorization` between its transactions. -/
inductive Completing where
  | found (k : Consent)
  | deleted (k : Consent) (clientId : String)
deriving DecidableEq

structure State where
  tokens : OAuth.State
  pending : List Request
  completing : List Completing
  /-- what clients have asked for, and what users have consented to -/
  requests : List Request
  consents : List Consent
deriving DecidableEq

inductive Op where
  | tokens (op : OAuth.Op)
  | authorize (r : Request)
  /-- `get_pending` for a user with a session -/
  | consent (pendingId userId : String) (now : ℚ)
  | deletePending (k : ℕ)
  | issueCode (k : ℕ) (code : String) (expiresAt : ℚ)
  /-- the call ends before its next transaction -/
  | abandon (k : ℕ)

/-- The sweep takes the pending authorizations as well. -/
def swept (pending : List Request) : OAuth.Op → List Request
  | .deleteExpiredTokens now => deleteWhere (fun r => r.expiresAt ≤ (now : ℚ)) pending
  | _ => pending

section
variable (accessExpirySeconds : ℕ)

def step (s : State) : Op → Option State
  | .tokens (.completeAuthorization ..) => none
  | .tokens op => (OAuth.step accessExpirySeconds s.tokens op).map fun tokens =>
      { s with tokens := tokens, pending := swept s.pending op }
  | .authorize r => some { s with
      pending := deleteWhere (fun q => q.pendingId = r.pendingId) s.pending ++ [r]
      requests := s.requests ++ [r] }
  | .consent pendingId userId now =>
    (s.pending.find? fun r => r.pendingId = pendingId ∧ now < r.expiresAt).map fun r => { s with
      completing := s.completing ++ [.found ⟨r, userId⟩]
      consents := s.consents ++ [⟨r, userId⟩] }
  | .deletePending k => match s.completing[k]? with
    | some (.found c) =>
      let s := { s with pending := deleteWhere (fun r => r.pendingId = c.request.pendingId) s.pending }
      match c.request.client.clientId with
      | none => some { s with completing := s.completing.eraseIdx k }
      | some clientId => some { s with completing := s.completing.set k (.deleted c clientId) }
    | _ => none
  | .issueCode k code expiresAt => match s.completing[k]? with
    | some (.deleted c clientId) =>
      (OAuth.step accessExpirySeconds s.tokens
        (.completeAuthorization code clientId (some c.userId) c.request.scopes expiresAt)).map fun tokens =>
          { s with tokens := tokens, completing := s.completing.eraseIdx k }
    | _ => none
  | .abandon k => some { s with completing := s.completing.eraseIdx k }

def State.empty : State := ⟨OAuth.State.empty, [], [], [], []⟩

def provider : Machine State Op where
  start s := s = .empty
  next := step accessExpirySeconds

end

/-- `resolve_bearer_user_id` -/
def resolveBearerUserId (db : Db) (token : String) (now : ℚ) : Option String :=
  if token = "" then none
  else (row AccessToken.token db.access token).bind fun a => if tokenExpired a.expiresAt now then none else a.userId

/-! ## the history of the tokens -/

section
variable {accessExpirySeconds : ℕ} {s t : OAuth.State} {op : OAuth.Op}

/-- The history goes on without a new code. -/
def Codeless (s t : OAuth.State) : Prop := ∃ new, t.log = new ++ s.log ∧ codes new = []

theorem codeless_refl (h : t.log = s.log) : Codeless s t := ⟨[], h, rfl⟩

theorem codeless_revoked {f : Option String} (h : t.log = (f.map Happened.revoked).toList ++ s.log) : Codeless s t :=
  ⟨_, h, by cases f <;> rfl⟩

theorem run_codeless {call : Call} (h : s.run call = some t) : Codeless s t := by
  cases call with
  | exchangeCode clientId c =>
    rw [← Option.some.inj h]
    exact codeless_refl rfl
  | revokeFamily f =>
    rw [← Option.some.inj h]
    exact ⟨[.revoked f], rfl, rfl⟩
  | revokeAccess token =>
    rw [← Option.some.inj h]
    exact codeless_revoked rfl
  | issueTokenPair => cases h
  | exchangeRefresh => cases h
  | _ =>
    rw [← Option.some.inj h]
    exact codeless_refl rfl

theorem rotate_codeless (s : OAuth.State) (token : String) (pair : OAuthTokenPair) (now : ℕ) :
    Codeless s (s.rotate token pair now) := by
  unfold OAuth.State.rotate
  split
  · exact codeless_refl rfl
  · exact ⟨[_], rfl, rfl⟩
  · exact codeless_refl rfl
  · refine codeless_revoked (f := (row RefreshToken.token s.db.refresh token).map (·.familyId)) ?_
    rw [Option.map_map]
    rfl

/-- Only a completed authorization issues a code. -/
theorem step_codeless (hop : ∀ code clientId userId scopes expiresAt,
      op ≠ .completeAuthorization code clientId userId scopes expiresAt)
    (h : OAuth.step accessExpirySeconds s op = some t) : Codeless s t := by
  cases op with
  | completeAuthorization code clientId userId scopes expiresAt => exact absurd rfl (hop code clientId userId scopes expiresAt)
  | run k =>
    obtain ⟨call, _, h⟩ := Option.bind_eq_some_iff.mp h
    have hrun : Codeless (s.drop k) t := run_codeless h
    exact hrun
  | issueTokenPair k accessToken refreshToken familyId now =>
    simp only [OAuth.step] at h
    split at h
    · split at h
      · rw [← Option.some.inj h]
        exact ⟨[_], rfl, rfl⟩
      · cases h
    · cases h
  | exchangeRefresh k scopes accessToken refreshToken now =>
    simp only [OAuth.step] at h
    split at h
    · split at h
      · rw [← Option.some.inj h]
        exact codeless_refl rfl
      · split at h
        · rw [← Option.some.inj h]
          exact rotate_codeless _ _ _ _
        · cases h
    · cases h
  | deleteCredentialsByUser userId =>
    rw [← Option.some.inj h]
    exact ⟨[.wiped userId], rfl, rfl⟩
  | _ =>
    rw [← Option.some.inj h]
    exact codeless_refl rfl

end

/-! ## codes and consents -/

/-- The code was issued for the consent. -/
structure Grants (k : Consent) (c : AuthCode) : Prop where
  user : c.userId = some k.userId
  client : k.request.client.clientId = some c.clientId
  scopes : c.scopes = k.request.scopes

structure ConsentInv (s : State) : Prop where
  tokens : Inv s.tokens
  pending : s.pending ⊆ s.requests
  asked : ∀ k ∈ s.consents, k.request ∈ s.requests
  completing : ∀ x ∈ s.completing, match x with
    | .found k => k ∈ s.consents
    | .deleted k clientId => k ∈ s.consents ∧ k.request.client.clientId = some clientId
  codes : ∀ c ∈ codes s.tokens.log, ∃ k ∈ s.consents, Grants k c

section
variable {accessExpirySeconds : ℕ} {s t : State} {op : Op}

theorem swept_subset (pending : List Request) (op : OAuth.Op) : swept pending op ⊆ pending := by
  unfold swept
  split
  · exact fun r hr => (mem_deleteWhere.mp hr).1
  · exact List.Subset.refl _

/-- A step of the tokens issues no code. -/
theorem step_tokens {op : OAuth.Op} (h : step accessExpirySeconds s (.tokens op) = some t) :
    ∃ tokens, OAuth.step accessExpirySeconds s.tokens op = some tokens ∧ Codeless s.tokens tokens ∧
      t = { s with tokens := tokens, pending := swept s.pending op } := by
  have hop : ∀ code clientId userId scopes expiresAt, op ≠ .completeAuthorization code clientId userId scopes expiresAt := by
    rintro code clientId userId scopes expiresAt rfl
    cases h
  have hmap : (OAuth.step accessExpirySeconds s.tokens op).map (fun tokens =>
      { s with tokens := tokens, pending := swept s.pending op }) = some t := by
    cases op with
    | completeAuthorization => cases h
    | _ => exact h
  obtain ⟨tokens, htokens, rfl⟩ := Option.map_eq_some_iff.mp hmap
  exact ⟨tokens, htokens, step_codeless hop htokens, rfl⟩

theorem ConsentInv.erase (h : ConsentInv s) (k : ℕ) : ∀ x ∈ s.completing.eraseIdx k, match x with
    | .found k => k ∈ s.consents
    | .deleted k clientId => k ∈ s.consents ∧ k.request.client.clientId = some clientId :=
  fun x hx => h.completing x (List.mem_of_mem_eraseIdx hx)

theorem step_inv (h : ConsentInv s) (hs : step accessExpirySeconds s op = some t) : ConsentInv t := by
  cases op with
  | tokens op =>
    obtain ⟨tokens, htokens, ⟨new, hlog, hcodes⟩, rfl⟩ := step_tokens hs
    refine ⟨effect_inv h.tokens (step_effect htokens), fun r hr => h.pending (swept_subset _ _ hr), h.asked, h.completing, ?_⟩
    intro c hc
    refine h.codes c ?_
    rw [hlog, codes_append, hcodes] at hc
    exact hc
  | authorize r =>
    rw [← Option.some.inj hs]
    refine ⟨h.tokens, fun q hq => ?_, fun k hk => List.mem_append_left _ (h.asked k hk), h.completing, h.codes⟩
    rcases List.mem_append.mp hq with hq | hq
    · exact List.mem_append_left _ (h.pending (mem_deleteWhere.mp hq).1)
    · exact List.mem_append_right _ hq
  | consent pendingId userId now =>
    obtain ⟨r, hr, rfl⟩ := Option.map_eq_some_iff.mp hs
    refine ⟨h.tokens, h.pending, fun k hk => ?_, fun x hx => ?_, fun c hc => ?_⟩
    · rcases List.mem_append.mp hk with hk | hk
      · exact h.asked k hk
      · rw [List.mem_singleton.mp hk]
        exact h.pending (List.mem_of_find?_eq_some hr)
    · rcases List.mem_append.mp hx with hx | hx
      · have hold := h.completing x hx
        cases x with
        | found k => exact List.mem_append_left _ hold
        | deleted k clientId => exact ⟨List.mem_append_left _ hold.1, hold.2⟩
      · rw [List.mem_singleton.mp hx]
        exact List.mem_append_right _ (List.mem_singleton_self _)
    · obtain ⟨k, hk, hgrants⟩ := h.codes c hc
      exact ⟨k, List.mem_append_left _ hk, hgrants⟩
  | deletePending k =>
    simp only [step] at hs
    split at hs
    · rename_i c hc
      have hfound := h.completing _ (List.mem_of_getElem? hc)
      have hpending : deleteWhere (fun r : Request => r.pendingId = c.request.pendingId) s.pending ⊆ s.requests :=
        fun r hr => h.pending (mem_deleteWhere.mp hr).1
      split at hs
      · rw [← Option.some.inj hs]
        exact ⟨h.tokens, hpending, h.asked, h.erase k, h.codes⟩
      · rename_i clientId hclient
        rw [← Option.some.inj hs]
        refine ⟨h.tokens, hpending, h.asked, fun x hx => ?_, h.codes⟩
        rcases List.mem_or_eq_of_mem_set hx with hx | rfl
        · exact h.completing x hx
        · exact ⟨hfound, hclient⟩
    · cases hs
  | issueCode k code expiresAt =>
    simp only [step] at hs
    split at hs
    · rename_i c clientId hc
      obtain ⟨hconsent, hclient⟩ := h.completing _ (List.mem_of_getElem? hc)
      obtain ⟨tokens, htokens, rfl⟩ := Option.map_eq_some_iff.mp hs
      refine ⟨effect_inv h.tokens (step_effect htokens), h.pending, h.asked, h.erase k, fun x hx => ?_⟩
      simp only [OAuth.step] at htokens
      split at htokens
      · cases htokens
      · rw [← Option.some.inj htokens] at hx
        rcases List.mem_cons.mp hx with rfl | hx
        · exact ⟨c, hconsent, rfl, hclient, rfl⟩
        · exact h.codes x hx
    · cases hs
  | abandon k =>
    rw [← Option.some.inj hs]
    exact ⟨h.tokens, h.pending, h.asked, h.erase k, h.codes⟩

theorem reach_consent (h : Reach (provider accessExpirySeconds) free s) : ConsentInv s := by
  refine h.inv (fun s hs => ?_) fun s op t _ hi _ hst => step_inv hi hst
  rw [show s = .empty from hs]
  exact ⟨empty_inv, List.Subset.refl _, fun _ => (nomatch ·), fun _ => (nomatch ·), fun _ => (nomatch ·)⟩

/-! ## who a token stands for -/

/-- The pair in which a resolved token was minted. -/
theorem resolve_pair (hi : Inv s.tokens) {token u : String} {now : ℚ}
    (hu : resolveBearerUserId s.tokens.db token now = some u) : ∃ a ∈ s.tokens.db.access, a.token = token ∧
      ∃ p ∈ pairs s.tokens.log, a = p.access ∧ p.userId = u := by
  unfold resolveBearerUserId at hu
  split at hu
  · cases hu
  obtain ⟨a, ha, hu⟩ := Option.bind_eq_some_iff.mp hu
  split at hu
  · cases hu
  obtain ⟨hmem, htoken⟩ := row_some ha
  obtain ⟨p, hp, rfl⟩ := hi.rows.access a hmem
  exact ⟨p.access, hmem, htoken, p, (latest_some hp).1, rfl, Option.some.inj hu⟩

/-- The pairs of the history stay. -/
theorem pairs_step (h : step accessExpirySeconds s op = some t) : pairs s.tokens.log ⊆ pairs t.tokens.log := by
  have hgrow : ∀ {tokens : OAuth.State} (new : List Happened), tokens.log = new ++ s.tokens.log →
      pairs s.tokens.log ⊆ pairs tokens.log := by
    intro tokens new hlog p hp
    rw [hlog, pairs_append]
    exact List.mem_append_right _ hp
  cases op with
  | tokens op =>
    obtain ⟨tokens, _, ⟨new, hlog, _⟩, rfl⟩ := step_tokens h
    exact hgrow _ hlog
  | issueCode k code expiresAt =>
    simp only [step] at h
    split at h
    · obtain ⟨tokens, htokens, rfl⟩ := Option.map_eq_some_iff.mp h
      simp only [OAuth.step] at htokens
      split at htokens
      · cases htokens
      · rename_i c clientId hc hfresh
        rw [← Option.some.inj htokens]
        exact hgrow [.issued _] rfl
    · cases h
  | consent pendingId userId now =>
    obtain ⟨r, _, rfl⟩ := Option.map_eq_some_iff.mp h
    exact List.Subset.refl _
  | deletePending k =>
    simp only [step] at h
    split at h
    · split at h <;> rw [← Option.some.inj h] <;> exact List.Subset.refl _
    · cases h
  | _ =>
    rw [← Option.some.inj h]
    exact List.Subset.refl _

theorem pairs_exec {ops : List Op} (h : (provider accessExpirySeconds).exec s ops = some t) :
    pairs s.tokens.log ⊆ pairs t.tokens.log :=
  exec_rel (R := fun s t : State => pairs s.tokens.log ⊆ pairs t.tokens.log) (fun _ => List.Subset.refl _)
    (fun _ _ _ hst htr => List.Subset.trans hst htr) (fun _ _ _ => pairs_step) h

theorem mem_scopes {r : Request} {x : String} (h : x ∈ r.scopes) : x ∈ r.params.scopes.getD [] ∧
    ∀ scope, r.client.scope = some scope → scope ≠ [] → x.toList ∈ words scope := by
  unfold Request.scopes at h
  dsimp only at h
  split at h
  · rename_i hnone
    exact ⟨h, fun scope hs => nomatch hnone.symm.trans hs⟩
  · rename_i hnil
    exact ⟨h, fun scope hs hne => absurd (Option.some.inj (hs.symm.trans hnil)) hne⟩
  · rename_i scope _ hscope
    obtain ⟨hasked, hin⟩ := List.mem_filter.mp h
    refine ⟨hasked, fun scope' hs _ => ?_⟩
    rw [Option.some.inj (hs.symm.trans hscope)]
    exact of_decide_eq_true hin

/-- **A token is its user's.**  A token that stands for a user was minted for a consent of that user to a request
that the client of the token made, within the scopes of the request and of the client; whatever happens later, also
when other users consent to the same client, it stands for nobody else. -/
theorem bearer_identity (h : Reach (provider accessExpirySeconds) free s) {token u : String} {now : ℚ}
    (hu : resolveBearerUserId s.tokens.db token now = some u) :
    (∃ a ∈ s.tokens.db.access, a.token = token ∧ ∃ k ∈ s.consents, k.userId = u ∧ k.request ∈ s.requests ∧
      k.request.client.clientId = some a.clientId ∧ ∀ x ∈ a.scopes, x ∈ k.request.params.scopes.getD [] ∧
        ∀ scope, k.request.client.scope = some scope → scope ≠ [] → x.toList ∈ words scope) ∧
    ∀ ops t now' u', (provider accessExpirySeconds).exec s ops = some t →
      resolveBearerUserId t.tokens.db token now' = some u' → u' = u := by
  have hi := reach_consent h
  obtain ⟨a, ha, htoken, p, hp, rfl, hpu⟩ := resolve_pair hi.tokens hu
  constructor
  · obtain ⟨c, hgrant, hcarries⟩ := hi.tokens.hist.founded.grant hp
    obtain ⟨k, hk, hgrants⟩ := hi.codes c hgrant.1
    refine ⟨p.access, ha, htoken, k, hk, ?_, hi.asked k hk, ?_, fun x hx => mem_scopes ?_⟩
    · rw [← hpu]
      exact Option.some.inj (hgrants.user.symm.trans hcarries.user.symm)
    · rw [hgrants.client, ← hcarries.client]
      rfl
    · rw [← hgrants.scopes]
      exact hcarries.scopes hx
  · intro ops t now' u' hrun hu'
    have hi' := reach_consent (h.of_exec hrun)
    obtain ⟨_, _, htoken', q, hq, rfl, hqu⟩ := resolve_pair hi'.tokens hu'
    have hsame : p = q := hi'.tokens.hist.eq_of_access (pairs_exec hrun hp) hq (htoken.trans htoken'.symm)
    rw [← hqu, ← hpu, hsame]

end

/-- Two users consent to the same client; the first has a token. -/
def twoUsers : List Op :=
  [.authorize ⟨"p1", ⟨some "client", some "read write".toList⟩, ⟨some ["read", "admin"]⟩, 600⟩,
   .authorize ⟨"p2", ⟨some "client", some "read write".toList⟩, ⟨some ["write"]⟩, 600⟩,
   .consent "p1" "alice" 10, .deletePending 0, .issueCode 0 "c1" 310,
   .tokens (.loadAuthorizationCode "client" "c1" 20), .tokens (.run 0), .tokens (.issueTokenPair 0 "a1" "r1" "f1" 20),
   .consent "p2" "bob" 30, .deletePending 0, .issueCode 0 "c2" 330]

theorem bearer_identity_twoUsers : ∃ s, (provider 3600).exec .empty twoUsers = some s ∧
    s.consents.map (·.userId) = ["alice", "bob"] ∧ ∀ ops t now u, (provider 3600).exec s ops = some t →
      resolveBearerUserId t.tokens.db "a1" now = some u → u = "alice" := by
  have hview : ((provider 3600).exec .empty twoUsers).map
      (fun s => (s.consents.map (·.userId), resolveBearerUserId s.tokens.db "a1" 40)) =
      some (["alice", "bob"], some "alice") := by decide +kernel
  obtain ⟨s, hs, hv⟩ := Option.map_eq_some_iff.mp hview
  simp only [Prod.mk.injEq] at hv
  have hreach : Reach (provider 3600) free s := .of_exec (.start rfl) hs
  exact ⟨s, hs, hv.1, (bearer_identity hreach hv.2).2⟩

end Kajet.OAuth.Provider
