import Kajet.OAuth.Effect

/-!
# Refresh-token families

A revocation reads the family, and deletes it in a later transaction, where the access tokens are
found through the refresh tokens that are still stored.  An expiry sweep between the two takes the
refresh tokens and leaves the access token, which then survives its revocation.

* `Families`            what is to hold in every committed state;
* `Spares`              no sweep strands the access token of a family that is being revoked;
* `Settled`             the invariant of the runs whose sweeps spare (`effect_settled`);
* `families_hold`       on those runs families are safe;
* `revocation_survived` the run in which a token survives.
-/

namespace Kajet.OAuth
open Table Machine

structure Families (s : State) : Prop where
  oneRefresh : ∀ r ∈ s.db.refresh, ∀ r' ∈ s.db.refresh, r.familyId = r'.familyId →
    r.consumedAt = none → r'.consumedAt = none → r = r'
  oneAccess : ∀ a ∈ s.db.access, ∀ a' ∈ s.db.access,
    familyOf s.log a.token = familyOf s.log a'.token → a = a'
  names : ∀ a ∈ s.db.access, ∀ r ∈ s.db.refresh, familyOf s.log a.token = some r.familyId →
    r.consumedAt = none → a.refreshToken = some r.token
  refreshGrant : ∀ r ∈ s.db.refresh,
    ∃ c, Grant s.log r.familyId c ∧ Carries c r.clientId r.userId r.scopes
  accessGrant : ∀ a ∈ s.db.access, ∃ f c, familyOf s.log a.token = some f ∧ Grant s.log f c ∧
    Carries c a.clientId a.userId a.scopes
  oneGrant : ∀ f c c', Grant s.log f c → Grant s.log f c' → c = c'
  oneFamily : ∀ f f' c c', Grant s.log f c → Grant s.log f' c' → c.code = c'.code → f = f'
  narrows : ∀ later earlier token p, s.log = later ++ .minted (.refresh token) p :: earlier →
    ∃ q ∈ pairs earlier, q.refreshToken = token ∧ Parent q p
  revoked : ∀ f, .revoked f ∈ s.log → (∀ r ∈ s.db.refresh, r.familyId ≠ f) ∧
    ∀ a ∈ s.db.access, familyOf s.log a.token ≠ some f

/-- The revocation is about the family of `r`, and does not name the access token itself. -/
def Call.revokes (db : Db) (r : RefreshToken) (a : AccessToken) : Call → Prop
  | .revokeFamily f => r.familyId = f
  | .revokeByAccessRefresh token refreshToken =>
      (∃ x ∈ db.refresh, x.token = refreshToken ∧ x.familyId = r.familyId) ∧ a.token ≠ token
  | _ => False

instance (db : Db) (r : RefreshToken) (a : AccessToken) : (call : Call) → Decidable (call.revokes db r a)
  | .revokeFamily _ => inferInstanceAs (Decidable (_ = _))
  | .revokeByAccessRefresh .. => inferInstanceAs (Decidable ((∃ x ∈ _, _) ∧ _))
  | .exchangeCode .. | .issueTokenPair .. | .exchangeRefresh .. => isFalse id
  | .deleteCode _ | .dropAccess _ | .revokeByRefresh _ => isFalse id
  | .revokeByAccess _ | .revokeAccess _ => isFalse id

/-- A sweep that takes a refresh token takes the access token that names it as well, when a revocation
of the family is on its way. -/
def Spares (s : State) : Op → Prop
  | .deleteExpiredTokens now => ∀ call ∈ s.calls, ∀ r ∈ s.db.refresh, ∀ a ∈ s.db.access,
      a.refreshToken = some r.token → call.revokes s.db r a → sweptAt now r.expiresAt = true →
        sweptAt now a.expiresAt = true
  | _ => True

instance (s : State) : (op : Op) → Decidable (Spares s op)
  | .deleteExpiredTokens _ => inferInstanceAs (Decidable (∀ call ∈ _, ∀ r ∈ _, ∀ a ∈ _, _ → _ → _ → _))
  | .completeAuthorization .. | .loadAuthorizationCode .. | .loadRefreshToken .. => isTrue trivial
  | .loadAccessToken .. | .revokeAccessToken _ | .revokeRefreshToken _ | .run _ => isTrue trivial
  | .issueTokenPair .. | .exchangeRefresh .. | .abandon _ => isTrue trivial
  | .deleteCredentialsByUser _ => isTrue trivial

/-! ## revocations on their way -/

/-- No access token of the family is stored, except one. -/
def AccessOnly (s : State) (f : String) (except : Option String) : Prop :=
  ∀ p ∈ pairs s.log, p.familyId = f → p.access ∈ s.db.access → some p.accessToken = except

def Safe (s : State) (f : String) (except : Option String) : Prop :=
  Alive s.db f ∨ AccessOnly s f except

structure Settled (s : State) : Prop where
  revoked : ∀ f, .revoked f ∈ s.log →
    (∃ p ∈ pairs s.log, p.familyId = f) ∧ ¬ Alive s.db f ∧ AccessOnly s f none
  family : ∀ f, .revokeFamily f ∈ s.calls → Safe s f none
  byAccess : ∀ token refreshToken, .revokeByAccessRefresh token refreshToken ∈ s.calls →
    ∀ p ∈ pairs s.log, p.accessToken = token → Safe s p.familyId (some token)
  access : ∀ token, .revokeAccess token ∈ s.calls →
    ∀ p ∈ pairs s.log, p.accessToken = token → AccessOnly s p.familyId (some token)

section
variable {accessExpirySeconds : ℕ} {s t : State} {op : Op} {f : String} {except : Option String}
  {p pair : OAuthTokenPair} {r : RefreshToken} {src : Source}

theorem AccessOnly.weaken (h : AccessOnly s f none) : AccessOnly s f except := fun p hp hf ha =>
  absurd (h p hp hf ha) (Option.some_ne_none _)

theorem AccessOnly.mono (h : AccessOnly s f except) (hpairs : pairs t.log = pairs s.log)
    (haccess : t.db.access ⊆ s.db.access) : AccessOnly t f except := by
  intro p hp hf ha
  rw [hpairs] at hp
  exact h p hp hf (haccess ha)

namespace Inv
variable (h : Inv s)
include h

/-- The pair of a stored refresh token. -/
theorem refresh_pair (hp : p ∈ pairs s.log) (hr : r ∈ s.db.refresh) (htoken : r.token = p.refreshToken) :
    r.familyId = p.familyId := by
  obtain ⟨q, hq, hrq⟩ := h.rows.refresh r hr
  obtain rfl := h.hist.eq_of_refresh hq hp (by rw [← htoken, hrq]; rfl)
  rw [hrq]
  rfl

/-- In a family that is alive every access token names a stored refresh token. -/
theorem covered (hp : p ∈ pairs s.log) (halive : Alive s.db p.familyId) :
    ∃ r ∈ s.db.refresh, r.token = p.refreshToken ∧ r.familyId = p.familyId := by
  obtain ⟨r, hr, htoken⟩ := h.rows.whole p hp halive
  exact ⟨r, hr, htoken, h.refresh_pair hp hr htoken⟩

theorem owner (hp : p ∈ pairs s.log) (hr : r ∈ s.db.refresh) (hf : r.familyId = p.familyId) :
    r.userId = some p.userId := by
  obtain ⟨x, hx, hxp, hxf⟩ := h.covered hp ⟨r, hr, hf⟩
  obtain ⟨q, hq, hxq⟩ := h.rows.refresh x hx
  obtain rfl := h.hist.eq_of_refresh hq hp (by rw [← hxp, hxq]; rfl)
  rw [(h.rows.same h.hist.founded hr hx (hf.trans hxf.symm)).1, hxq]
  rfl

/-- The stored access tokens of a family are those of its latest pair. -/
theorem access_eq {q : OAuthTokenPair} (hp : p ∈ pairs s.log) (hq : q ∈ pairs s.log)
    (hpa : p.access ∈ s.db.access) (hqa : q.access ∈ s.db.access) (hf : p.familyId = q.familyId) :
    p = q := by
  have hp' := (h.rows.latest_access hp h.hist.access hpa rfl).1
  have hq' := (h.rows.latest_access hq h.hist.access hqa rfl).1
  rw [hf, hq'] at hp'
  exact (Option.some.inj hp').symm

theorem deleteFamily_accessOnly (halive : Alive s.db f) (hpairs : pairs t.log = pairs s.log)
    (hdb : t.db = s.db.deleteFamily f) : AccessOnly t f except := by
  intro p hp hf ha
  rw [hpairs] at hp
  rw [hdb] at ha
  obtain ⟨_, hout⟩ := mem_deleteWhere.mp ha
  obtain ⟨r, hr, htoken, hrf⟩ := h.covered hp (hf ▸ halive)
  have hin : s.db.inFamily f p.access = true :=
    List.any_eq_true.mpr ⟨r, hr, decide_eq_true ⟨hrf.trans hf, by rw [htoken]; rfl⟩⟩
  rw [hin] at hout
  cases hout

theorem familyOf_iff {token : String} : familyOf s.log token = some f ↔
    ∃ p ∈ pairs s.log, p.accessToken = token ∧ p.familyId = f := by
  rw [familyOf, Option.map_eq_some_iff]
  simp only [(keyed_iff_nodup.mpr h.hist.access).row_eq, and_assoc]

end Inv
/-! ## the steps -/

namespace Settled
variable (h : Settled s)
include h

/-- The steps that do not mint: families that are being revoked are kept alive, or lose their access
tokens. -/
theorem shrink (hpairs : pairs t.log = pairs s.log) (haccess : t.db.access ⊆ s.db.access)
    (halive : ∀ f, Alive t.db f → Alive s.db f)
    (hrevoked : ∀ f, .revoked f ∈ t.log → .revoked f ∈ s.log ∨
      (∃ p ∈ pairs s.log, p.familyId = f) ∧ ¬ Alive t.db f ∧ AccessOnly t f none)
    (hcalls : t.calls ⊆ s.calls)
    (hfamily : ∀ f, .revokeFamily f ∈ s.calls → Alive s.db f → Safe t f none)
    (hby : ∀ token refreshToken, .revokeByAccessRefresh token refreshToken ∈ s.calls →
      ∀ p ∈ pairs s.log, p.accessToken = token → Alive s.db p.familyId →
        Safe t p.familyId (some token)) : Settled t := by
  constructor
  · intro f hf
    rw [hpairs]
    rcases hrevoked f hf with hf | hf
    · obtain ⟨hp, hdead, honly⟩ := h.revoked f hf
      exact ⟨hp, fun ha => hdead (halive f ha), honly.mono hpairs haccess⟩
    · exact hf
  · intro f hf
    rcases h.family f (hcalls hf) with ha | honly
    · exact hfamily f (hcalls hf) ha
    · exact .inr (honly.mono hpairs haccess)
  · intro token refreshToken hcall p hp htoken
    rw [hpairs] at hp
    rcases h.byAccess token refreshToken (hcalls hcall) p hp htoken with ha | honly
    · exact hby token refreshToken (hcalls hcall) p hp htoken ha
    · exact .inr (honly.mono hpairs haccess)
  · intro token hcall p hp htoken
    rw [hpairs] at hp
    exact (h.access token (hcalls hcall) p hp htoken).mono hpairs haccess

/-- Every family stays alive or loses its access tokens. -/
theorem keep (hpairs : pairs t.log = pairs s.log) (haccess : t.db.access ⊆ s.db.access)
    (halive : ∀ f, Alive t.db f → Alive s.db f)
    (hrevoked : ∀ f, .revoked f ∈ t.log → .revoked f ∈ s.log ∨
      (∃ p ∈ pairs s.log, p.familyId = f) ∧ ¬ Alive t.db f ∧ AccessOnly t f none)
    (hcalls : t.calls ⊆ s.calls) (hkeep : ∀ f, Alive s.db f → Safe t f none) : Settled t :=
  h.shrink hpairs haccess halive hrevoked hcalls (fun f _ => hkeep f) fun _ _ _ p _ _ ha =>
    (hkeep p.familyId ha).imp id AccessOnly.weaken

/-- A read leads to a call about what it has seen. -/
theorem read (hinv : Inv s) {cs : List Call} {call : Option Call} (hcs : cs.Sublist s.calls)
    (hcall : ∀ x ∈ call, Follows s x) : Settled { s with calls := call.toList ++ cs } := by
  have hmem : ∀ {x}, x ∈ call.toList ++ cs → Follows s x ∨ x ∈ s.calls := by
    intro x hx
    rcases List.mem_append.mp hx with hx | hx
    · exact .inl (hcall x (Option.mem_toList.mp hx))
    · exact .inr (hcs.subset hx)
  constructor
  · exact h.revoked
  · intro f hf
    rcases hmem hf with hf | hf
    · exact .inl hf
    · exact h.family f hf
  · intro token refreshToken hx p hp htoken
    rcases hmem hx with ⟨a, ha, hat, _⟩ | hx
    · obtain ⟨_, rfl⟩ := hinv.rows.latest_access hp hinv.hist.access ha (hat.trans htoken.symm)
      refine .inr fun q hq hqf hqa => ?_
      rw [hinv.access_eq hq hp hqa ha hqf, htoken]
    · exact h.byAccess token refreshToken hx p hp htoken
  · intro token hx p hp htoken
    rcases hmem hx with hnew | hx
    · obtain ⟨q, hq, hqt, hdead⟩ := hinv.follows_ok hnew
      obtain rfl := hinv.hist.eq_of_access hp hq (htoken.trans hqt.symm)
      rcases hnew with ⟨a, ha, _, hnone⟩ | ⟨refreshToken, hx, _⟩
      · obtain ⟨_, _, rfl⟩ := hinv.rows.access a ha
        cases hnone
      · exact (h.byAccess token refreshToken hx p hp htoken).resolve_left hdead
    · exact h.access token hx p hp htoken

/-- A pair is minted in a family that no revocation has ended. -/
theorem mint (hinv : Inv s) (hinv' : Inv t) (hlog : t.log = .minted src pair :: s.log)
    (halive : ∀ f, Alive s.db f → Alive t.db f) (hpair : Alive t.db pair.familyId)
    (hdead : ∀ f, f ≠ pair.familyId → Alive t.db f → Alive s.db f)
    (haccess : ∀ a ∈ t.db.access, a = pair.access ∨ a ∈ s.db.access)
    (hfamily : ∀ p ∈ pairs s.log, ¬ Alive s.db p.familyId → p.familyId ≠ pair.familyId)
    (hcalls : t.calls ⊆ s.calls) : Settled t := by
  have hpairs : pairs t.log = pair :: pairs s.log := by rw [hlog, pairs_minted]
  have honly : ∀ {f except}, f ≠ pair.familyId → AccessOnly s f except → AccessOnly t f except := by
    intro f except hf h p hp hpf hpa
    rw [hpairs] at hp
    rcases List.mem_cons.mp hp with rfl | hp
    · exact absurd hpf.symm hf
    · rcases haccess _ hpa with heq | hpa
      · have hpp := hinv'.hist.eq_of_access (p := p) (q := pair)
          (hpairs ▸ List.mem_cons_of_mem _ hp) (hpairs ▸ List.mem_cons_self)
          (congrArg AccessToken.token heq)
        exact absurd (hpp ▸ hpf.symm) hf
      · exact h p hp hpf hpa
  have hsafe : ∀ {f except}, Safe s f except → Safe t f except := by
    intro f except h
    by_cases hf : f = pair.familyId
    · exact .inl (hf ▸ hpair)
    · exact h.imp (halive f) (honly hf)
  have hold : ∀ {p q}, p ∈ pairs t.log → q ∈ pairs s.log → p.accessToken = q.accessToken → p = q := by
    intro p q hp hq heq
    exact hinv'.hist.eq_of_access hp (hpairs ▸ List.mem_cons_of_mem _ hq) heq
  constructor
  · intro f hf
    rw [hlog] at hf
    obtain ⟨⟨p, hp, rfl⟩, hgone, hnone⟩ := h.revoked f ((List.mem_cons.mp hf).resolve_left nofun)
    have hne := hfamily p hp hgone
    exact ⟨⟨p, hpairs ▸ List.mem_cons_of_mem _ hp, rfl⟩, fun ha => hgone (hdead _ hne ha),
      honly hne hnone⟩
  · exact fun f hf => hsafe (h.family f (hcalls hf))
  · intro token refreshToken hcall p hp htoken
    obtain ⟨q, hq, hqt, _⟩ := hinv.calls _ (hcalls hcall)
    obtain rfl := hold hp hq (htoken.trans hqt.symm)
    exact hsafe (h.byAccess token refreshToken (hcalls hcall) p hq htoken)
  · intro token hcall p hp htoken
    obtain ⟨q, hq, hqt, hgone⟩ := hinv.calls _ (hcalls hcall)
    obtain rfl := hold hp hq (htoken.trans hqt.symm)
    exact honly (hfamily p hq hgone) (h.access token (hcalls hcall) p hq htoken)

end Settled

theorem alive_deleteFamily {db : Db} {f g : String} (h : Alive db g) (hne : g ≠ f) :
    Alive (db.deleteFamily f) g := by
  obtain ⟨r, hr, rfl⟩ := h
  exact ⟨r, mem_deleteWhere.mpr ⟨hr, decide_eq_false hne⟩, rfl⟩

/-- The family is deleted while it is alive, or has no access tokens any more. -/
theorem revokeFamily_settled (h : Settled s) (hinv : Inv s) {cs : List Call} (hcs : cs.Sublist s.calls)
    (hcall : .revokeFamily f ∈ s.calls ∨ Alive s.db f) :
    Settled { s with db := s.db.deleteFamily f, calls := cs, log := .revoked f :: s.log } := by
  have hshrinks := deleteFamily_shrinks s.db f
  have hpairs : pairs (.revoked f :: s.log) = pairs s.log := rfl
  refine h.keep hpairs hshrinks.access (fun _ => hshrinks.alive) ?_ hcs.subset ?_
  · intro g hg
    rcases List.mem_cons.mp hg with heq | hg
    · cases heq
      refine .inr ⟨?_, ?_, ?_⟩
      · rcases hcall with hcall | halive
        · exact hinv.calls _ hcall
        · exact hinv.follows_ok (show Follows s (.revokeFamily f) from halive)
      · rintro ⟨r, hr, hf⟩
        exact of_decide_eq_false (mem_deleteWhere.mp hr).2 hf
      · by_cases halive : Alive s.db f
        · exact hinv.deleteFamily_accessOnly halive hpairs rfl
        · have honly := (h.family f (hcall.resolve_right halive)).resolve_left halive
          exact honly.mono hpairs hshrinks.access
    · exact .inl hg
  · intro g halive
    by_cases hgf : g = f
    · exact .inr (hinv.deleteFamily_accessOnly halive hpairs (hgf ▸ rfl))
    · exact .inl (alive_deleteFamily halive hgf)

/-- The refresh tokens of the family are gone, and its only access token goes. -/
theorem revokeAccess_settled (h : Settled s) (hinv : Inv s) {cs : List Call} {token : String}
    (hcs : cs.Sublist s.calls) (hcall : .revokeAccess token ∈ s.calls) : Settled { s with
      db := s.db.deleteAccessToken token
      calls := cs
      log := ((familyOf s.log token).map Happened.revoked).toList ++ s.log } := by
  have hmarks : ∀ e ∈ ((familyOf s.log token).map Happened.revoked).toList, e.isMark = true := by
    intro e he
    obtain ⟨f, _, rfl⟩ := Option.map_eq_some_iff.mp (Option.mem_toList.mp he)
    rfl
  have hshrinks := deleteAccessToken_shrinks s.db token
  refine h.keep (marks_pairs hmarks) hshrinks.access (fun _ => hshrinks.alive) ?_ hcs.subset
    fun _ ha => .inl ha
  intro f hf
  rcases List.mem_append.mp hf with hf | hf
  · obtain ⟨g, hg, heq⟩ := Option.map_eq_some_iff.mp (Option.mem_toList.mp hf)
    cases heq
    obtain ⟨p, hp, htoken, rfl⟩ := hinv.familyOf_iff.mp hg
    obtain ⟨q, hq, hqt, hdead⟩ := hinv.calls _ hcall
    obtain rfl := hinv.hist.eq_of_access hp hq (htoken.trans hqt.symm)
    refine .inr ⟨⟨p, hp, rfl⟩, hdead, fun x hx hxf hxa => ?_⟩
    rw [marks_pairs hmarks] at hx
    obtain ⟨hxa, hne⟩ := mem_deleteWhere.mp hxa
    exact absurd (Option.some.inj (h.access token hcall p hp htoken x hx hxf hxa))
      (of_decide_eq_false hne)
  · exact .inl hf

theorem wipe_settled (h : Settled s) (hinv : Inv s) {userId : String} : Settled { s with
    db := s.db.deleteCredentialsByUser userId, log := .wiped userId :: s.log } := by
  have hshrinks := hinv.rows.deleteCredentialsByUser hinv.hist.founded userId
  refine h.keep rfl hshrinks.access (fun _ => hshrinks.alive) ?_ (fun _ hx => hx) ?_
  · exact fun f hf => .inl ((List.mem_cons.mp hf).resolve_left nofun)
  · rintro f ⟨r, hr, rfl⟩
    by_cases huser : r.userId = some userId
    · refine .inr fun p hp hf ha => ?_
      have howner := hinv.owner hp hr hf.symm
      exact absurd (howner.symm.trans huser) (of_decide_eq_false (mem_deleteWhere.mp ha).2)
    · exact .inl ⟨r, mem_deleteWhere.mpr ⟨hr, decide_eq_false huser⟩, rfl⟩

/-- A sweep that spares: a family on its way to be revoked stays alive, or its access token goes. -/
theorem sweep_settled (h : Settled s) (hinv : Inv s) {now : ℕ}
    (hspares : Spares s (.deleteExpiredTokens now)) :
    Settled { s with db := s.db.deleteExpiredTokens now } := by
  have hshrinks := hinv.rows.deleteExpiredTokens hinv.hist.founded now
  -- the refresh tokens of a family are swept together
  have hswept : ∀ p ∈ pairs s.log, Alive s.db p.familyId →
      ¬ Alive (s.db.deleteExpiredTokens now) p.familyId →
      ∃ r ∈ s.db.refresh, r.token = p.refreshToken ∧ r.familyId = p.familyId ∧
        sweptAt now r.expiresAt = true := by
    intro p hp halive hgone
    obtain ⟨r, hr, htoken, hf⟩ := hinv.covered hp halive
    refine ⟨r, hr, htoken, hf, ?_⟩
    by_contra hlive
    exact hgone ⟨r, mem_deleteWhere.mpr ⟨hr, Bool.eq_false_iff.mpr hlive⟩, hf⟩
  have hgone : ∀ call ∈ s.calls, ∀ r ∈ s.db.refresh, ∀ a ∈ s.db.access, a.refreshToken = some r.token →
      call.revokes s.db r a → sweptAt now r.expiresAt = true →
        a ∉ (s.db.deleteExpiredTokens now).access := by
    intro call hcall r hr a ha hname hrevokes hsweep hmem
    have hout := (mem_deleteWhere.mp hmem).2
    rw [hspares call hcall r hr a ha hname hrevokes hsweep] at hout
    cases hout
  refine h.shrink rfl hshrinks.access (fun _ => hshrinks.alive) (fun f hf => .inl hf) (fun _ hx => hx)
    ?_ ?_
  · intro f hcall halive
    by_cases halive' : Alive (s.db.deleteExpiredTokens now) f
    · exact .inl halive'
    · refine .inr fun p hp hf ha => ?_
      subst hf
      obtain ⟨r, hr, htoken, hrf, hsweep⟩ := hswept p hp halive halive'
      exact absurd ha (hgone _ hcall r hr p.access (hshrinks.access ha) (congrArg some htoken.symm) hrf
        hsweep)
  · intro token refreshToken hcall p hp htoken halive
    by_cases halive' : Alive (s.db.deleteExpiredTokens now) p.familyId
    · exact .inl halive'
    · refine .inr fun q hq hf ha => ?_
      by_contra hne
      rw [← hf] at halive halive'
      obtain ⟨r, hr, hrt, hrf, hsweep⟩ := hswept q hq halive halive'
      obtain ⟨p', hp', hpt, hpr⟩ := hinv.calls _ hcall
      obtain rfl := hinv.hist.eq_of_access hp hp' (htoken.trans hpt.symm)
      obtain ⟨x, hx, hxt, hxf⟩ := hinv.covered hp (hf ▸ halive)
      refine hgone _ hcall r hr q.access (hshrinks.access ha) (congrArg some hrt.symm)
        ⟨⟨x, hx, hxt.trans hpr, ?_⟩, fun heq => hne (congrArg some heq)⟩ hsweep ha
      rw [hxf, hrf, hf]

theorem effect_settled (h : Settled s) (hinv : Inv s) (hspares : Spares s op)
    (he : Effect accessExpirySeconds s op t) : Settled t := by
  have hinv' := effect_inv hinv he
  cases he with
  | read hcs hcall => exact h.read hinv hcs hcall
  | issue hfresh =>
    refine h.keep rfl (fun _ ha => ha) (fun _ ha => ha) ?_ (fun _ hx => hx) fun _ ha => .inl ha
    exact fun f hf => .inl ((List.mem_cons.mp hf).resolve_left nofun)
  | exchange hcs _ _ _ =>
    refine ⟨h.revoked, fun f hf => h.family f ?_,
      fun token refreshToken hx => h.byAccess token refreshToken ?_, fun token hx => h.access token ?_⟩
    · exact hcs.subset ((List.mem_cons.mp hf).resolve_left nofun)
    · exact hcs.subset ((List.mem_cons.mp hx).resolve_left nofun)
    · exact hcs.subset ((List.mem_cons.mp hx).resolve_left nofun)
  | deleteCode hcs =>
    exact h.keep rfl (fun _ ha => ha) (fun _ ha => ha) (fun f hf => .inl hf) hcs.subset
      fun _ ha => .inl ha
  | dropAccess hcs =>
    exact h.keep rfl (deleteAccessToken_shrinks _ _).access (fun _ ha => ha) (fun f hf => .inl hf)
      hcs.subset fun _ ha => .inl ha
  | revokeFamily hcs hcall => exact revokeFamily_settled h hinv hcs hcall
  | revokeAccess hcs hcall => exact revokeAccess_settled h hinv hcs hcall
  | first hcs hdrawn hpair =>
    refine h.mint hinv hinv' rfl ?_ ⟨_, List.mem_cons_self, rfl⟩ ?_ (fun a => List.mem_cons.mp) ?_ ?_
    · rintro f ⟨r, hr, hf⟩
      exact ⟨r, List.mem_cons_of_mem _ hr, hf⟩
    · rintro f hne ⟨r, hr, hf⟩
      rcases List.mem_cons.mp hr with rfl | hr
      · exact absurd hf.symm hne
      · exact ⟨r, hr, hf⟩
    · intro p hp _
      exact hinv'.hist.founded.1.2.2 p hp
    · exact fun x hx => hcs.mem_iff.mpr (List.mem_cons_of_mem _ hx)
  | rotate hcs hcall hscopes hdrawn hpair hclaim hf =>
    obtain ⟨hr, _⟩ := claimable_some hclaim
    refine h.mint hinv hinv' rfl ?_ ⟨_, List.mem_cons_self, rfl⟩ ?_ ?_ ?_ hcs.subset
    · rintro f ⟨x, hx, hxf⟩
      refine ⟨_, List.mem_cons_of_mem _ (List.mem_map_of_mem hx), ?_⟩
      split <;> exact hxf
    · rintro f hne ⟨x, hx, hxf⟩
      rcases List.mem_cons.mp hx with rfl | hx
      · exact absurd hxf.symm hne
      · rcases mem_updateWhere.mp hx with ⟨y, hy, _, rfl⟩ | ⟨hx, _⟩
        · exact ⟨y, hy, hxf⟩
        · exact ⟨x, hx, hxf⟩
    · intro a ha
      exact (List.mem_cons.mp ha).imp id fun ha => (mem_deleteWhere.mp ha).1
    · exact fun p _ hdead heq => hdead (heq ▸ ⟨_, hr, hf⟩)
  | wipe => exact wipe_settled h hinv
  | sweep => exact sweep_settled h hinv hspares

theorem empty_settled : Settled State.empty := by
  refine ⟨fun _ hf => ?_, fun _ hf => ?_, fun _ _ hx => ?_, fun _ hx => ?_⟩
  · cases hf
  · cases hf
  · cases hx
  · cases hx

theorem Inv.families (hinv : Inv s) (h : Settled s) : Families s := by
  have hof : ∀ a ∈ s.db.access, ∃ p, latest (pairs s.log) p.familyId = some p ∧ a = p.access ∧
      familyOf s.log a.token = some p.familyId := by
    intro a ha
    obtain ⟨p, hp, rfl⟩ := hinv.rows.access a ha
    exact ⟨p, hp, rfl, hinv.familyOf_iff.mpr ⟨p, (latest_some hp).1, rfl, rfl⟩⟩
  constructor
  · intro r hr r' hr' hf hc hc'
    obtain ⟨p, hp, hptoken⟩ := hinv.rows.current r hr hc
    obtain ⟨p', hp', hptoken'⟩ := hinv.rows.current r' hr' hc'
    rw [hf, hp'] at hp
    cases hp
    obtain ⟨q, hq, hrq⟩ := hinv.rows.refresh r hr
    obtain ⟨q', hq', hrq'⟩ := hinv.rows.refresh r' hr'
    have htoken : r.token = r'.token := hptoken.symm.trans hptoken'
    obtain rfl := hinv.hist.eq_of_refresh hq hq' (by rw [hrq, hrq'] at htoken; exact htoken)
    rw [hrq, hrq', hc, hc']
  · intro a ha a' ha' heq
    obtain ⟨p, hp, rfl, hpf⟩ := hof a ha
    obtain ⟨q, hq, rfl, hqf⟩ := hof a' ha'
    rw [hpf, hqf] at heq
    rw [Option.some.inj heq, hq] at hp
    exact congrArg OAuthTokenPair.access (Option.some.inj hp).symm
  · intro a ha r hr hf hc
    obtain ⟨p, hp, rfl, hpf⟩ := hof a ha
    obtain ⟨q, hq, hqtoken⟩ := hinv.rows.current r hr hc
    rw [hpf] at hf
    rw [← Option.some.inj hf, hp] at hq
    cases hq
    exact congrArg some hqtoken
  · intro r hr
    obtain ⟨p, hp, hrp⟩ := hinv.rows.refresh r hr
    rw [hrp]
    exact hinv.hist.founded.grant hp
  · intro a ha
    obtain ⟨p, hp, rfl, hpf⟩ := hof a ha
    obtain ⟨c, hgrant, hcarries⟩ := hinv.hist.founded.grant (latest_some hp).1
    exact ⟨p.familyId, c, hpf, hgrant, hcarries⟩
  · exact fun f c c' => hinv.hist.founded.oneGrant
  · rintro f f' c c' ⟨_, p, hp, rfl⟩ ⟨_, p', hp', rfl⟩ hcode
    have hunique : UniqueOn Happened.spentCode? s.log :=
      hinv.spent.sublist ((List.sublist_append_left ..).trans (List.sublist_append_left ..))
    have heq := hunique.eq hp hp' (k := c.code) rfl (congrArg some hcode.symm)
    injection heq with _ hpair
    rw [hpair]
  · exact fun later earlier token p hlog => hinv.hist.founded.minted hlog
  · intro f hf
    obtain ⟨_, hdead, honly⟩ := h.revoked f hf
    refine ⟨fun r hr hrf => hdead ⟨r, hr, hrf⟩, fun a ha haf => ?_⟩
    obtain ⟨p, hp, rfl, hpf⟩ := hof a ha
    rw [hpf] at haf
    exact absurd (honly p (latest_some hp).1 (Option.some.inj haf) ha) (Option.some_ne_none _)

theorem reach_settled (h : (oauth accessExpirySeconds).Reach Spares s) : Inv s ∧ Settled s :=
  h.inv (P := fun s => Inv s ∧ Settled s)
    (fun s (hs : s = State.empty) => hs ▸ ⟨empty_inv, empty_settled⟩)
    fun _ _ _ _ h hspares hstep =>
      ⟨effect_inv h.1 (step_effect hstep), effect_settled h.2 h.1 hspares (step_effect hstep)⟩

theorem families_hold (h : (oauth accessExpirySeconds).Reach Spares s) : Families s :=
  (reach_inv h).families (reach_settled h).2

end

/-! ## a family near its expiry -/

/-- The refresh tokens of the family expire at 2592000, the access token of its second pair an hour
after 2591990. -/
def rotated : List Op :=
  [.completeAuthorization "c" "client" (some "u") ["read"] 300,
    .loadAuthorizationCode "client" "c" 0, .run 0, .issueTokenPair 0 "a1" "r1" "f" 0,
    .loadRefreshToken "client" "r1" 2591990, .exchangeRefresh 0 ["read"] "a2" "r2" 2591990]

/-- The client revokes its refresh token. -/
def revoking : List Op := rotated ++ [.revokeRefreshToken "r2", .run 0]

theorem families_hold_revoked : ∃ s, Families s ∧ .revoked "f" ∈ s.log := by
  obtain ⟨s, hs, hlog⟩ := Option.map_eq_some_iff.mp (show ((oauth 3600).exec State.empty
    (revoking ++ [.run 0, .deleteExpiredTokens 2592000])).map
      (fun s => decide (.revoked "f" ∈ s.log)) = some true by decide +kernel)
  exact ⟨s, families_hold (.of_guarded (.start rfl) (by decide +kernel) hs), of_decide_eq_true hlog⟩

/-- The sweep comes between the read and the delete of the revocation: the access token is valid for
another hour. -/
theorem revocation_survived : ∃ s, (oauth 3600).Reach free s ∧ .revoked "f" ∈ s.log ∧
    (∃ a ∈ s.db.access, familyOf s.log a.token = some "f" ∧
      tokenExpired a.expiresAt 2595590 = false) ∧ ¬ Families s := by
  obtain ⟨s, hs, hsurvived⟩ := Option.map_eq_some_iff.mp (show ((oauth 3600).exec State.empty
    (revoking ++ [.deleteExpiredTokens 2592000, .run 0])).map
      (fun s => decide (.revoked "f" ∈ s.log ∧ ∃ a ∈ s.db.access,
        familyOf s.log a.token = some "f" ∧ tokenExpired a.expiresAt 2595590 = false)) = some true by
      decide +kernel)
  obtain ⟨hlog, a, ha, hfamily, hvalid⟩ := of_decide_eq_true hsurvived
  exact ⟨s, .of_exec (.start rfl) hs, hlog, ⟨a, ha, hfamily, hvalid⟩, fun h =>
    (h.revoked "f" hlog).2 a ha hfamily⟩

end Kajet.OAuth
