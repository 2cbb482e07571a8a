import Kajet.OAuth.Family
import Mathlib.Data.List.Perm.Basic

/-!
# What one step of the provider does

* `Follows`      what a read has seen when it leads to a call;
* `Effect`       the steps by what they do to the tables, `step_effect` that there are no others;
* `Inv`          the invariant of every run: history, rows, codes used once, and what the calls in
                 flight remember (`effect_inv`).
-/

namespace Kajet.OAuth
open Table Machine

/-- The read that leads to the call. -/
def Follows (s : State) : Call → Prop
  | .exchangeCode clientId c => c ∈ s.db.codes ∧ c.clientId = clientId
  | .exchangeRefresh clientId t => ∃ r ∈ s.db.refresh, r.clientId = clientId ∧
      r.userId = some t.subject ∧ t = ⟨r.token, r.clientId, t.subject, r.scopes, r.expiresAt, r.familyId⟩
  | .revokeFamily f => Alive s.db f
  | .revokeByAccessRefresh token refreshToken =>
      ∃ a ∈ s.db.access, a.token = token ∧ a.refreshToken = some refreshToken
  | .revokeAccess token => (∃ a ∈ s.db.access, a.token = token ∧ a.refreshToken = none) ∨
      ∃ refreshToken, .revokeByAccessRefresh token refreshToken ∈ s.calls ∧
        ∀ r ∈ s.db.refresh, r.token ≠ refreshToken
  | .issueTokenPair .. => False
  | .deleteCode _ | .dropAccess _ | .revokeByRefresh _ | .revokeByAccess _ => True

section
variable (accessExpirySeconds : ℕ)

/-- `cs` are the calls that are still in flight. -/
inductive Effect (s : State) : Op → State → Prop
  | read {op : Op} {cs : List Call} {o : Option Call} (hcs : cs.Sublist s.calls)
      (hcall : ∀ x ∈ o, Follows s x) : Effect s op { s with calls := o.toList ++ cs }
  | issue {op : Op} {c : AuthCode} (hfresh : c.code ∉ s.used) : Effect s op { s with
      db := { s.db with codes := c :: s.db.codes }, used := c.code :: s.used, log := .issued c :: s.log }
  | exchange {op : Op} {cs : List Call} {clientId userId : String} {c : AuthCode}
      (hcs : cs.Sublist s.calls) (hcall : .exchangeCode clientId c ∈ s.calls)
      (hstored : ∃ x ∈ s.db.codes, x.code = c.code) (huser : c.userId = some userId) :
      Effect s op { s with
        db := (s.db.deleteAuthCode c.code).2, calls := .issueTokenPair clientId c userId :: cs }
  | deleteCode {op : Op} {cs : List Call} {code : String} (hcs : cs.Sublist s.calls) :
      Effect s op { s with db := (s.db.deleteAuthCode code).2, calls := cs }
  | dropAccess {op : Op} {cs : List Call} {token : String} (hcs : cs.Sublist s.calls) :
      Effect s op { s with db := s.db.deleteAccessToken token, calls := cs }
  | revokeFamily {op : Op} {cs : List Call} {f : String} (hcs : cs.Sublist s.calls)
      (hcall : .revokeFamily f ∈ s.calls ∨ Alive s.db f) :
      Effect s op { s with db := s.db.deleteFamily f, calls := cs, log := .revoked f :: s.log }
  | revokeAccess {op : Op} {cs : List Call} {token : String} (hcs : cs.Sublist s.calls)
      (hcall : .revokeAccess token ∈ s.calls) : Effect s op { s with
        db := s.db.deleteAccessToken token
        calls := cs
        log := ((familyOf s.log token).map Happened.revoked).toList ++ s.log }
  | first {op : Op} {cs : List Call} {clientId userId accessToken refreshToken familyId : String}
      {c : AuthCode} {now : ℕ} {pair : OAuthTokenPair}
      (hcs : s.calls.Perm (.issueTokenPair clientId c userId :: cs))
      (hdrawn : ([accessToken, refreshToken, familyId] ++ s.used).Nodup)
      (hpair : pair = firstPair accessExpirySeconds clientId c.scopes userId now accessToken refreshToken
        familyId) :
      Effect s op ({ s with calls := cs }.mint (s.db.insertPair pair) (.code c) pair
        [accessToken, refreshToken, familyId])
  | rotate {op : Op} {cs : List Call} {clientId accessToken refreshToken : String} {scopes : List String}
      {token : FamilyRefreshToken} {now : ℕ} {pair : OAuthTokenPair} {r : RefreshToken}
      (hcs : cs.Sublist s.calls) (hcall : .exchangeRefresh clientId token ∈ s.calls)
      (hscopes : scopes ⊆ token.scopes) (hdrawn : ([accessToken, refreshToken] ++ s.used).Nodup)
      (hpair : pair = nextPair accessExpirySeconds clientId token scopes now accessToken refreshToken)
      (hclaim : s.db.claimable token.token now = some r) (hf : r.familyId = pair.familyId) :
      Effect s op ({ s with calls := cs }.mint (s.db.consume token.token now pair)
        (.refresh token.token) pair [accessToken, refreshToken])
  | wipe {userId : String} : Effect s (.deleteCredentialsByUser userId) { s with
      db := s.db.deleteCredentialsByUser userId, log := .wiped userId :: s.log }
  | sweep {now : ℕ} : Effect s (.deleteExpiredTokens now)
      { s with db := s.db.deleteExpiredTokens now }

variable {accessExpirySeconds} {s t : State} {op : Op}

theorem loadAuthorizationCode_follows {clientId code : String} {now : ℚ} :
    ∀ x ∈ loadAuthorizationCode s.db clientId code now, Follows s x := by
  intro x hx
  obtain ⟨c, hrow, hx⟩ := Option.bind_eq_some_iff.mp hx
  split at hx
  · cases hx
  · rename_i hclient
    split at hx <;> cases hx
    · trivial
    · exact ⟨(row_some hrow).1, not_not.mp hclient⟩

theorem loadRefreshToken_follows {clientId token : String} {now : ℚ} :
    ∀ x ∈ loadRefreshToken s.db clientId token now, Follows s x := by
  intro x hx
  obtain ⟨r, hrow, hx⟩ := Option.bind_eq_some_iff.mp hx
  split at hx
  · cases hx
  · rename_i hclient
    obtain ⟨userId, huser, hx⟩ := Option.bind_eq_some_iff.mp hx
    have hr := (row_some hrow).1
    split at hx
    · cases hx
      exact ⟨r, hr, rfl⟩
    · split at hx <;> cases hx
      · trivial
      · exact ⟨r, hr, not_not.mp hclient, huser, rfl⟩

theorem loadAccessToken_follows {token : String} {now : ℚ} :
    ∀ x ∈ loadAccessToken s.db token now, Follows s x := by
  intro x hx
  obtain ⟨a, _, hx⟩ := Option.bind_eq_some_iff.mp hx
  obtain ⟨userId, _, hx⟩ := Option.bind_eq_some_iff.mp hx
  split at hx <;> cases hx
  trivial

theorem run_effect {call : Call} {cs : List Call} (hcs : cs.Sublist s.calls) (hcall : call ∈ s.calls)
    (h : State.run { s with calls := cs } call = some t) : Effect accessExpirySeconds s op t := by
  cases call with
  | exchangeCode clientId c =>
    cases h
    by_cases hstored : s.db.codes.any (·.code = c.code)
    · cases huser : c.userId with
      | none =>
        simp only [State.exchangeAuthorizationCode, Db.deleteAuthCode, hstored, huser]
        exact .deleteCode hcs
      | some userId =>
        simp only [State.exchangeAuthorizationCode, Db.deleteAuthCode, hstored, huser]
        obtain ⟨x, hx, hcode⟩ := List.any_eq_true.mp hstored
        exact .exchange hcs hcall ⟨x, hx, of_decide_eq_true hcode⟩ huser
    · simp only [State.exchangeAuthorizationCode, Db.deleteAuthCode, hstored]
      exact .deleteCode hcs
  | issueTokenPair clientId c userId => cases h
  | exchangeRefresh clientId token => cases h
  | deleteCode code =>
    cases h
    exact .deleteCode hcs
  | dropAccess token =>
    cases h
    exact .dropAccess hcs
  | revokeByRefresh token =>
    cases h
    refine .read hcs fun x hx => ?_
    obtain ⟨r, hrow, rfl⟩ := Option.map_eq_some_iff.mp hx
    exact ⟨r, (row_some hrow).1, rfl⟩
  | revokeByAccess token =>
    cases h
    refine .read hcs fun x hx => ?_
    obtain ⟨a, hrow, rfl⟩ := Option.map_eq_some_iff.mp hx
    obtain ⟨ha, htoken⟩ := row_some hrow
    split
    · exact .inl ⟨a, ha, htoken, ‹_›⟩
    · exact ⟨a, ha, htoken, ‹_›⟩
  | revokeByAccessRefresh token refreshToken =>
    cases h
    refine .read hcs fun x hx => ?_
    cases hx
    split
    · rename_i hrow
      exact .inr ⟨refreshToken, hcall, row_eq_none.mp hrow⟩
    · rename_i r hrow
      exact ⟨r, (row_some hrow).1, rfl⟩
  | revokeFamily familyId =>
    cases h
    exact .revokeFamily hcs (.inl hcall)
  | revokeAccess token =>
    cases h
    exact .revokeAccess hcs hcall

theorem rotate_effect {clientId accessToken refreshToken : String} {token : FamilyRefreshToken}
    {scopes : List String} {now : ℕ} {pair : OAuthTokenPair} {cs : List Call} (hcs : cs.Sublist s.calls)
    (hcall : .exchangeRefresh clientId token ∈ s.calls) (hscopes : scopes ⊆ token.scopes)
    (hdrawn : ([accessToken, refreshToken] ++ s.used).Nodup)
    (hpair : pair = nextPair accessExpirySeconds clientId token scopes now accessToken refreshToken) :
    Effect accessExpirySeconds s op (State.rotate { s with calls := cs } token.token pair now) := by
  have hidle : Effect accessExpirySeconds s op { s with calls := cs } :=
    .read (o := none) hcs fun x hx => nomatch hx
  have htokens : [pair.accessToken, pair.refreshToken] = [accessToken, refreshToken] := by
    rw [hpair]
    rfl
  unfold State.rotate Db.rotateTokenPair
  cases hclaim : s.db.claimable token.token now with
  | some r =>
    by_cases hf : r.familyId = pair.familyId
    · simp only [hf, ne_eq, not_true_eq_false, if_false]
      rw [htokens]
      exact .rotate hcs hcall hscopes hdrawn hpair hclaim hf
    · simp only [hf, ne_eq, not_false_eq_true, if_true]
      exact hidle
  | none =>
    cases hrow : row RefreshToken.token s.db.refresh token.token with
    | none => exact hidle
    | some r =>
      have htrip : Effect accessExpirySeconds s op { s with
          db := s.db.deleteFamily r.familyId, calls := cs, log := .revoked r.familyId :: s.log } :=
        .revokeFamily hcs (.inr ⟨r, (row_some hrow).1, rfl⟩)
      cases hc : r.consumedAt <;> simpa only [hc, Option.isSome_none, Option.isSome_some,
        Bool.false_eq_true, if_true, if_false, Option.map_some, Option.toList_some,
        List.singleton_append] using htrip

theorem step_effect (h : step accessExpirySeconds s op = some t) : Effect accessExpirySeconds s op t := by
  have hdrop : ∀ k, (s.calls.eraseIdx k).Sublist s.calls := fun k => List.eraseIdx_sublist ..
  cases op with
  | completeAuthorization code clientId userId scopes expiresAt =>
    simp only [step] at h
    split at h
    · cases h
    · rename_i hfresh
      cases h
      exact .issue hfresh
  | loadAuthorizationCode clientId code now =>
    cases h
    exact .read (List.Sublist.refl _) loadAuthorizationCode_follows
  | loadRefreshToken clientId token now =>
    cases h
    exact .read (List.Sublist.refl _) loadRefreshToken_follows
  | loadAccessToken token now =>
    cases h
    exact .read (List.Sublist.refl _) loadAccessToken_follows
  | revokeAccessToken token =>
    cases h
    exact .read (o := some _) (List.Sublist.refl _) fun x hx => by cases hx; trivial
  | revokeRefreshToken token =>
    cases h
    exact .read (o := some _) (List.Sublist.refl _) fun x hx => by cases hx; trivial
  | run k =>
    obtain ⟨call, hk, hrun⟩ := Option.bind_eq_some_iff.mp h
    exact run_effect (hdrop k) (List.mem_of_getElem? hk) hrun
  | issueTokenPair k accessToken refreshToken familyId now =>
    simp only [step] at h
    split at h
    · rename_i clientId c userId hk
      split at h
      · rename_i hdrawn
        cases h
        obtain ⟨hlt, hget⟩ := List.getElem?_eq_some_iff.mp hk
        exact .first (hget ▸ (List.getElem_cons_eraseIdx_perm hlt).symm) hdrawn rfl
      · cases h
    · cases h
  | exchangeRefresh k scopes accessToken refreshToken now =>
    simp only [step] at h
    split at h
    · rename_i clientId token hk
      split at h
      · cases h
        exact .read (o := none) (hdrop k) fun x hx => nomatch hx
      · rename_i hscopes
        split at h
        · rename_i hdrawn
          cases h
          exact rotate_effect (hdrop k) (List.mem_of_getElem? hk) (not_not.mp hscopes) hdrawn rfl
        · cases h
    · cases h
  | abandon k =>
    cases h
    exact .read (o := none) (hdrop k) fun x hx => nomatch hx
  | deleteCredentialsByUser userId =>
    cases h
    exact .wipe
  | deleteExpiredTokens now =>
    cases h
    exact .sweep

end

/-! ## the invariant -/

/-- Revoked and wiped, but nothing new. -/
def Happened.isMark : Happened → Bool
  | .revoked _ | .wiped _ => true
  | _ => false

def Happened.spentCode? : Happened → Option String
  | .minted (.code c) _ => some c.code
  | _ => none

def Call.issuingCode? : Call → Option String
  | .issueTokenPair _ c _ => some c.code
  | _ => none

/-- The codes that have minted a pair, that are about to, and that are stored. -/
def spent (s : State) : List String :=
  s.log.filterMap Happened.spentCode? ++ s.calls.filterMap Call.issuingCode? ++
    s.db.codes.map (·.code)

/-- What a call in flight remembers. -/
def CallOk (s : State) : Call → Prop
  | .exchangeCode clientId c => c ∈ codes s.log ∧ c.clientId = clientId
  | .issueTokenPair clientId c userId =>
      c ∈ codes s.log ∧ c.clientId = clientId ∧ c.userId = some userId
  | .exchangeRefresh clientId t => ∃ p ∈ pairs s.log, p.clientId = clientId ∧
      t = ⟨p.refreshToken, p.clientId, p.userId, p.scopes, some p.refreshExpiresAt, p.familyId⟩
  | .revokeFamily f => ∃ p ∈ pairs s.log, p.familyId = f
  | .revokeByAccessRefresh token refreshToken =>
      ∃ p ∈ pairs s.log, p.accessToken = token ∧ p.refreshToken = refreshToken
  | .revokeAccess token => ∃ p ∈ pairs s.log, p.accessToken = token ∧ ¬ Alive s.db p.familyId
  | .deleteCode _ | .dropAccess _ | .revokeByRefresh _ | .revokeByAccess _ => True

structure Inv (s : State) : Prop where
  hist : Hist s.log s.used
  rows : Rows s.db (pairs s.log)
  stored : ∀ c ∈ s.db.codes, c ∈ codes s.log
  spent : (spent s).Nodup
  calls : ∀ x ∈ s.calls, CallOk s x

section
variable {accessExpirySeconds : ℕ} {s t : State} {op : Op} {log new : List Happened}
  {used drawn : List String} {pair : OAuthTokenPair} {src : Source} {call : Call}

theorem marks_filterMap {β : Type} (g : Happened → Option β) (hnew : ∀ e ∈ new, e.isMark = true)
    (hg : ∀ e, e.isMark = true → g e = none) : (new ++ log).filterMap g = log.filterMap g := by
  rw [List.filterMap_append, List.filterMap_eq_nil_iff.mpr fun e he => hg e (hnew e he), List.nil_append]

theorem marks_pairs (hnew : ∀ e ∈ new, e.isMark = true) : pairs (new ++ log) = pairs log :=
  marks_filterMap _ hnew fun e he => by cases e <;> first | rfl | cases he

theorem marks_codes (hnew : ∀ e ∈ new, e.isMark = true) : codes (new ++ log) = codes log :=
  marks_filterMap _ hnew fun e he => by cases e <;> first | rfl | cases he

theorem marks_founded (hnew : ∀ e ∈ new, e.isMark = true) (h : Founded log) : Founded (new ++ log) := by
  induction new with
  | nil => exact h
  | cons e new ih =>
    have ih := ih fun x hx => hnew x (List.mem_cons_of_mem e hx)
    have he := hnew e List.mem_cons_self
    cases e <;> first | exact ih | cases he

theorem Hist.marks (h : Hist log used) (hnew : ∀ e ∈ new, e.isMark = true) :
    Hist (new ++ log) used := by
  refine ⟨h.drawn, ?_, ?_, ?_, ?_, ?_, ?_, marks_founded hnew h.founded⟩ <;>
    simp only [marks_pairs hnew, marks_codes hnew]
  · exact h.code
  · exact h.codeUsed
  · exact h.access
  · exact h.refresh
  · exact h.pairUsed
  · exact h.live

theorem Hist.mint (h : Hist log used) (hdrawn : (drawn ++ used).Nodup)
    (haccess : pair.accessToken ∈ drawn) (hrefresh : pair.refreshToken ∈ drawn)
    (hfamily : pair.familyId ∈ drawn ++ used) (hlive : pair.refreshExpiresAt ≠ 0)
    (hsource : Minted log pair src) : Hist (.minted src pair :: log) (drawn ++ used) := by
  have hold : ∀ {x}, x ∈ used → x ∈ drawn ++ used := fun hx => List.mem_append_right _ hx
  have hfresh : ∀ {x}, x ∈ drawn → x ∉ used := fun hx hu => List.disjoint_of_nodup_append hdrawn hx hu
  refine ⟨hdrawn, h.code, fun c hc => hold (h.codeUsed c hc), ?_, ?_, ?_, ?_, hsource, h.founded⟩
  · rw [pairs_minted, List.map_cons, List.nodup_cons]
    refine ⟨fun hmem => ?_, h.access⟩
    obtain ⟨p, hp, heq⟩ := List.mem_map.mp hmem
    exact hfresh haccess (heq ▸ (h.pairUsed p hp).1)
  · rw [pairs_minted, List.map_cons, List.nodup_cons]
    refine ⟨fun hmem => ?_, h.refresh⟩
    obtain ⟨p, hp, heq⟩ := List.mem_map.mp hmem
    exact hfresh hrefresh (heq ▸ (h.pairUsed p hp).2.1)
  · intro p hp
    rcases List.mem_cons.mp hp with rfl | hp
    · exact ⟨List.mem_append_left _ haccess, List.mem_append_left _ hrefresh, hfamily⟩
    · obtain ⟨h1, h2, h3⟩ := h.pairUsed p hp
      exact ⟨hold h1, hold h2, hold h3⟩
  · intro p hp
    rcases List.mem_cons.mp hp with rfl | hp
    · exact hlive
    · exact h.live p hp

theorem Founded.issued {c : AuthCode} (h : Founded log) (he : Happened.minted (.code c) pair ∈ log) :
    c ∈ codes log := by
  obtain ⟨later, earlier, rfl⟩ := List.append_of_mem he
  have hc := mem_codes.mp (h.minted rfl).1
  exact mem_codes.mpr (List.mem_append_right _ (List.mem_cons_of_mem _ hc))

/-- A call keeps what it remembers: the history grows, and a family that is gone does not return. -/
theorem CallOk.mono (hpairs : pairs s.log ⊆ pairs t.log) (hcodes : codes s.log ⊆ codes t.log)
    (hdead : ∀ p ∈ pairs s.log, Alive t.db p.familyId → Alive s.db p.familyId) (h : CallOk s call) :
    CallOk t call := by
  cases call with
  | exchangeCode clientId c => exact ⟨hcodes h.1, h.2⟩
  | issueTokenPair clientId c userId => exact ⟨hcodes h.1, h.2⟩
  | exchangeRefresh clientId token =>
    obtain ⟨p, hp, h⟩ := h
    exact ⟨p, hpairs hp, h⟩
  | revokeFamily f =>
    obtain ⟨p, hp, h⟩ := h
    exact ⟨p, hpairs hp, h⟩
  | revokeByAccessRefresh token refreshToken =>
    obtain ⟨p, hp, h⟩ := h
    exact ⟨p, hpairs hp, h⟩
  | revokeAccess token =>
    obtain ⟨p, hp, htoken, h⟩ := h
    exact ⟨p, hpairs hp, htoken, fun halive => h (hdead p hp halive)⟩
  | deleteCode code => trivial
  | dropAccess token => trivial
  | revokeByRefresh token => trivial
  | revokeByAccess token => trivial

namespace Inv
variable (h : Inv s)
include h

theorem follows_ok (hcall : Follows s call) : CallOk s call := by
  cases call with
  | exchangeCode clientId c => exact ⟨h.stored c hcall.1, hcall.2⟩
  | issueTokenPair clientId c userId => exact hcall.elim
  | exchangeRefresh clientId token =>
    obtain ⟨r, hr, hclient, huser, htoken⟩ := hcall
    obtain ⟨p, hp, hrp⟩ := h.rows.refresh r hr
    rw [hrp] at hclient huser htoken
    refine ⟨p, hp, hclient, ?_⟩
    rw [htoken, ← Option.some.inj huser]
    rfl
  | revokeFamily f =>
    obtain ⟨r, hr, hf⟩ := hcall
    obtain ⟨p, hp, hrp⟩ := h.rows.refresh r hr
    rw [hrp] at hf
    exact ⟨p, hp, hf⟩
  | revokeByAccessRefresh token refreshToken =>
    obtain ⟨a, ha, htoken, hrefresh⟩ := hcall
    obtain ⟨p, hp, rfl⟩ := h.rows.access a ha
    exact ⟨p, (latest_some hp).1, htoken, Option.some.inj hrefresh⟩
  | revokeAccess token =>
    rcases hcall with ⟨a, ha, _, hrefresh⟩ | ⟨refreshToken, hcall, hgone⟩
    · obtain ⟨p, _, rfl⟩ := h.rows.access a ha
      cases hrefresh
    · obtain ⟨p, hp, htoken, rfl⟩ := h.calls _ hcall
      refine ⟨p, hp, htoken, fun halive => ?_⟩
      obtain ⟨r, hr, heq⟩ := h.rows.whole p hp halive
      exact hgone r hr heq
  | deleteCode code => trivial
  | dropAccess token => trivial
  | revokeByRefresh token => trivial
  | revokeByAccess token => trivial

theorem spent_used {x : String} (hx : x ∈ OAuth.spent s) : x ∈ s.used := by
  have hcode : ∀ {c}, c ∈ codes s.log → c.code ∈ s.used := fun hc => h.hist.codeUsed _ hc
  rw [OAuth.spent, List.mem_append, List.mem_append] at hx
  rcases hx with (hx | hx) | hx
  · obtain ⟨e, he, hx⟩ := List.mem_filterMap.mp hx
    rcases e with _ | ⟨source, p⟩ | _ | _ <;> try cases hx
    cases source with
    | code c =>
      cases hx
      exact hcode (h.hist.founded.issued he)
    | refresh token => cases hx
  · obtain ⟨call, hcall, hx⟩ := List.mem_filterMap.mp hx
    have hok := h.calls call hcall
    cases call <;> cases hx
    exact hcode hok.1
  · obtain ⟨c, hc, rfl⟩ := List.mem_map.mp hx
    exact hcode (h.stored c hc)

variable (new) in
/-- The steps that only delete. -/
theorem shrink (hdb : Shrinks s.db t.db) (hused : t.used = s.used) (hlog : t.log = new ++ s.log)
    (hnew : ∀ e ∈ new, e.isMark = true) (hspent : (OAuth.spent t).Nodup)
    (hcalls : ∀ x ∈ t.calls, x ∈ s.calls ∨ CallOk t x) : Inv t := by
  have hpairs : pairs t.log = pairs s.log := by rw [hlog, marks_pairs hnew]
  have hcodes : codes t.log = codes s.log := by rw [hlog, marks_codes hnew]
  refine ⟨?_, ?_, ?_, hspent, ?_⟩
  · rw [hlog, hused]
    exact h.hist.marks hnew
  · rw [hpairs]
    exact h.rows.shrink h.hist.refresh hdb
  · intro c hc
    rw [hcodes]
    exact h.stored c (hdb.codes.subset hc)
  · intro x hx
    rcases hcalls x hx with hx | hx
    · refine (h.calls x hx).mono ?_ ?_ fun p _ halive => hdb.alive halive
      · rw [hpairs]
        exact fun _ hp => hp
      · rw [hcodes]
        exact fun _ hc => hc
    · exact hx

variable (new) in
/-- A step that only deletes and starts no exchange. -/
theorem spent_sublist (hlog : t.log = new ++ s.log) (hnew : ∀ e ∈ new, e.isMark = true)
    (hcalls : (t.calls.filterMap Call.issuingCode?).Sublist (s.calls.filterMap Call.issuingCode?))
    (hcodes : t.db.codes.Sublist s.db.codes) : (OAuth.spent t).Nodup := by
  have hspent : t.log.filterMap Happened.spentCode? = s.log.filterMap Happened.spentCode? := by
    rw [hlog]
    exact marks_filterMap _ hnew fun e he => by cases e <;> first | rfl | cases he
  refine h.spent.sublist ?_
  rw [OAuth.spent, OAuth.spent, hspent]
  exact ((List.Sublist.refl _).append hcalls).append (hcodes.map _)

variable (new) in
theorem delete (hdb : Shrinks s.db t.db) (hused : t.used = s.used) (hlog : t.log = new ++ s.log)
    (hnew : ∀ e ∈ new, e.isMark = true) (hcalls : t.calls.Sublist s.calls) : Inv t :=
  h.shrink new hdb hused hlog hnew (h.spent_sublist new hlog hnew (hcalls.filterMap _) hdb.codes)
    fun _ hx => .inl (hcalls.subset hx)

/-- The code leaves the table; the call that took it may mint. -/
theorem exchange {cs : List Call} {clientId userId : String} {c : AuthCode} (hcs : cs.Sublist s.calls)
    (hcall : .exchangeCode clientId c ∈ s.calls) (hstored : ∃ x ∈ s.db.codes, x.code = c.code)
    (huser : c.userId = some userId) : Inv { s with
      db := (s.db.deleteAuthCode c.code).2, calls := .issueTokenPair clientId c userId :: cs } := by
  refine h.shrink [] (deleteAuthCode_shrinks _ _) rfl rfl (fun _ he => nomatch he) ?_ ?_
  · have hkept := h.spent_sublist (t := { s with db := (s.db.deleteAuthCode c.code).2, calls := cs })
      [] rfl (fun _ he => nomatch he) (hcs.filterMap _) (List.filter_sublist)
    have hnew : c.code ∉ OAuth.spent
        { s with db := (s.db.deleteAuthCode c.code).2, calls := cs } := by
      obtain ⟨x, hx, hcode⟩ := hstored
      rw [OAuth.spent, List.mem_append]
      rintro (hmem | hmem)
      · have hmem' : c.code ∈ s.log.filterMap Happened.spentCode? ++
            s.calls.filterMap Call.issuingCode? :=
          ((List.Sublist.refl _).append (hcs.filterMap _)).subset hmem
        exact List.disjoint_of_nodup_append h.spent hmem' (List.mem_map.mpr ⟨x, hx, hcode⟩)
      · obtain ⟨y, hy, heq⟩ := List.mem_map.mp hmem
        exact of_decide_eq_false (mem_deleteWhere.mp hy).2 heq
    refine (List.Perm.nodup_iff ?_).mpr (List.nodup_cons.mpr ⟨hnew, hkept⟩)
    simp only [OAuth.spent, List.filterMap_cons, Call.issuingCode?]
    exact List.perm_middle.append_right _
  · intro x hx
    rcases List.mem_cons.mp hx with rfl | hx
    · obtain ⟨hc, hclient⟩ := h.calls _ hcall
      exact .inr ⟨hc, hclient, huser⟩
    · exact .inl (hcs.subset hx)

/-- A new code. -/
theorem issue {c : AuthCode} (hfresh : c.code ∉ s.used) : Inv { s with
    db := { s.db with codes := c :: s.db.codes }, used := c.code :: s.used
    log := .issued c :: s.log } := by
  have hh := h.hist
  constructor
  · refine ⟨List.nodup_cons.mpr ⟨hfresh, hh.drawn⟩, ?_, ?_, hh.access, hh.refresh, ?_, hh.live,
      hh.founded⟩
    · rw [codes_issued, List.map_cons, List.nodup_cons]
      refine ⟨fun hmem => ?_, hh.code⟩
      obtain ⟨x, hx, heq⟩ := List.mem_map.mp hmem
      exact hfresh (heq ▸ hh.codeUsed x hx)
    · intro x hx
      rcases List.mem_cons.mp hx with rfl | hx
      · exact List.mem_cons_self
      · exact List.mem_cons_of_mem _ (hh.codeUsed x hx)
    · intro p hp
      obtain ⟨h1, h2, h3⟩ := hh.pairUsed p hp
      exact ⟨List.mem_cons_of_mem _ h1, List.mem_cons_of_mem _ h2, List.mem_cons_of_mem _ h3⟩
  · exact ⟨h.rows.access, h.rows.refresh, h.rows.current, h.rows.whole⟩
  · intro x hx
    rcases List.mem_cons.mp hx with rfl | hx
    · exact List.mem_cons_self
    · exact List.mem_cons_of_mem _ (h.stored x hx)
  · refine (List.Perm.nodup_iff ?_).mpr
      (List.nodup_cons.mpr ⟨fun hmem => hfresh (h.spent_used hmem), h.spent⟩)
    exact List.perm_middle
  · intro x hx
    have hok := h.calls x hx
    refine CallOk.mono (s := s) (fun _ hp => hp) ?_ (fun _ _ halive => halive) hok
    exact List.subset_cons_self c (codes s.log)

/-- The first pair of a new family. -/
theorem first {cs : List Call} {clientId userId accessToken refreshToken familyId : String}
    {c : AuthCode} {now : ℕ} (hcs : s.calls.Perm (.issueTokenPair clientId c userId :: cs))
    (hdrawn : ([accessToken, refreshToken, familyId] ++ s.used).Nodup)
    (hpair : pair = firstPair accessExpirySeconds clientId c.scopes userId now accessToken refreshToken
      familyId) :
    Inv ({ s with calls := cs }.mint (s.db.insertPair pair) (.code c) pair
      [accessToken, refreshToken, familyId]) := by
  obtain ⟨hc, hclient, huser⟩ := h.calls _ (hcs.mem_iff.mpr List.mem_cons_self)
  have hnew : ∀ p ∈ pairs s.log, p.familyId ≠ pair.familyId := by
    intro p hp heq
    refine List.disjoint_of_nodup_append hdrawn (a := familyId) (by simp) ?_
    rw [hpair] at heq
    exact (show p.familyId = familyId from heq) ▸ (h.hist.pairUsed p hp).2.2
  have hcarries : Carries c pair.clientId (some pair.userId) pair.scopes := by
    rw [hpair]
    exact ⟨hclient.symm, huser.symm, fun _ hx => hx⟩
  constructor
  · refine h.hist.mint hdrawn ?_ ?_ ?_ ?_ ⟨hc, hcarries, hnew⟩ <;> rw [hpair]
    · exact List.mem_cons_self
    · exact List.mem_cons_of_mem _ List.mem_cons_self
    · exact List.mem_append_left _ (by simp [firstPair, newTokenPair])
    · exact Nat.succ_ne_zero _
  · exact h.rows.insert hnew
  · exact h.stored
  · refine (List.Perm.nodup_iff ?_).mp h.spent
    exact ((hcs.filterMap Call.issuingCode?).append_left _ |>.trans List.perm_middle).append_right _
  · intro x hx
    refine (h.calls x (hcs.mem_iff.mpr (List.mem_cons_of_mem _ hx))).mono
      (fun _ hp => List.mem_cons_of_mem _ hp) (fun _ hc => hc) ?_
    rintro p hp ⟨r, hr, hf⟩
    rcases List.mem_cons.mp hr with rfl | hr
    · exact absurd hf.symm (hnew p hp)
    · exact ⟨r, hr, hf⟩

/-- The next pair of a family that is alive. -/
theorem rotate {cs : List Call} {clientId accessToken refreshToken : String} {scopes : List String}
    {token : FamilyRefreshToken} {now : ℕ} {r : RefreshToken} (hcs : cs.Sublist s.calls)
    (hcall : .exchangeRefresh clientId token ∈ s.calls) (hscopes : scopes ⊆ token.scopes)
    (hdrawn : ([accessToken, refreshToken] ++ s.used).Nodup)
    (hpair : pair = nextPair accessExpirySeconds clientId token scopes now accessToken refreshToken)
    (hclaim : s.db.claimable token.token now = some r) (hf : r.familyId = pair.familyId) :
    Inv ({ s with calls := cs }.mint (s.db.consume token.token now pair) (.refresh token.token) pair
      [accessToken, refreshToken]) := by
  obtain ⟨q, hq, hclient, rfl⟩ := h.calls _ hcall
  have hexpiry : pair.refreshExpiresAt = q.refreshExpiresAt := by
    rw [hpair]
    obtain ⟨e, he⟩ := Nat.exists_eq_succ_of_ne_zero (h.hist.live q hq)
    show refreshExpiry (some q.refreshExpiresAt) now = _
    rw [he]
    rfl
  have hparent : Parent q pair := by
    refine ⟨?_, ?_, ?_, ?_, hexpiry⟩ <;> rw [hpair]
    · rfl
    · exact hclient.symm
    · rfl
    · exact hscopes
  constructor
  · refine h.hist.mint hdrawn ?_ ?_ ?_ ?_ ⟨q, hq, rfl, hparent⟩
    · rw [hpair]
      exact List.mem_cons_self
    · rw [hpair]
      exact List.mem_cons_of_mem _ List.mem_cons_self
    · rw [hparent.family]
      exact List.mem_append_right _ (h.hist.pairUsed q hq).2.2
    · rw [hexpiry]
      exact h.hist.live q hq
  · exact h.rows.consume h.hist.founded hclaim hf
  · exact h.stored
  · exact h.spent.sublist
      (((List.Sublist.refl _).append (hcs.filterMap _)).append (List.Sublist.refl _))
  · intro x hx
    refine (h.calls x (hcs.subset hx)).mono (fun _ hp => List.mem_cons_of_mem _ hp) (fun _ hc => hc) ?_
    rintro p _ ⟨r', hr', hf'⟩
    rcases List.mem_cons.mp hr' with rfl | hr'
    · exact ⟨r, (claimable_some hclaim).1, hf.trans hf'⟩
    · rcases mem_updateWhere.mp hr' with ⟨y, hy, _, rfl⟩ | ⟨hr', _⟩
      · exact ⟨y, hy, hf'⟩
      · exact ⟨r', hr', hf'⟩

end Inv

theorem effect_inv (h : Inv s) (he : Effect accessExpirySeconds s op t) : Inv t := by
  cases he with
  | @read _ cs call hcs hcall =>
    refine h.shrink [] (Shrinks.refl _) rfl rfl (fun _ he => nomatch he) ?_ ?_
    · refine h.spent_sublist [] rfl (fun _ he => nomatch he) ?_ (List.Sublist.refl _)
      cases call with
      | none => exact hcs.filterMap _
      | some call =>
        have hnone : Call.issuingCode? call = none := by
          have := hcall call rfl
          cases call <;> first | rfl | exact this.elim
        simp only [Option.toList_some, List.singleton_append, List.filterMap_cons, hnone]
        exact hcs.filterMap _
    · intro x hx
      rcases List.mem_append.mp hx with hx | hx
      · exact .inr (h.follows_ok (hcall x (Option.mem_toList.mp hx)))
      · exact .inl (hcs.subset hx)
  | issue hfresh => exact h.issue hfresh
  | exchange hcs hcall hstored huser => exact h.exchange hcs hcall hstored huser
  | deleteCode hcs =>
    exact h.delete [] (deleteAuthCode_shrinks _ _) rfl rfl (fun _ he => nomatch he) hcs
  | dropAccess hcs =>
    exact h.delete [] (deleteAccessToken_shrinks _ _) rfl rfl (fun _ he => nomatch he) hcs
  | @revokeFamily _ cs f hcs _ =>
    refine h.delete [.revoked f] (deleteFamily_shrinks _ _) rfl rfl ?_ hcs
    exact fun _ he => List.mem_singleton.mp he ▸ rfl
  | @revokeAccess _ cs token hcs _ =>
    refine h.delete _ (deleteAccessToken_shrinks _ _) rfl rfl ?_ hcs
    intro e he
    obtain ⟨f, _, rfl⟩ := Option.map_eq_some_iff.mp (Option.mem_toList.mp he)
    rfl
  | first hcs hdrawn hpair => exact h.first hcs hdrawn hpair
  | rotate hcs hcall hscopes hdrawn hpair hclaim hf =>
    exact h.rotate hcs hcall hscopes hdrawn hpair hclaim hf
  | @wipe userId =>
    refine h.delete [.wiped userId] (h.rows.deleteCredentialsByUser h.hist.founded _) rfl rfl ?_
      (List.Sublist.refl _)
    exact fun _ he => List.mem_singleton.mp he ▸ rfl
  | sweep =>
    exact h.delete [] (h.rows.deleteExpiredTokens h.hist.founded _) rfl rfl
      (fun _ he => nomatch he) (List.Sublist.refl _)

theorem empty_inv : Inv State.empty := by
  refine ⟨⟨List.nodup_nil, List.nodup_nil, ?_, List.nodup_nil, List.nodup_nil, ?_, ?_, trivial⟩,
    ⟨?_, ?_, ?_, ?_⟩, ?_, List.nodup_nil, ?_⟩ <;> exact fun _ hx => nomatch hx

theorem reach_inv {ok : State → Op → Prop} (h : (oauth accessExpirySeconds).Reach ok s) : Inv s :=
  h.inv (fun s (hs : s = State.empty) => hs ▸ empty_inv) fun _ _ _ _ h _ hstep =>
    effect_inv h (step_effect hstep)

end
end Kajet.OAuth
