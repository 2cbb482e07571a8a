import Kajet.OAuth.Provider

/-!
# Families: the history and the rows

* `Grant`, `Carries`   the authorization code that started a family, and what its tokens keep of it;
* `Hist`               what holds of the history: random values are drawn once, each pair is minted
                       from a code or from a pair of its family;
* `Rows`               the tables against the history: the access token that is stored and the refresh
                       token that is not consumed belong to the latest pair of their family, and the
                       refresh tokens of a family are all stored or all gone;
* `Shrinks`            a delete that takes whole families of refresh tokens.
-/

namespace Kajet.OAuth
open Table

def Happened.code? : Happened → Option AuthCode
  | .issued c => some c
  | _ => none

def codes (log : List Happened) : List AuthCode := log.filterMap Happened.code?

/-- The code started the family. -/
def Grant (log : List Happened) (familyId : String) (c : AuthCode) : Prop :=
  c ∈ codes log ∧ ∃ p, Happened.minted (.code c) p ∈ log ∧ p.familyId = familyId

/-- A token of the user and client of the code, within its scopes. -/
structure Carries (c : AuthCode) (clientId : String) (userId : Option String) (scopes : List String) :
    Prop where
  client : clientId = c.clientId
  user : userId = c.userId
  scopes : scopes ⊆ c.scopes

/-- The pair that a rotation replaces, as far as the new one keeps it. -/
structure Parent (parent pair : OAuthTokenPair) : Prop where
  family : pair.familyId = parent.familyId
  client : pair.clientId = parent.clientId
  user : pair.userId = parent.userId
  scopes : pair.scopes ⊆ parent.scopes
  expiry : pair.refreshExpiresAt = parent.refreshExpiresAt

/-- What the pair was minted from is in the history before it. -/
def Minted (log : List Happened) (pair : OAuthTokenPair) : Source → Prop
  | .code c => c ∈ codes log ∧ Carries c pair.clientId (some pair.userId) pair.scopes ∧
      ∀ p ∈ pairs log, p.familyId ≠ pair.familyId
  | .refresh token => ∃ p ∈ pairs log, p.refreshToken = token ∧ Parent p pair

/-- Every event of the history comes after what it rests on. -/
def Founded : List Happened → Prop
  | [] => True
  | .minted source pair :: log => Minted log pair source ∧ Founded log
  | _ :: log => Founded log

structure Hist (log : List Happened) (used : List String) : Prop where
  drawn : used.Nodup
  code : ((codes log).map (·.code)).Nodup
  codeUsed : ∀ c ∈ codes log, c.code ∈ used
  access : ((pairs log).map (·.accessToken)).Nodup
  refresh : ((pairs log).map (·.refreshToken)).Nodup
  pairUsed : ∀ p ∈ pairs log, p.accessToken ∈ used ∧ p.refreshToken ∈ used ∧ p.familyId ∈ used
  live : ∀ p ∈ pairs log, p.refreshExpiresAt ≠ 0
  founded : Founded log

section
variable {log : List Happened} {used drawn : List String} {p q pair : OAuthTokenPair} {c c' : AuthCode}
  {f f' : String} {src : Source}

@[simp] theorem pairs_minted : pairs (.minted src pair :: log) = pair :: pairs log := rfl
@[simp] theorem codes_minted : codes (.minted src pair :: log) = codes log := rfl
@[simp] theorem pairs_issued : pairs (.issued c :: log) = pairs log := rfl
@[simp] theorem codes_issued : codes (.issued c :: log) = c :: codes log := rfl

theorem mem_pairs : p ∈ pairs log ↔ ∃ source, Happened.minted source p ∈ log := by
  rw [pairs, List.mem_filterMap]
  constructor
  · rintro ⟨e, he, hp⟩
    cases e <;> cases hp
    exact ⟨_, he⟩
  · rintro ⟨source, he⟩
    exact ⟨_, he, rfl⟩

theorem mem_codes : c ∈ codes log ↔ Happened.issued c ∈ log := by
  rw [codes, List.mem_filterMap]
  constructor
  · rintro ⟨e, he, hc⟩
    cases e <;> cases hc
    exact he
  · exact fun he => ⟨_, he, rfl⟩

/-- Each minting of the history rests on what came before. -/
theorem Founded.minted (h : Founded log) {later earlier : List Happened}
    (hlog : log = later ++ .minted src pair :: earlier) : Minted earlier pair src := by
  induction later generalizing log with
  | nil =>
    subst hlog
    exact h.1
  | cons e later ih =>
    subst hlog
    refine ih ?_ rfl
    cases e with
    | minted source p => exact h.2
    | issued c => exact h
    | revoked f => exact h
    | wiped u => exact h

theorem Grant.mono (new : List Happened) (h : Grant log f c) : Grant (new ++ log) f c := by
  obtain ⟨hc, p, hp, hf⟩ := h
  exact ⟨mem_codes.mpr (List.mem_append_right _ (mem_codes.mp hc)), p, List.mem_append_right _ hp, hf⟩

/-- Each pair keeps user, client and scopes of the code that started its family. -/
theorem Founded.grant (h : Founded log) (hp : p ∈ pairs log) :
    ∃ c, Grant log p.familyId c ∧ Carries c p.clientId (some p.userId) p.scopes := by
  induction log generalizing p with
  | nil => cases hp
  | cons e log ih =>
    have hold : Founded log → p ∈ pairs log → ∃ c, Grant (e :: log) p.familyId c ∧
        Carries c p.clientId (some p.userId) p.scopes := fun hlog hp => by
      obtain ⟨c, hgrant, hc⟩ := ih hlog hp
      exact ⟨c, hgrant.mono [e], hc⟩
    cases e with
    | minted source pair =>
      rcases List.mem_cons.mp hp with rfl | hp
      · cases source with
        | code c =>
          obtain ⟨hc, hcarries, _⟩ := h.1
          exact ⟨c, ⟨hc, p, List.mem_cons_self, rfl⟩, hcarries⟩
        | refresh token =>
          obtain ⟨q, hq, _, hparent⟩ := h.1
          obtain ⟨c, hgrant, hc⟩ := ih h.2 hq
          refine ⟨c, hparent.family ▸ hgrant.mono [.minted (.refresh token) p], ?_, ?_, ?_⟩
          · rw [hparent.client, hc.client]
          · rw [hparent.user, hc.user]
          · exact fun x hx => hc.scopes (hparent.scopes hx)
      · exact hold h.2 hp
    | issued c => exact hold h hp
    | revoked f => exact hold h hp
    | wiped u => exact hold h hp

/-- A family has the pairs that go back to one code, and they expire together. -/
theorem Founded.expiry (h : Founded log) (hp : p ∈ pairs log) (hq : q ∈ pairs log)
    (hf : p.familyId = q.familyId) : p.refreshExpiresAt = q.refreshExpiresAt := by
  induction log generalizing p q with
  | nil => cases hp
  | cons e log ih =>
    cases e with
    | minted source pair =>
      have hnew : ∀ q ∈ pairs log, pair.familyId = q.familyId →
          pair.refreshExpiresAt = q.refreshExpiresAt := by
        intro q' hq' hf'
        cases source with
        | code c => exact absurd hf'.symm (h.1.2.2 q' hq')
        | refresh token =>
          obtain ⟨p', hp', _, hparent⟩ := h.1
          rw [hparent.expiry]
          exact ih h.2 hp' hq' (hparent.family.symm.trans hf')
      rcases List.mem_cons.mp hp with rfl | hp' <;> rcases List.mem_cons.mp hq with rfl | hq'
      · rfl
      · exact hnew q hq' hf
      · exact (hnew p hp' hf.symm).symm
      · exact ih h.2 hp' hq' hf
    | issued c => exact ih h hp hq hf
    | revoked f => exact ih h hp hq hf
    | wiped u => exact ih h hp hq hf

/-- A family is started once. -/
theorem Founded.oneGrant (h : Founded log) (hg : Grant log f c) (hg' : Grant log f c') : c = c' := by
  obtain ⟨-, p, hp, rfl⟩ := hg
  obtain ⟨-, q, hq, hf⟩ := hg'
  induction log with
  | nil => cases hp
  | cons e log ih =>
    have hrest : Founded log → (e = .minted (.code c) p → False) →
        (e = .minted (.code c') q → False) → c = c' := fun hlog hp' hq' =>
      ih hlog ((List.mem_cons.mp hp).resolve_left fun he => hp' he.symm)
        ((List.mem_cons.mp hq).resolve_left fun he => hq' he.symm)
    cases e with
    | minted source pair =>
      have hother : ∀ {c q}, Happened.minted (.code c) q ∈ log → q ∈ pairs log := fun hq =>
        mem_pairs.mpr ⟨_, hq⟩
      rcases List.mem_cons.mp hp with hp' | hp' <;> rcases List.mem_cons.mp hq with hq' | hq'
      · cases hp'
        cases hq'
        rfl
      · cases hp'
        exact absurd hf (h.1.2.2 q (hother hq'))
      · cases hq'
        exact absurd hf.symm (h.1.2.2 p (hother hp'))
      · exact ih h.2 hp' hq'
    | issued c => exact hrest h (fun he => nomatch he) fun he => nomatch he
    | revoked f => exact hrest h (fun he => nomatch he) fun he => nomatch he
    | wiped u => exact hrest h (fun he => nomatch he) fun he => nomatch he

end

/-! ## the rows -/

/-- The newest pair of the family. -/
def latest (ps : List OAuthTokenPair) (familyId : String) : Option OAuthTokenPair :=
  row OAuthTokenPair.familyId ps familyId

def Alive (db : Db) (familyId : String) : Prop := ∃ r ∈ db.refresh, r.familyId = familyId

structure Rows (db : Db) (ps : List OAuthTokenPair) : Prop where
  access : ∀ a ∈ db.access, ∃ p, latest ps p.familyId = some p ∧ a = p.access
  refresh : ∀ r ∈ db.refresh, ∃ p ∈ ps, r = { p.refresh with consumedAt := r.consumedAt }
  current : ∀ r ∈ db.refresh, r.consumedAt = none →
    ∃ p, latest ps r.familyId = some p ∧ p.refreshToken = r.token
  whole : ∀ p ∈ ps, Alive db p.familyId → ∃ r ∈ db.refresh, r.token = p.refreshToken

/-- Rows go; of a family all refresh tokens go or none. -/
structure Shrinks (db db' : Db) : Prop where
  codes : db'.codes.Sublist db.codes
  access : db'.access ⊆ db.access
  refresh : db'.refresh ⊆ db.refresh
  closed : ∀ r ∈ db'.refresh, ∀ r' ∈ db.refresh, r'.familyId = r.familyId → r' ∈ db'.refresh

section
variable {db db' : Db} {ps : List OAuthTokenPair} {p q pair : OAuthTokenPair} {log : List Happened}
  {used : List String} {a a' : AccessToken} {r r' : RefreshToken} {f token : String} {now : ℕ}

theorem latest_some (h : latest ps f = some p) : p ∈ ps ∧ p.familyId = f := row_some h

theorem latest_self : latest (pair :: ps) pair.familyId = some pair := by
  simp [latest, row]

theorem latest_of_ne (h : pair.familyId ≠ f) : latest (pair :: ps) f = latest ps f := by
  simp [latest, row, h]

theorem Hist.eq_of_access (h : Hist log used) (hp : p ∈ pairs log) (hq : q ∈ pairs log)
    (heq : p.accessToken = q.accessToken) : p = q := List.inj_on_of_nodup_map h.access hp hq heq

theorem Hist.eq_of_refresh (h : Hist log used) (hp : p ∈ pairs log) (hq : q ∈ pairs log)
    (heq : p.refreshToken = q.refreshToken) : p = q := List.inj_on_of_nodup_map h.refresh hp hq heq

theorem Rows.latest_access (h : Rows db ps) (hp : p ∈ ps) (hinj : (ps.map (·.accessToken)).Nodup)
    (ha : a ∈ db.access) (heq : a.token = p.accessToken) :
    latest ps p.familyId = some p ∧ a = p.access := by
  obtain ⟨q, hq, rfl⟩ := h.access a ha
  obtain rfl := List.inj_on_of_nodup_map hinj (latest_some hq).1 hp heq
  exact ⟨hq, rfl⟩

/-- One family has one owner and one expiry. -/
theorem Rows.same (h : Rows db (pairs log)) (hlog : Founded log) (hr : r ∈ db.refresh)
    (hr' : r' ∈ db.refresh) (hf : r.familyId = r'.familyId) :
    r.userId = r'.userId ∧ r.expiresAt = r'.expiresAt := by
  obtain ⟨p, hp, hrp⟩ := h.refresh r hr
  obtain ⟨q, hq, hrq⟩ := h.refresh r' hr'
  have hfam : p.familyId = q.familyId := by
    rw [hrp, hrq] at hf
    exact hf
  obtain ⟨c, hg, hc⟩ := hlog.grant hp
  obtain ⟨c', hg', hc'⟩ := hlog.grant hq
  rw [hfam] at hg
  obtain rfl := hlog.oneGrant hg hg'
  rw [hrp, hrq]
  exact ⟨hc.user.trans hc'.user.symm, congrArg some (hlog.expiry hp hq hfam)⟩

/-! ### deletes -/

theorem Rows.shrink (h : Rows db ps) (hinj : (ps.map (·.refreshToken)).Nodup) (hs : Shrinks db db') :
    Rows db' ps := by
  refine ⟨fun a ha => h.access a (hs.access ha), fun r hr => h.refresh r (hs.refresh hr),
    fun r hr => h.current r (hs.refresh hr), ?_⟩
  rintro p hp ⟨r, hr, hf⟩
  obtain ⟨r', hr', htoken⟩ := h.whole p hp ⟨r, hs.refresh hr, hf⟩
  refine ⟨r', hs.closed r hr r' hr' ?_, htoken⟩
  obtain ⟨q, hq, hrq⟩ := h.refresh r' hr'
  have hqp : q = p := List.inj_on_of_nodup_map hinj hq hp (by rw [← htoken, hrq]; rfl)
  rw [hrq, hqp]
  exact hf.symm

theorem Shrinks.alive (hs : Shrinks db db') (h : Alive db' f) : Alive db f := by
  obtain ⟨r, hr, hf⟩ := h
  exact ⟨r, hs.refresh hr, hf⟩

theorem Shrinks.refl (db : Db) : Shrinks db db :=
  ⟨List.Sublist.refl _, fun _ h => h, fun _ h => h, fun _ _ _ h _ => h⟩

theorem deleteAuthCode_shrinks (db : Db) (code : String) : Shrinks db (db.deleteAuthCode code).2 :=
  ⟨List.filter_sublist, fun _ h => h, fun _ h => h, fun _ _ _ h _ => h⟩

theorem deleteAccessToken_shrinks (db : Db) (token : String) :
    Shrinks db (db.deleteAccessToken token) :=
  ⟨List.Sublist.refl _, List.filter_subset_self _, fun _ h => h, fun _ _ _ h _ => h⟩

theorem deleteFamily_shrinks (db : Db) (familyId : String) : Shrinks db (db.deleteFamily familyId) := by
  refine ⟨List.Sublist.refl _, List.filter_subset_self _, List.filter_subset_self _, ?_⟩
  intro r hr r' hr' hf
  have hne := (mem_deleteWhere.mp hr).2
  exact mem_deleteWhere.mpr ⟨hr', by rwa [hf]⟩

theorem Rows.deleteCredentialsByUser (h : Rows db (pairs log)) (hlog : Founded log) (userId : String) :
    Shrinks db (db.deleteCredentialsByUser userId) := by
  refine ⟨List.filter_sublist, List.filter_subset_self _, List.filter_subset_self _, ?_⟩
  intro r hr r' hr' hf
  obtain ⟨hr, hne⟩ := mem_deleteWhere.mp hr
  exact mem_deleteWhere.mpr ⟨hr', by rwa [(h.same hlog hr' hr hf).1]⟩

theorem Rows.deleteExpiredTokens (h : Rows db (pairs log)) (hlog : Founded log) (now : ℕ) :
    Shrinks db (db.deleteExpiredTokens now) := by
  refine ⟨List.filter_sublist, List.filter_subset_self _, List.filter_subset_self _, ?_⟩
  intro r hr r' hr' hf
  obtain ⟨hr, hne⟩ := mem_deleteWhere.mp hr
  exact mem_deleteWhere.mpr ⟨hr', by rwa [(h.same hlog hr' hr hf).2]⟩

/-! ### new pairs -/

/-- The first pair of a family. -/
theorem Rows.insert (h : Rows db ps) (hnew : ∀ p ∈ ps, p.familyId ≠ pair.familyId) :
    Rows (db.insertPair pair) (pair :: ps) := by
  have hold : ∀ {p}, latest ps p.familyId = some p → latest (pair :: ps) p.familyId = some p := by
    intro p hp
    rw [latest_of_ne (hnew p (latest_some hp).1).symm]
    exact hp
  constructor
  · intro a ha
    rcases List.mem_cons.mp ha with rfl | ha
    · exact ⟨pair, latest_self, rfl⟩
    · obtain ⟨p, hp, rfl⟩ := h.access a ha
      exact ⟨p, hold hp, rfl⟩
  · intro r hr
    rcases List.mem_cons.mp hr with rfl | hr
    · exact ⟨pair, List.mem_cons_self, rfl⟩
    · obtain ⟨p, hp, hrp⟩ := h.refresh r hr
      exact ⟨p, List.mem_cons_of_mem _ hp, hrp⟩
  · intro r hr hc
    rcases List.mem_cons.mp hr with rfl | hr
    · exact ⟨pair, latest_self, rfl⟩
    · obtain ⟨p, hp, htoken⟩ := h.current r hr hc
      obtain ⟨hmem, hf⟩ := latest_some hp
      exact ⟨p, hf ▸ hold (hf ▸ hp), htoken⟩
  · rintro p hp ⟨r, hr, hf⟩
    rcases List.mem_cons.mp hp with rfl | hp
    · exact ⟨p.refresh, List.mem_cons_self, rfl⟩
    · rcases List.mem_cons.mp hr with rfl | hr
      · exact absurd hf.symm (hnew p hp)
      · obtain ⟨r', hr', htoken⟩ := h.whole p hp ⟨r, hr, hf⟩
        exact ⟨r', List.mem_cons_of_mem _ hr', htoken⟩

/-- The claimed row. -/
theorem claimable_some (h : db.claimable token now = some r) :
    r ∈ db.refresh ∧ r.token = token ∧ r.consumedAt = none ∧ r.expiresAt.all (now ≤ ·) := by
  have hsome := List.find?_some h
  exact ⟨List.mem_of_find?_eq_some h, of_decide_eq_true hsome⟩

theorem Rows.consume (h : Rows db (pairs log)) (hlog : Founded log)
    (hclaim : db.claimable token now = some r) (hf : r.familyId = pair.familyId) :
    Rows (db.consume token now pair) (pair :: pairs log) := by
  obtain ⟨hr, rfl, hlive, hexp⟩ := claimable_some hclaim
  obtain ⟨p, hp, hptoken⟩ := h.current r hr hlive
  -- of the family only the row of `p` is not consumed, and only its access token is stored
  have hlatest : ∀ q, latest (pairs log) q.familyId = some q → q.familyId = pair.familyId → q = p := by
    intro q hq hqf
    rw [hqf, ← hf, hp] at hq
    exact (Option.some.inj hq).symm
  constructor
  · intro a ha
    rcases List.mem_cons.mp ha with rfl | ha
    · exact ⟨pair, latest_self, rfl⟩
    · obtain ⟨ha, hne⟩ := mem_deleteWhere.mp ha
      obtain ⟨q, hq, rfl⟩ := h.access a ha
      refine ⟨q, ?_, rfl⟩
      rw [latest_of_ne fun heq => ?_]
      · exact hq
      · obtain rfl := hlatest q hq heq.symm
        exact of_decide_eq_false hne (congrArg some hptoken)
  · intro r' hr'
    rcases List.mem_cons.mp hr' with rfl | hr'
    · exact ⟨pair, List.mem_cons_self, rfl⟩
    · rcases mem_updateWhere.mp hr' with ⟨x, hx, _, rfl⟩ | ⟨hr', _⟩
      · obtain ⟨q, hq, hxq⟩ := h.refresh x hx
        exact ⟨q, List.mem_cons_of_mem _ hq, by rw [hxq]⟩
      · obtain ⟨q, hq, hrq⟩ := h.refresh r' hr'
        exact ⟨q, List.mem_cons_of_mem _ hq, hrq⟩
  · intro r' hr' hc
    rcases List.mem_cons.mp hr' with rfl | hr'
    · exact ⟨pair, latest_self, rfl⟩
    · rcases mem_updateWhere.mp hr' with ⟨x, _, _, rfl⟩ | ⟨hr', hsel⟩
      · cases hc
      · obtain ⟨q, hq, hqtoken⟩ := h.current r' hr' hc
        refine ⟨q, ?_, hqtoken⟩
        rw [latest_of_ne fun heq => ?_]
        · exact hq
        · rw [← heq, ← hf, hp] at hq
          cases hq
          refine of_decide_eq_false hsel ⟨hqtoken.symm.trans hptoken, hc, ?_⟩
          rw [← (h.same hlog hr hr' (hf.trans heq)).2]
          exact hexp
  · rintro q hq ⟨r', hr', hqf⟩
    rcases List.mem_cons.mp hq with rfl | hq
    · exact ⟨q.refresh, List.mem_cons_self, rfl⟩
    · have halive : Alive db q.familyId := by
        rcases List.mem_cons.mp hr' with rfl | hr'
        · exact ⟨r, hr, hf.trans hqf⟩
        · rcases mem_updateWhere.mp hr' with ⟨x, hx, _, rfl⟩ | ⟨hr', _⟩
          · exact ⟨x, hx, hqf⟩
          · exact ⟨r', hr', hqf⟩
      obtain ⟨x, hx, htoken⟩ := h.whole q hq halive
      refine ⟨if _ then _ else x, List.mem_cons_of_mem _ (List.mem_map_of_mem hx), ?_⟩
      split <;> exact htoken

end
end Kajet.OAuth
