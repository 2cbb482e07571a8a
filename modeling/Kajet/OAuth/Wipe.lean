import Kajet.OAuth.Effect

/-!
# The credential wipe

`delete_credentials_by_user` deletes the codes and tokens of a user.  An exchange that has already
consumed its code holds no row, and stores its pair after the wipe.

* `Wiped`             no stored token of the user goes back to before the wipe;
* `NoneIssuing`       no exchange of the user is between its two transactions at a wipe;
* `Since`             the invariant behind one wipe (`Since.effect`);
* `wipe_complete`     the runs whose wipes meet no such exchange;
* `wipe_outlived`     the run in which a pair is stored after the wipe.
-/

namespace Kajet.OAuth
open Table Machine

/-- The code or refresh token is part of the history. -/
def Existed (log : List Happened) : Source → Prop
  | .code c => c ∈ codes log
  | .refresh token => ∃ q ∈ pairs log, q.refreshToken = token

/-- After the deletion, no stored token of the user was minted from what existed before. -/
structure Wiped (s : State) : Prop where
  access : ∀ later earlier u, s.log = later ++ .wiped u :: earlier → ∀ a ∈ s.db.access,
    a.userId = some u → ∀ source p, .minted source p ∈ s.log → p.accessToken = a.token →
      ¬ Existed earlier source
  refresh : ∀ later earlier u, s.log = later ++ .wiped u :: earlier → ∀ r ∈ s.db.refresh,
    r.userId = some u → ∀ source p, .minted source p ∈ s.log → p.refreshToken = r.token →
      ¬ Existed earlier source

/-- The call has consumed a code of the user and is about to store a pair. -/
def Call.issuesFor (userId : String) : Call → Bool
  | .issueTokenPair _ _ u => u = userId
  | _ => false

def NoneIssuing (s : State) : Op → Prop
  | .deleteCredentialsByUser userId => ∀ call ∈ s.calls, call.issuesFor userId = false
  | _ => True

instance (s : State) : (op : Op) → Decidable (NoneIssuing s op)
  | .deleteCredentialsByUser _ => inferInstanceAs (Decidable (∀ call ∈ _, _ = _))
  | .completeAuthorization .. | .loadAuthorizationCode .. | .loadRefreshToken .. => isTrue trivial
  | .loadAccessToken .. | .revokeAccessToken _ | .revokeRefreshToken _ | .run _ => isTrue trivial
  | .issueTokenPair .. | .exchangeRefresh .. | .abandon _ => isTrue trivial
  | .deleteExpiredTokens _ => isTrue trivial

/-! ## behind one wipe -/

/-- A token of the pair is stored. -/
def Stored (db : Db) (p : OAuthTokenPair) : Prop :=
  (∃ a ∈ db.access, a.token = p.accessToken) ∨ ∃ r ∈ db.refresh, r.token = p.refreshToken

/-- What there is of the user has come since the wipe: `later` is the history since then. -/
structure Since (s : State) (u : String) (later : List Happened) : Prop where
  codes : ∀ c ∈ s.db.codes, c.userId = some u → c ∈ codes later
  rows : ∀ p ∈ pairs s.log, p.userId = u → Stored s.db p → p ∈ pairs later
  calls : ∀ clientId c, .issueTokenPair clientId c u ∈ s.calls → c ∈ OAuth.codes later
  sources : ∀ source p, .minted source p ∈ later → p.userId = u → Existed later source

section
variable {accessExpirySeconds : ℕ} {s t : State} {op : Op} {u : String}
  {later earlier log new : List Happened} {p : OAuthTokenPair} {source : Source}

theorem pairs_append : pairs (new ++ log) = pairs new ++ pairs log := List.filterMap_append
theorem codes_append : codes (new ++ log) = codes new ++ codes log := List.filterMap_append

theorem Existed.mono (h : Existed log source) : Existed (new ++ log) source := by
  cases source with
  | code c =>
    show c ∈ codes (new ++ log)
    rw [codes_append]
    exact List.mem_append_right _ h
  | refresh token =>
    obtain ⟨q, hq, htoken⟩ := h
    refine ⟨q, ?_, htoken⟩
    rw [pairs_append]
    exact List.mem_append_right _ hq

/-- Nothing exists twice. -/
theorem Hist.existed_once {used : List String} (h : Hist log used)
    (hlog : log = later ++ .wiped u :: earlier) (hlater : Existed later source) :
    ¬ Existed earlier source := by
  have hwiped : pairs (.wiped u :: earlier) = pairs earlier ∧ codes (.wiped u :: earlier) = codes earlier :=
    ⟨rfl, rfl⟩
  cases source with
  | code c =>
    have hnodup := h.code
    rw [hlog, codes_append, hwiped.2, List.map_append] at hnodup
    exact fun hearlier => List.disjoint_of_nodup_append hnodup (List.mem_map_of_mem hlater)
      (List.mem_map_of_mem hearlier)
  | refresh token =>
    have hnodup := h.refresh
    rw [hlog, pairs_append, hwiped.1, List.map_append] at hnodup
    obtain ⟨q, hq, rfl⟩ := hlater
    rintro ⟨q', hq', heq⟩
    exact List.disjoint_of_nodup_append hnodup (List.mem_map_of_mem hq) (heq ▸ List.mem_map_of_mem hq')

/-- The last wipe of a longer history. -/
theorem split_new (h : new ++ log = later ++ .wiped u :: earlier) (hnew : .wiped u ∉ new) :
    ∃ later', later = new ++ later' ∧ log = later' ++ .wiped u :: earlier := by
  rcases List.append_eq_append_iff.mp h with ⟨later', hlater, hlog⟩ | ⟨rest, hnew', hrest⟩
  · exact ⟨later', hlater, hlog⟩
  · cases rest with
    | nil =>
      rw [List.append_nil] at hnew'
      exact ⟨[], by rw [hnew', List.append_nil], by rw [List.nil_append]; exact hrest.symm⟩
    | cons e rest =>
      rw [List.cons_append] at hrest
      injection hrest with he _
      exact absurd (hnew' ▸ List.mem_append_right _ (he ▸ List.mem_cons_self)) hnew

namespace Since
variable (h : Since s u later)
include h

variable (new) in
/-- Rows go, and marks are added. -/
theorem shrink (hlog : t.log = new ++ s.log) (hnew : ∀ e ∈ new, e.isMark = true)
    (hcodes : t.db.codes ⊆ s.db.codes) (hstored : ∀ p, Stored t.db p → Stored s.db p)
    (hcalls : ∀ clientId c, .issueTokenPair clientId c u ∈ t.calls →
      .issueTokenPair clientId c u ∈ s.calls) : Since t u (new ++ later) := by
  constructor
  · intro c hc hu
    rw [marks_codes hnew]
    exact h.codes c (hcodes hc) hu
  · intro p hp hu hs
    rw [hlog, marks_pairs hnew] at hp
    rw [marks_pairs hnew]
    exact h.rows p hp hu (hstored p hs)
  · intro clientId c hcall
    rw [marks_codes hnew]
    exact h.calls clientId c (hcalls clientId c hcall)
  · intro source p hp hu
    rcases List.mem_append.mp hp with hp | hp
    · cases hnew _ hp
    · exact (h.sources source p hp hu).mono

/-- A pair is minted, for the user only from what has come since. -/
theorem mint {pair : OAuthTokenPair} {src : Source} (hinv' : Inv t)
    (hlog : t.log = .minted src pair :: s.log) (hcodes : t.db.codes = s.db.codes)
    (hstored : ∀ p, Stored t.db p → Stored s.db p ∨ p.accessToken = pair.accessToken ∨
      p.refreshToken = pair.refreshToken)
    (hsrc : pair.userId = u → Existed later src) (hcalls : t.calls ⊆ s.calls) :
    Since t u ([.minted src pair] ++ later) := by
  have hpairs : pairs t.log = pair :: pairs s.log := by rw [hlog, pairs_minted]
  have hself : pair ∈ pairs t.log := hpairs ▸ List.mem_cons_self
  constructor
  · intro c hc hu
    rw [hcodes] at hc
    exact h.codes c hc hu
  · intro p hp hu hs
    rcases List.mem_cons.mp (hpairs ▸ hp) with rfl | hold
    · exact List.mem_cons_self
    · rcases hstored p hs with hs | heq | heq
      · exact List.mem_cons_of_mem _ (h.rows p hold hu hs)
      · exact hinv'.hist.eq_of_access hp hself heq ▸ List.mem_cons_self
      · exact hinv'.hist.eq_of_refresh hp hself heq ▸ List.mem_cons_self
  · exact fun clientId c hcall => h.calls clientId c (hcalls hcall)
  · intro source p hp hu
    rcases List.mem_cons.mp hp with heq | hp
    · cases heq
      exact (hsrc hu).mono
    · exact (h.sources source p hp hu).mono

end Since

theorem Shrinks.stored {db db' : Db} (hs : Shrinks db db') (h : Stored db' p) : Stored db p :=
  h.imp (fun ⟨a, ha, htoken⟩ => ⟨a, hs.access ha, htoken⟩)
    fun ⟨r, hr, htoken⟩ => ⟨r, hs.refresh hr, htoken⟩

/-! ## the steps -/

def AllSince (s : State) : Prop :=
  ∀ later earlier u, s.log = later ++ .wiped u :: earlier → Since s u later

variable (new) in
theorem AllSince.step (h : AllSince s) (hlog : t.log = new ++ s.log) (hnew : ∀ u, .wiped u ∉ new)
    (hstep : ∀ u later, Since s u later → Since t u (new ++ later)) : AllSince t := by
  intro later earlier u hsplit
  obtain ⟨later', rfl, hlog'⟩ := split_new (hlog ▸ hsplit) (hnew u)
  exact hstep u later' (h later' earlier u hlog')

variable (new) in
/-- A step that deletes, starts no exchange and adds no wipe. -/
theorem AllSince.shrink (h : AllSince s) (hdb : Shrinks s.db t.db) (hlog : t.log = new ++ s.log)
    (hnew : ∀ e ∈ new, ∃ f, e = .revoked f) (hcalls : t.calls ⊆ s.calls) : AllSince t := by
  refine h.step new hlog ?_ fun u later hu => hu.shrink new hlog ?_ hdb.codes.subset (fun p => hdb.stored)
    fun _ _ hcall => hcalls hcall
  · intro u hu
    obtain ⟨f, hf⟩ := hnew _ hu
    cases hf
  · intro e he
    obtain ⟨f, rfl⟩ := hnew e he
    rfl

/-- A stored code is the code that was issued under its value. -/
theorem Inv.code_eq (h : Inv s) {c c' : AuthCode} (hc : c ∈ codes s.log) (hc' : c' ∈ codes s.log)
    (heq : c.code = c'.code) : c = c' := List.inj_on_of_nodup_map h.hist.code hc hc' heq

/-- The wipe leaves nothing of the user, when no exchange holds a consumed code. -/
theorem wipe_since (hinv : Inv s) (hnone : NoneIssuing s (.deleteCredentialsByUser u)) :
    Since { s with db := s.db.deleteCredentialsByUser u, log := .wiped u :: s.log } u [] := by
  constructor
  · intro c hc hu
    exact absurd hu (of_decide_eq_false (mem_deleteWhere.mp hc).2)
  · intro p hp hu hs
    rcases hs with ⟨a, ha, htoken⟩ | ⟨r, hr, htoken⟩
    · obtain ⟨ha, hne⟩ := mem_deleteWhere.mp ha
      obtain ⟨_, rfl⟩ := hinv.rows.latest_access hp hinv.hist.access ha htoken
      exact absurd (congrArg some hu) (of_decide_eq_false hne)
    · obtain ⟨hr, hne⟩ := mem_deleteWhere.mp hr
      obtain ⟨q, hq, hrq⟩ := hinv.rows.refresh r hr
      obtain rfl := hinv.hist.eq_of_refresh hq hp (by rw [← htoken, hrq]; rfl)
      refine absurd ?_ (of_decide_eq_false hne)
      rw [hrq]
      exact congrArg some hu
  · intro clientId c hcall
    exact absurd rfl (of_decide_eq_false (hnone _ hcall))
  · exact fun _ _ hp => nomatch hp

theorem effect_since (h : AllSince s) (hinv : Inv s) (hnone : NoneIssuing s op)
    (he : Effect accessExpirySeconds s op t) : AllSince t := by
  have hinv' := effect_inv hinv he
  cases he with
  | @read _ cs call hcs hcall =>
    refine h.step [] rfl (fun _ hu => nomatch hu) fun u later hu => ?_
    refine hu.shrink [] rfl (fun _ he => nomatch he) (fun _ hc => hc) (fun _ hs => hs) ?_
    intro clientId c hmem
    rcases List.mem_append.mp hmem with hnew | hold
    · exact (hcall _ (Option.mem_toList.mp hnew)).elim
    · exact hcs.subset hold
  | @issue _ c hfresh =>
    refine h.step [.issued c] rfl (fun _ hu => nomatch List.mem_singleton.mp hu) ?_
    intro u later hu
    refine ⟨fun x hx hxu => ?_, fun p hp hpu hs => hu.rows p hp hpu hs, fun clientId x hcall => ?_, ?_⟩
    · rcases List.mem_cons.mp hx with rfl | hx
      · exact List.mem_cons_self
      · exact List.mem_cons_of_mem _ (hu.codes x hx hxu)
    · exact List.mem_cons_of_mem _ (hu.calls clientId x hcall)
    · intro source p hp hpu
      exact (hu.sources source p ((List.mem_cons.mp hp).resolve_left nofun) hpu).mono
  | @exchange _ cs clientId userId c hcs hcall hstored huser =>
    refine h.step [] rfl (fun _ hu => nomatch hu) fun u later hu => ?_
    refine ⟨fun x hx => hu.codes x (List.mem_of_mem_filter hx), hu.rows, ?_, hu.sources⟩
    intro clientId' c' hmem
    rcases List.mem_cons.mp hmem with heq | hold
    · cases heq
      -- the row that was deleted is the code of the call
      obtain ⟨x, hx, hcode⟩ := hstored
      obtain rfl := hinv.code_eq (hinv.stored x hx) (hinv.calls _ hcall).1 hcode
      exact hu.codes x hx huser
    · exact hu.calls clientId' c' (hcs.subset hold)
  | deleteCode hcs =>
    exact h.shrink [] (deleteAuthCode_shrinks _ _) rfl (fun _ he => nomatch he) hcs.subset
  | dropAccess hcs =>
    exact h.shrink [] (deleteAccessToken_shrinks _ _) rfl (fun _ he => nomatch he) hcs.subset
  | @revokeFamily _ cs f hcs _ =>
    refine h.shrink [.revoked f] (deleteFamily_shrinks _ _) rfl ?_ hcs.subset
    exact fun _ he => ⟨f, List.mem_singleton.mp he⟩
  | revokeAccess hcs _ =>
    refine h.shrink _ (deleteAccessToken_shrinks _ _) rfl ?_ hcs.subset
    intro e he
    obtain ⟨f, _, rfl⟩ := Option.map_eq_some_iff.mp (Option.mem_toList.mp he)
    exact ⟨f, rfl⟩
  | @first _ cs clientId userId _ _ _ c _ pair hcs _ hpair =>
    refine h.step [.minted (.code c) pair] rfl (fun _ hu => nomatch List.mem_singleton.mp hu) ?_
    refine fun u later hu => hu.mint hinv' rfl rfl ?_ ?_ ?_
    · rintro p (⟨a, ha, htoken⟩ | ⟨r, hr, htoken⟩)
      · rcases List.mem_cons.mp ha with rfl | ha
        · exact .inr (.inl htoken.symm)
        · exact .inl (.inl ⟨a, ha, htoken⟩)
      · rcases List.mem_cons.mp hr with rfl | hr
        · exact .inr (.inr htoken.symm)
        · exact .inl (.inr ⟨r, hr, htoken⟩)
    · intro hpu
      rw [hpair] at hpu
      have hcall : Call.issueTokenPair clientId c u ∈ s.calls := by
        rw [← hpu]
        exact hcs.mem_iff.mpr List.mem_cons_self
      exact hu.calls clientId c hcall
    · exact fun x hx => hcs.mem_iff.mpr (List.mem_cons_of_mem _ hx)
  | @rotate _ cs clientId _ _ _ token now pair r hcs hcall _ _ hpair hclaim _ =>
    refine h.step [.minted (.refresh token.token) pair] rfl
      (fun _ hu => nomatch List.mem_singleton.mp hu) ?_
    refine fun u later hu => hu.mint hinv' rfl rfl ?_ ?_ hcs.subset
    · rintro p (⟨a, ha, htoken⟩ | ⟨x, hx, htoken⟩)
      · rcases List.mem_cons.mp ha with rfl | ha
        · exact .inr (.inl htoken.symm)
        · exact .inl (.inl ⟨a, (mem_deleteWhere.mp ha).1, htoken⟩)
      · rcases List.mem_cons.mp hx with rfl | hx
        · exact .inr (.inr htoken.symm)
        · rcases mem_updateWhere.mp hx with ⟨y, hy, _, rfl⟩ | ⟨hx, _⟩
          · exact .inl (.inr ⟨y, hy, htoken⟩)
          · exact .inl (.inr ⟨x, hx, htoken⟩)
    · intro hpu
      obtain ⟨q, hq, _, rfl⟩ := hinv.calls _ hcall
      obtain ⟨hr, hrt, _⟩ := claimable_some hclaim
      rw [hpair] at hpu
      exact ⟨q, hu.rows q hq hpu (.inr ⟨r, hr, hrt⟩), rfl⟩
  | @wipe userId =>
    have hshrinks := hinv.rows.deleteCredentialsByUser hinv.hist.founded userId
    intro later earlier u hsplit
    cases later with
    | nil =>
      injection hsplit with hu _
      cases hu
      exact wipe_since hinv hnone
    | cons e later =>
      injection hsplit with he hlog
      subst he
      refine (h later earlier u hlog).shrink [.wiped userId] rfl ?_ hshrinks.codes.subset
        (fun p => hshrinks.stored) fun _ _ hcall => hcall
      exact fun _ he => List.mem_singleton.mp he ▸ rfl
  | sweep =>
    exact h.shrink [] (hinv.rows.deleteExpiredTokens hinv.hist.founded _) rfl
      (fun _ he => nomatch he) fun _ hx => hx

theorem Inv.wiped (hinv : Inv s) (h : AllSince s) : Wiped s := by
  have hsince : ∀ later earlier u, s.log = later ++ .wiped u :: earlier → ∀ source p,
      .minted source p ∈ s.log → p.userId = u → Stored s.db p → ¬ Existed earlier source := by
    intro later earlier u hlog source p hp hu hs
    have hu' := h later earlier u hlog
    obtain ⟨source', hlater⟩ := mem_pairs.mp (hu'.rows p (mem_pairs.mpr ⟨_, hp⟩) hu hs)
    have hunique : UniqueOn Happened.pair? s.log := hinv.hist.access.of_map
    have hlater' : .minted source' p ∈ s.log := by
      rw [hlog]
      exact List.mem_append_left _ hlater
    cases hunique.eq hp hlater' (k := p) rfl rfl
    exact hinv.hist.existed_once hlog (hu'.sources source p hlater hu)
  constructor
  · intro later earlier u hlog a ha hau source p hp htoken
    obtain ⟨_, rfl⟩ := hinv.rows.latest_access (mem_pairs.mpr ⟨_, hp⟩) hinv.hist.access ha htoken.symm
    exact hsince later earlier u hlog source p hp (Option.some.inj hau) (.inl ⟨_, ha, rfl⟩)
  · intro later earlier u hlog r hr hru source p hp htoken
    obtain ⟨q, hq, hrq⟩ := hinv.rows.refresh r hr
    obtain rfl := hinv.hist.eq_of_refresh (mem_pairs.mpr ⟨_, hp⟩) hq (by rw [htoken, hrq]; rfl)
    rw [hrq] at hru
    exact hsince later earlier u hlog source p hp (Option.some.inj hru) (.inr ⟨r, hr, htoken.symm⟩)

theorem reach_since (h : (oauth accessExpirySeconds).Reach NoneIssuing s) : Inv s ∧ AllSince s :=
  h.inv (P := fun s => Inv s ∧ AllSince s)
    (fun s (hs : s = State.empty) => hs ▸ ⟨empty_inv, fun later _ _ hlog =>
      absurd hlog.symm (List.append_ne_nil_of_right_ne_nil later (List.cons_ne_nil _ _))⟩)
    fun _ _ _ _ h hnone hstep =>
      ⟨effect_inv h.1 (step_effect hstep), effect_since h.2 h.1 hnone (step_effect hstep)⟩

theorem wipe_complete (h : (oauth accessExpirySeconds).Reach NoneIssuing s) : Wiped s :=
  (reach_inv h).wiped (reach_since h).2

end

/-! ## an exchange and a wipe -/

def oldCode : AuthCode := ⟨"c", "client", some "u", ["read"], 300⟩
def newPair : OAuthTokenPair := ⟨"a", "r", "client", "u", ["read"], 3600, 2592000, "f"⟩

/-- The exchange has consumed its code. -/
def exchanging : List Op :=
  [.completeAuthorization "c" "client" (some "u") ["read"] 300,
    .loadAuthorizationCode "client" "c" 0, .run 0]

theorem wipe_complete_stored : ∃ s, Wiped s ∧ .wiped "u" ∈ s.log ∧ s.db.access = [] := by
  obtain ⟨s, hs, hview⟩ := Option.map_eq_some_iff.mp (show ((oauth 3600).exec State.empty
    (exchanging ++ [.issueTokenPair 0 "a" "r" "f" 0, .deleteCredentialsByUser "u"])).map
      (fun s => decide (.wiped "u" ∈ s.log ∧ s.db.access = [])) = some true by decide +kernel)
  obtain ⟨hlog, haccess⟩ := of_decide_eq_true hview
  exact ⟨s, wipe_complete (.of_guarded (.start rfl) (by decide +kernel) hs), hlog, haccess⟩

/-- The wipe comes between the two transactions of the exchange: the user has a new access token,
minted from a code that was issued before the wipe. -/
theorem wipe_outlived : ∃ s, (oauth 3600).Reach free s ∧
    s.log = [.minted (.code oldCode) newPair] ++ .wiped "u" :: [.issued oldCode] ∧
    newPair.access ∈ s.db.access ∧ Existed [.issued oldCode] (.code oldCode) ∧ ¬ Wiped s := by
  obtain ⟨s, hs, hview⟩ := Option.map_eq_some_iff.mp (show ((oauth 3600).exec State.empty
    (exchanging ++ [.deleteCredentialsByUser "u", .issueTokenPair 0 "a" "r" "f" 0])).map
      (fun s => (s.log, s.db.access)) = some
        ([.minted (.code oldCode) newPair, .wiped "u", .issued oldCode], [newPair.access]) by
      decide +kernel)
  obtain ⟨hlog, haccess⟩ := Prod.mk.inj hview
  have hmem : newPair.access ∈ s.db.access := by
    rw [haccess]
    exact List.mem_cons_self
  have hold : Existed [.issued oldCode] (.code oldCode) := List.mem_cons_self
  refine ⟨s, .of_exec (.start rfl) hs, hlog, hmem, hold, fun hwiped => ?_⟩
  refine hwiped.access [.minted (.code oldCode) newPair] [.issued oldCode] "u" hlog _ hmem rfl _ newPair
    ?_ rfl hold
  rw [hlog]
  exact List.mem_cons_self

end Kajet.OAuth
