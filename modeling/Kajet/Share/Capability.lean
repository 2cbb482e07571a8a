import Kajet.Teardown.Runs
import Mathlib.Data.List.Sort

/-!
# Share links

A share link is a token that gives whoever has it read access to one note, until it is revoked or the note is
torn down.  A public read takes several transactions, and everything else happens in between.

* `resolve`, `listActiveWithVisitSummary`   what the repository answers from its rows;
* `Op`, `sharing`      the transactions of the services, and the requests for a token, transaction by transaction;
* `Event`, `kept`      what has happened, and the visits that the sweeps have left of it;
* `share_capability`   a token resolves exactly between its creation and its withdrawal; whatever is shown is the
                       sharer's note, for a token that was live when the request came in; and the owner is shown
                       exactly the reads that were served.
-/

namespace Kajet.Share
open Table Str Tags Teardown Machine

/-! ## the repository -/

def resolve (shares : List ShareLink) (token : String) : Option ShareLink :=
  (row ShareLink.token shares token).filter fun l => l.revokedAt = none

structure Summary where
  link : ShareLink
  visitCount : ℕ
  lastVisitedAt : Option String
  pageViewCount : ℕ
  lastPageViewedAt : Option String
deriving DecidableEq

/-- `max` of the rows of a group -/
def latest (visits : List Visit) : Option String :=
  (visits.map Visit.createdAt).foldl (fun best at_ => some (best.elim at_ fun b => if b < at_ then at_ else b)) none

def Summary.of (visits : List Visit) (link : ShareLink) : Summary :=
  let mine := visits.filter fun v => v.token = link.token
  let content := mine.filter fun v => v.kind = "content"
  let page := mine.filter fun v => v.kind = "page"
  ⟨link, content.length, latest content, page.length, latest page⟩

theorem Summary.of_congr {visits visits' : List Visit} {link : ShareLink}
    (h : visits.filter (·.token = link.token) = visits'.filter (·.token = link.token)) :
    Summary.of visits link = Summary.of visits' link := by
  rw [Summary.of, Summary.of, h]

section
variable {ν : Type} (db : Teardown.Db ν)

def activeLinks (noteId : String) : List ShareLink :=
  (db.shares.filter fun l => l.noteId = noteId ∧ l.revokedAt = none).insertionSort fun a b => a.createdAt ≤ b.createdAt

def listActiveWithVisitSummary (noteId : String) : List Summary :=
  (activeLinks db noteId).map (Summary.of db.visits)

/-- the next value of an integer primary key -/
def nextVisitId : ℕ := (db.visits.map Visit.id).foldl max 0 + 1

end

/-! ## requests -/

/-- The routes that take a token: the JSON of a note, and the preview page (which answers a HEAD too). -/
inductive Route where
  | content | page | pageHead
deriving DecidableEq

/-- The kind of visit that a served request records. -/
def Route.kind : Route → Option String
  | .content => some "content"
  | .page => some "page"
  | .pageHead => none

structure Request where
  route : Route
  link : ShareLink
  read : Option Note
deriving DecidableEq

inductive Event where
  | created (token noteId : String) (scope : Scope)
  | withdrawn (token : String)
  | swept (cutoff : String)
  /-- a request for the token has found its link -/
  | opened (token : String)
  /-- it has read the note -/
  | shown (token : String) (note : Note)
  | served (visit : Visit)
deriving DecidableEq

/-- the token that comes into being -/
def Event.creates : Event → Option String
  | .created token _ _ => some token
  | _ => none

/-- The newest event is the first. -/
structure State (ν : Type) where
  db : Teardown.Db ν
  requests : List Request
  log : List Event
deriving DecidableEq

inductive Op (ν : Type) where
  /-- a transaction of a service -/
  | transact (op : Teardown.Op ν)
  | get (route : Route) (token : String)
  /-- `get_with_content`; `found`: the file is there -/
  | read (i : ℕ) (found : Bool)
  | answer (i : ℕ) (ip userAgent : Option String) (now : String)

section
variable {ν : Type}

/-- What a transaction that is committed does to the tokens. -/
def happened (db : Teardown.Db ν) : Teardown.Op ν → List Event
  | .createShare token noteId scope _ _ => [.created token noteId scope]
  | .revoke ownerId noteId token _ => if db.shares.any (ShareLink.mine ownerId noteId token) then [.withdrawn token] else []
  | .deleteNotes _ notes =>
    ((db.shares.filter fun l => notes.any fun n => l.noteId = n.id).map ShareLink.token).map .withdrawn
  | .clearWorkspaceData scope => ((db.shares.filter fun l => l.scope = scope).map ShareLink.token).map .withdrawn
  | .sweepVisits cutoff => [.swept cutoff]
  | _ => []

/-- `NoteRepository.get` -/
def noteOf (db : Teardown.Db ν) (l : ShareLink) : Option Note :=
  db.notes.find? fun n => n.id = l.noteId ∧ n.scope.ownerId = l.scope.ownerId

def finish (s : State ν) (i : ℕ) : State ν := { s with requests := s.requests.eraseIdx i }

/-- A request without its link or its note ends (404, or the neutral page); one whose visit cannot be recorded
raises, and nothing is served. -/
def next [DecidableEq ν] (s : State ν) : Op ν → Option (State ν)
  | .transact (.recordVisit _) => none
  | .transact op =>
    if op.possible s.db then
      match Teardown.run s.db op with
      | none => some s
      | some db => some { s with db := db, log := happened s.db op ++ s.log }
    else none
  | .get route token =>
    match resolve s.db.shares token with
    | none => some s
    | some l => some { s with requests := s.requests ++ [⟨route, l, none⟩], log := .opened token :: s.log }
  | .read i found => do
    let r ← s.requests[i]?
    match r.read, noteOf s.db r.link with
    | some _, _ => none
    | none, none => some (finish s i)
    | none, some n =>
      if found then
        some { s with requests := s.requests.set i { r with read := some n }, log := .shown r.link.token n :: s.log }
      else some (finish s i)
  | .answer i ip userAgent now => do
    let r ← s.requests[i]?
    let _ ← r.read
    match r.route.kind with
    | none => some (finish s i)
    | some kind =>
      let visit : Visit := ⟨nextVisitId s.db, kind, r.link.token, ip, userAgent, now⟩
      match Teardown.run s.db (.recordVisit visit) with
      | none => some (finish s i)
      | some db => some { finish s i with db := db, log := .served visit :: s.log }

def start : State ν := ⟨Db.empty, [], []⟩

def sharing (ν : Type) [DecidableEq ν] : Machine (State ν) (Op ν) where
  start s := s = start
  next := next

/-- Tokens are 32 random bytes: none comes twice. -/
def Fresh (log : List Event) : Teardown.Op ν → Prop
  | .createShare token .. => ∀ e ∈ log, e.creates ≠ some token
  | _ => True

/-- The targets of the services are authorized, and tokens are fresh. -/
def Granted (s : State ν) : Op ν → Prop
  | .transact op => Own s.db op ∧ Fresh s.log op
  | _ => True

instance (log : List Event) : (op : Teardown.Op ν) → Decidable (Fresh log op)
  | .createShare token .. => inferInstanceAs (Decidable (∀ e ∈ log, e.creates ≠ some token))
  | .insertNote _ | .syncNoteTags .. | .sweepOrphanTags _ | .persistLinks .. | .replaceChunks .. => isTrue trivial
  | .attachVectors .. | .revoke .. | .setPreviewDescription .. | .recordVisit _ | .sweepVisits _ => isTrue trivial
  | .deleteNotes .. | .clearWorkspaceData _ => isTrue trivial

instance [DecidableEq ν] (s : State ν) : (op : Op ν) → Decidable (Granted s op)
  | .transact op => inferInstanceAs (Decidable (Own s.db op ∧ Fresh s.log op))
  | .get .. | .read .. | .answer .. => isTrue trivial

end

/-! ## what has happened -/

/-- What an event says of the events before it. -/
def Event.Justified (earlier : List Event) : Event → Prop
  | .withdrawn token => ∃ noteId scope, .created token noteId scope ∈ earlier
  | .opened token => (∃ noteId scope, .created token noteId scope ∈ earlier) ∧ .withdrawn token ∉ earlier
  | .shown token note => .opened token ∈ earlier ∧
      ∃ scope, .created token note.id scope ∈ earlier ∧ scope.ownerId = note.scope.ownerId
  | .served visit => ∃ note, .shown visit.token note ∈ earlier
  | .created .. | .swept _ => True

def Explained (log : List Event) : Prop :=
  ∀ later e earlier, log = later ++ e :: earlier → e.Justified earlier

/-- The visits of a log that no later sweep has deleted. -/
def kept : List Event → List Visit
  | [] => []
  | .served visit :: log => kept log ++ [visit]
  | .swept cutoff :: log => deleteWhere (fun v => v.createdAt < cutoff) (kept log)
  | _ :: log => kept log

section
variable {log earlier : List Event} {e : Event}

theorem Explained.cons (h : Explained log) (he : e.Justified log) : Explained (e :: log) := by
  intro later x earlier heq
  cases later with
  | nil =>
    obtain ⟨rfl, rfl⟩ := List.cons.inj heq
    exact he
  | cons y later => exact h later x earlier (List.cons.inj heq).2

theorem Event.Justified.withdrawn {token : String} (h : Event.Justified earlier (.withdrawn token)) (later : List Event) :
    Event.Justified (later ++ earlier) (.withdrawn token) := by
  obtain ⟨noteId, scope, hcreated⟩ := h
  exact ⟨noteId, scope, List.mem_append_right _ hcreated⟩

theorem Explained.withdraw (h : Explained log) {tokens : List String}
    (hall : ∀ token ∈ tokens, Event.Justified log (.withdrawn token)) :
    Explained (tokens.map Event.withdrawn ++ log) := by
  induction tokens with
  | nil => exact h
  | cons token tokens ih =>
    exact (ih fun t ht => hall t (List.mem_cons_of_mem _ ht)).cons ((hall token List.mem_cons_self).withdrawn _)

theorem Explained.mem (h : Explained log) (he : e ∈ log) : ∃ earlier, e.Justified earlier ∧ earlier ⊆ log := by
  obtain ⟨later, earlier, rfl⟩ := List.append_of_mem he
  exact ⟨earlier, h later e earlier rfl, fun x hx => List.mem_append_right _ (List.mem_cons_of_mem _ hx)⟩

theorem kept_withdrawn (tokens : List String) : kept (tokens.map Event.withdrawn ++ log) = kept log := by
  induction tokens with
  | nil => rfl
  | cons token tokens ih => exact ih

theorem mem_kept {visit : Visit} (h : visit ∈ kept log) : .served visit ∈ log := by
  induction log with
  | nil => cases h
  | cons e log ih =>
    cases e with
    | served v =>
      rcases List.mem_append.mp h with h | h
      · exact List.mem_cons_of_mem _ (ih h)
      · exact List.mem_singleton.mp h ▸ List.mem_cons_self
    | swept cutoff => exact List.mem_cons_of_mem _ (ih (mem_deleteWhere.mp h).1)
    | created | withdrawn | opened | shown => exact List.mem_cons_of_mem _ (ih h)

/-- A visit was served for a token that was created. -/
theorem Explained.created_of_kept (h : Explained log) {visit : Visit} (hv : visit ∈ kept log) :
    ∃ noteId scope, .created visit.token noteId scope ∈ log := by
  obtain ⟨e₁, ⟨note, hshown⟩, h₁⟩ := h.mem (mem_kept hv)
  obtain ⟨e₂, ⟨_, scope, hcreated, _⟩, h₂⟩ := h.mem (h₁ hshown)
  exact ⟨note.id, scope, h₂ hcreated⟩

end

/-! ## the invariant -/

section
variable {ν : Type} {db db' : Teardown.Db ν} {s s' : State ν} {log : List Event}

/-- The rows of the share links and of the visits, against what has happened. -/
structure Kept (db : Teardown.Db ν) (log : List Event) : Prop where
  filed : Filed db
  tokens : Keyed ShareLink.token db.shares
  created : ∀ l ∈ db.shares, .created l.token l.noteId l.scope ∈ log
  live : ∀ l ∈ db.shares, l.revokedAt = none ↔ .withdrawn l.token ∉ log
  there : ∀ token noteId scope, .created token noteId scope ∈ log → .withdrawn token ∉ log →
    ∃ l ∈ db.shares, l.token = token ∧ l.noteId = noteId ∧ l.scope = scope
  explained : Explained log
  visits : ∀ l ∈ db.shares, db.visits.filter (·.token = l.token) = (kept log).filter (·.token = l.token)

/-- A request holds the link that it was opened with. -/
structure Request.Open (log : List Event) (r : Request) : Prop where
  opened : .opened r.link.token ∈ log
  created : .created r.link.token r.link.noteId r.link.scope ∈ log
  shown : ∀ n ∈ r.read, .shown r.link.token n ∈ log

structure Inv (s : State ν) : Prop where
  rows : Kept s.db s.log
  requests : ∀ r ∈ s.requests, r.Open s.log

theorem Request.Open.grow {r : Request} {log' : List Event} (h : r.Open log) (hsub : log ⊆ log') : r.Open log' :=
  ⟨hsub h.opened, hsub h.created, fun n hn => hsub (h.shown n hn)⟩

theorem Kept.resolve_eq (h : Kept db log) {token : String} {l : ShareLink} :
    resolve db.shares token = some l ↔ l ∈ db.shares ∧ l.token = token ∧ l.revokedAt = none := by
  rw [resolve, Option.filter_eq_some_iff, h.tokens.row_eq, decide_eq_true_eq, and_assoc]

theorem Kept.eq_of_token (h : Kept db log) {l l' : ShareLink} (hl : l ∈ db.shares) (hl' : l' ∈ db.shares)
    (htoken : l.token = l'.token) : l = l' := h.tokens.eq hl hl' htoken

/-- An event that is neither a creation, nor a withdrawal, nor a visit or a sweep. -/
theorem Kept.note (h : Kept db log) {e : Event} (he : e.Justified log) (hkept : kept (e :: log) = kept log)
    (hcreated : ∀ token noteId scope, e ≠ .created token noteId scope) (hwithdrawn : ∀ token, e ≠ .withdrawn token) :
    Kept db (e :: log) where
  filed := h.filed
  tokens := h.tokens
  created l hl := List.mem_cons_of_mem _ (h.created l hl)
  live l hl := by
    rw [h.live l hl, List.mem_cons, not_or]
    exact ⟨fun hout => ⟨fun heq => hwithdrawn _ heq.symm, hout⟩, And.right⟩
  there token noteId scope hin hout :=
    h.there token noteId scope ((List.mem_cons.mp hin).resolve_left fun heq => hcreated _ _ _ heq.symm)
      fun hmem => hout (List.mem_cons_of_mem _ hmem)
  explained := h.explained.cons he
  visits l hl := by rw [hkept, h.visits l hl]

/-- A transaction that leaves the share links and the visits. -/
theorem Kept.frame (h : Kept db log) (hfiled : Filed db') (hshares : db'.shares = db.shares)
    (hvisits : db'.visits = db.visits) : Kept db' log where
  filed := hfiled
  tokens := hshares ▸ h.tokens
  created := hshares ▸ h.created
  live := hshares ▸ h.live
  there := hshares ▸ h.there
  explained := h.explained
  visits := by
    rw [hshares, hvisits]
    exact h.visits

/-- A new token has neither a row, nor a visit, nor a past. -/
theorem Kept.create (h : Kept db log) {l : ShareLink} (hfiled : Filed db') (hshares : db'.shares = db.shares ++ [l])
    (hvisits : db'.visits = db.visits) (hlive : l.revokedAt = none)
    (hfresh : ∀ e ∈ log, e.creates ≠ some l.token) :
    Kept db' (.created l.token l.noteId l.scope :: log) := by
  have hnew : ∀ x ∈ db.shares, x.token ≠ l.token := fun x hx htoken =>
    hfresh _ (h.created x hx) (congrArg some htoken)
  have hpast : .withdrawn l.token ∉ log := fun hmem => by
    obtain ⟨earlier, ⟨noteId, scope, hcreated⟩, hsub⟩ := h.explained.mem hmem
    exact hfresh _ (hsub hcreated) rfl
  have hnone : (kept log).filter (·.token = l.token) = [] := by
    refine List.filter_eq_nil_iff.mpr fun v hv htoken => ?_
    obtain ⟨noteId, scope, hcreated⟩ := h.explained.created_of_kept hv
    exact hfresh _ hcreated (congrArg some (of_decide_eq_true htoken))
  have hrows : db.visits.filter (·.token = l.token) = [] := by
    refine List.filter_eq_nil_iff.mpr fun v hv htoken => ?_
    obtain ⟨x, hx, hxv⟩ := h.filed.intact.2.2.2.2 v hv
    exact hnew x hx (hxv.trans (of_decide_eq_true htoken))
  refine ⟨hfiled, hshares ▸ h.tokens.append hnew, fun x hx => ?_, fun x hx => ?_, fun token noteId scope hin hout => ?_,
    h.explained.cons trivial, fun x hx => ?_⟩
  · rw [hshares] at hx
    rcases List.mem_append.mp hx with hx | hx
    · exact List.mem_cons_of_mem _ (h.created x hx)
    · exact List.mem_singleton.mp hx ▸ List.mem_cons_self
  · rw [hshares] at hx
    rw [List.mem_cons, or_iff_right (fun heq => by cases heq)]
    rcases List.mem_append.mp hx with hx | hx
    · exact h.live x hx
    · obtain rfl := List.mem_singleton.mp hx
      exact iff_of_true hlive hpast
  · rw [hshares]
    rcases List.mem_cons.mp hin with heq | hin
    · obtain ⟨rfl, rfl, rfl⟩ := Event.created.inj heq
      exact ⟨l, List.mem_append_right _ List.mem_cons_self, rfl, rfl, rfl⟩
    · obtain ⟨x, hx, hsame⟩ := h.there token noteId scope hin fun hmem => hout (List.mem_cons_of_mem _ hmem)
      exact ⟨x, List.mem_append_left _ hx, hsame⟩
  · rw [hshares] at hx
    rw [hvisits]
    show _ = (kept log).filter _
    rcases List.mem_append.mp hx with hx | hx
    · exact h.visits x hx
    · rw [List.mem_singleton.mp hx, hrows, hnone]

/-- An update of share links that leaves their tokens, notes and scopes, and says what it withdraws. -/
theorem Kept.update (h : Kept db log) {p : ShareLink → Bool} {f : ShareLink → ShareLink} (tokens : List String)
    (hfiled : Filed db') (hshares : db'.shares = updateWhere p f db.shares) (hvisits : db'.visits = db.visits)
    (hf : ∀ l, (f l).token = l.token ∧ (f l).noteId = l.noteId ∧ (f l).scope = l.scope)
    (htokens : ∀ token ∈ tokens, ∃ l ∈ db.shares, l.token = token)
    (hsel : ∀ l ∈ db.shares, p l = true → ((f l).revokedAt = none ↔ l.revokedAt = none ∧ l.token ∉ tokens))
    (hrest : ∀ l ∈ db.shares, p l = false → l.token ∉ tokens) :
    Kept db' (tokens.map Event.withdrawn ++ log) := by
  have hback : ∀ x ∈ db'.shares, ∃ l ∈ db.shares, x.token = l.token ∧ x.noteId = l.noteId ∧ x.scope = l.scope ∧
      (x.revokedAt = none ↔ l.revokedAt = none ∧ l.token ∉ tokens) := by
    rw [hshares]
    intro x hx
    rcases mem_updateWhere.mp hx with ⟨l, hl, hp, rfl⟩ | ⟨hl, hp⟩
    · exact ⟨l, hl, (hf l).1, (hf l).2.1, (hf l).2.2, hsel l hl hp⟩
    · exact ⟨x, hl, rfl, rfl, rfl, (and_iff_left (hrest x hl hp)).symm⟩
  have hnew : ∀ token, .withdrawn token ∈ tokens.map Event.withdrawn ++ log ↔
      token ∈ tokens ∨ .withdrawn token ∈ log := fun token => by
    rw [List.mem_append, List.mem_map]
    exact or_congr_left ⟨fun ⟨t, ht, heq⟩ => Event.withdrawn.inj heq ▸ ht, fun ht => ⟨token, ht, rfl⟩⟩
  refine ⟨hfiled, hshares ▸ h.tokens.updateWhere fun l => (hf l).1, fun x hx => ?_, fun x hx => ?_,
    fun token noteId scope hin hout => ?_, h.explained.withdraw fun token ht => ?_, fun x hx => ?_⟩
  · obtain ⟨l, hl, htoken, hnote, hscope, _⟩ := hback x hx
    rw [htoken, hnote, hscope]
    exact List.mem_append_right _ (h.created l hl)
  · obtain ⟨l, hl, htoken, _, _, hrevoked⟩ := hback x hx
    rw [hrevoked, htoken, hnew, not_or, h.live l hl, and_comm]
  · rw [hnew, not_or] at hout
    have hold := (List.mem_append.mp hin).resolve_left fun hmem => by
      obtain ⟨t, _, heq⟩ := List.mem_map.mp hmem
      cases heq
    obtain ⟨l, hl, rfl, rfl, rfl⟩ := h.there token noteId scope hold hout.2
    rw [hshares]
    cases hp : p l with
    | true => exact ⟨f l, mem_updateWhere_of_sel hl hp, hf l⟩
    | false => exact ⟨l, mem_updateWhere_of_not hl hp, rfl, rfl, rfl⟩
  · obtain ⟨l, hl, rfl⟩ := htokens token ht
    exact ⟨l.noteId, l.scope, h.created l hl⟩
  · obtain ⟨l, hl, htoken, _⟩ := hback x hx
    rw [kept_withdrawn, hvisits, htoken, h.visits l hl]

theorem Kept.revoke (h : Kept db log) {ownerId noteId token now : String} (hfiled : Filed db')
    (hshares : db'.shares = updateWhere (ShareLink.mine ownerId noteId token) (fun s => { s with revokedAt := some now })
      db.shares) (hvisits : db'.visits = db.visits) :
    Kept db' (happened db (.revoke ownerId noteId token now) ++ log) := by
  simp only [happened]
  split
  · rename_i hany
    obtain ⟨l, hl, hmine⟩ := List.any_eq_true.mp hany
    have htoken := (of_decide_eq_true hmine).1
    refine h.update [token] hfiled hshares hvisits (fun _ => ⟨rfl, rfl, rfl⟩) (fun t ht => ?_) (fun x hx hp => ?_)
      fun x hx hp ht => ?_
    · exact ⟨l, hl, htoken.trans (List.mem_singleton.mp ht).symm⟩
    · have hx : x.token = token := (of_decide_eq_true hp).1
      exact iff_of_false (fun heq => by cases heq) fun hout => hout.2 (hx ▸ List.mem_cons_self)
    · rw [h.eq_of_token hx hl ((List.mem_singleton.mp ht).trans htoken.symm), hmine] at hp
      cases hp
  · rename_i hnone
    refine h.frame hfiled (hshares.trans (updateWhere_of_none fun l hl => ?_)) hvisits
    exact Bool.eq_false_iff.mpr fun hmine => hnone (List.any_eq_true.mpr ⟨l, hl, hmine⟩)

/-- The links of some notes go with their visits. -/
theorem Kept.purge (h : Kept db log) {p : ShareLink → Bool} (hfiled : Filed db')
    (hshares : db'.shares = deleteWhere p db.shares)
    (hvisits : db'.visits = deleteWhere (fun v => db.shares.any fun l => p l && l.token = v.token) db.visits) :
    Kept db' (((db.shares.filter p).map ShareLink.token).map Event.withdrawn ++ log) := by
  have hgone : ∀ token, .withdrawn token ∈ ((db.shares.filter p).map ShareLink.token).map Event.withdrawn ++ log ↔
      (∃ l ∈ db.shares, p l = true ∧ l.token = token) ∨ .withdrawn token ∈ log := fun token => by
    simp only [List.mem_append, List.mem_map, List.mem_filter, exists_eq_right, Event.withdrawn.injEq, and_assoc]
  have hstay : ∀ x ∈ db.shares, p x = false → ¬ ∃ l ∈ db.shares, p l = true ∧ l.token = x.token := by
    rintro x hx hp ⟨l, hl, hpl, htoken⟩
    rw [h.eq_of_token hl hx htoken, hp] at hpl
    cases hpl
  refine ⟨hfiled, hshares ▸ h.tokens.deleteWhere, fun x hx => ?_, fun x hx => ?_, fun token noteId scope hin hout => ?_,
    h.explained.withdraw fun token ht => ?_, fun x hx => ?_⟩
  · rw [hshares] at hx
    exact List.mem_append_right _ (h.created x (mem_deleteWhere.mp hx).1)
  · rw [hshares] at hx
    obtain ⟨hx, hp⟩ := mem_deleteWhere.mp hx
    rw [h.live x hx, hgone, or_iff_right (hstay x hx hp)]
  · rw [hgone, not_or] at hout
    have hold := (List.mem_append.mp hin).resolve_left fun hmem => by
      obtain ⟨t, _, heq⟩ := List.mem_map.mp hmem
      cases heq
    obtain ⟨l, hl, rfl, hsame⟩ := h.there token noteId scope hold hout.2
    refine ⟨l, hshares ▸ mem_deleteWhere.mpr ⟨hl, ?_⟩, rfl, hsame⟩
    exact Bool.eq_false_iff.mpr fun hp => hout.1 ⟨l, hl, hp, rfl⟩
  · obtain ⟨l, hl, rfl⟩ := List.mem_map.mp ht
    have hl := (List.mem_filter.mp hl).1
    exact ⟨l.noteId, l.scope, h.created l hl⟩
  · rw [hshares] at hx
    obtain ⟨hx, hp⟩ := mem_deleteWhere.mp hx
    rw [kept_withdrawn, ← h.visits x hx, hvisits, deleteWhere, List.filter_filter]
    refine List.filter_congr fun v _ => ?_
    by_cases htoken : v.token = x.token
    · have hnone : (db.shares.any fun l => p l && decide (l.token = v.token)) = false := by
        refine Bool.eq_false_iff.mpr fun hany => hstay x hx hp ?_
        obtain ⟨l, hl, hboth⟩ := List.any_eq_true.mp hany
        obtain ⟨hpl, hlv⟩ := Bool.and_eq_true_iff.mp hboth
        exact ⟨l, hl, hpl, (of_decide_eq_true hlv).trans htoken⟩
      rw [hnone]
      simp
    · rw [decide_eq_false htoken, Bool.false_and]

theorem Kept.sweepVisits (h : Kept db log) {cutoff : String} (hfiled : Filed db') (hshares : db'.shares = db.shares)
    (hvisits : db'.visits = deleteWhere (fun v => v.createdAt < cutoff) db.visits) : Kept db' (.swept cutoff :: log) where
  filed := hfiled
  tokens := hshares ▸ h.tokens
  created l hl := List.mem_cons_of_mem _ (h.created l (hshares ▸ hl))
  live l hl := by
    rw [h.live l (hshares ▸ hl), List.mem_cons, or_iff_right (fun heq => by cases heq)]
  there token noteId scope hin hout := by
    rw [hshares]
    exact h.there token noteId scope ((List.mem_cons.mp hin).resolve_left (fun heq => by cases heq))
      fun hmem => hout (List.mem_cons_of_mem _ hmem)
  explained := h.explained.cons trivial
  visits l hl := by
    have hl := h.visits l (hshares ▸ hl)
    show _ = (deleteWhere _ (kept log)).filter _
    rw [hvisits, deleteWhere, deleteWhere, List.filter_filter, List.filter_filter]
    simp only [Bool.and_comm (decide (_ = l.token)), ← List.filter_filter, hl]

theorem Kept.record (h : Kept db log) {visit : Visit} (hrun : Teardown.run db (.recordVisit visit) = some db')
    (hfiled : Filed db') (hshown : ∃ note, .shown visit.token note ∈ log) : Kept db' (.served visit :: log) := by
  simp only [Teardown.run] at hrun
  split at hrun
  · cases hrun
  · obtain ⟨_, rfl⟩ := some_of_checked hrun
    refine ⟨hfiled, h.tokens, fun l hl => List.mem_cons_of_mem _ (h.created l hl), fun l hl => ?_,
      fun token noteId scope hin hout => ?_, h.explained.cons hshown, fun l hl => ?_⟩
    · rw [h.live l hl, List.mem_cons, or_iff_right (fun heq => by cases heq)]
    · exact h.there token noteId scope ((List.mem_cons.mp hin).resolve_left (fun heq => by cases heq))
        fun hmem => hout (List.mem_cons_of_mem _ hmem)
    · show (db.visits ++ [visit]).filter _ = (kept log ++ [visit]).filter _
      rw [List.filter_append, List.filter_append, h.visits l hl]

/-- One committed transaction of the services. -/
theorem Kept.transact [DecidableEq ν] (h : Kept db log) {op : Teardown.Op ν} (hvisit : ∀ visit, op ≠ .recordVisit visit)
    (hpossible : op.possible db) (hown : Own db op) (hfresh : Fresh log op) (hrun : Teardown.run db op = some db') :
    Kept db' (happened db op ++ log) := by
  have hfiled := h.filed.run hpossible hown hrun
  cases op with
  | insertNote note =>
    simp only [Teardown.run] at hrun
    split at hrun
    · cases hrun
    · cases hrun
      exact h.frame hfiled rfl rfl
  | syncNoteTags scope generated now taggedByNote =>
    simp only [Teardown.run] at hrun
    split at hrun
    · cases hrun
    · obtain ⟨_, rfl⟩ := some_of_checked hrun
      exact h.frame hfiled rfl rfl
  | sweepOrphanTags scope =>
    obtain ⟨tags, hsweep, -⟩ := h.filed.sweep scope
    cases hsweep.symm.trans hrun
    exact h.frame hfiled rfl rfl
  | persistLinks scope resolutions clearSourceIds =>
    cases hrun
    obtain ⟨links, dangling, heq⟩ := persistMany_eq db scope resolutions clearSourceIds
    rw [heq] at hfiled ⊢
    exact h.frame hfiled rfl rfl
  | replaceChunks a ids dims =>
    simp only [Teardown.run] at hrun
    split at hrun
    · cases hrun
    · cases hrun
      exact h.frame hfiled rfl rfl
  | attachVectors a rows dims =>
    simp only [Teardown.run] at hrun
    split at hrun
    · cases hrun
    · cases hrun
      exact h.frame hfiled rfl rfl
  | createShare token noteId scope now previewDescription =>
    simp only [Teardown.run] at hrun
    split at hrun
    · cases hrun
    · obtain ⟨_, rfl⟩ := some_of_checked hrun
      exact @Kept.create _ _ _ _ h ⟨token, noteId, scope, now, none, previewDescription⟩ hfiled rfl rfl rfl hfresh
  | revoke ownerId noteId token now =>
    cases hrun
    exact h.revoke hfiled rfl rfl
  | setPreviewDescription ownerId noteId token value =>
    cases hrun
    refine h.update [] hfiled rfl rfl (fun _ => ⟨rfl, rfl, rfl⟩)
      (fun _ htoken => (List.not_mem_nil htoken).elim) ?_ ?_
    · exact fun l _ _ => (and_iff_left List.not_mem_nil).symm
    · exact fun l _ _ => List.not_mem_nil
  | recordVisit visit => exact absurd rfl (hvisit visit)
  | sweepVisits cutoff =>
    cases hrun
    exact h.sweepVisits hfiled rfl rfl
  | deleteNotes scope notes =>
    simp only [Teardown.run, Db.notesInSession, foldlM_noteInSession h.filed, Option.bind_eq_bind, Option.bind_some] at hrun
    have hpurge : Filed (db.purge (fun id => notes.any fun m => id = m.id) fun n => notes.any (·.row n)) :=
      h.filed.purge fun n _ hn => any_row hn
    obtain ⟨tags, hsweep, -⟩ := hpurge.sweep scope
    cases hsweep.symm.trans hrun
    exact h.purge hfiled rfl rfl
  | clearWorkspaceData scope =>
    cases (workspaceInSession_eq h.filed scope).symm.trans hrun
    have hisIn : ∀ l ∈ db.shares, db.isIn scope l.noteId = decide (l.scope = scope) := fun l hl => h.filed.isIn_share hl
    refine h.purge hfiled (deleteWhere_congr hisIn) (deleteWhere_congr fun v _ => ?_)
    refine Bool.eq_iff_iff.mpr ?_
    simp only [List.any_eq_true, Bool.and_eq_true]
    exact exists_congr fun l => and_congr_right fun hl => by rw [hisIn l hl]

/-! ## requests -/

theorem noteOf_some {l : ShareLink} {n : Note} (h : noteOf db l = some n) :
    n.id = l.noteId ∧ n.scope.ownerId = l.scope.ownerId := by
  have hsome := List.find?_some h
  simpa using hsome

theorem Inv.finish (h : Inv s) (i : ℕ) : Inv (finish s i) :=
  ⟨h.rows, fun r hr => h.requests r (List.mem_of_mem_eraseIdx hr)⟩

theorem next_inv [DecidableEq ν] (h : Inv s) {op : Op ν} (hok : Granted s op) (hs : next s op = some s') : Inv s' := by
  cases op with
  | transact op =>
    have hvisit : ∀ visit, op ≠ .recordVisit visit := by
      rintro visit rfl
      cases hs
    have hs : (if op.possible s.db then
        match Teardown.run s.db op with
        | none => some s
        | some db => some { s with db := db, log := happened s.db op ++ s.log }
      else none) = some s' := by
      cases op with
      | recordVisit visit => exact absurd rfl (hvisit visit)
      | _ => exact hs
    split at hs
    · rename_i hpossible
      split at hs
      · cases hs
        exact h
      · rename_i db hrun
        cases hs
        exact ⟨h.rows.transact hvisit hpossible hok.1 hok.2 hrun,
          fun r hr => (h.requests r hr).grow fun e he => List.mem_append_right _ he⟩
    · cases hs
  | get route token =>
    simp only [next] at hs
    split at hs
    · cases hs
      exact h
    · rename_i l hl
      cases hs
      obtain ⟨hmem, rfl, hrevoked⟩ := h.rows.resolve_eq.mp hl
      have hcreated := h.rows.created l hmem
      refine ⟨h.rows.note ⟨⟨_, _, hcreated⟩, (h.rows.live l hmem).mp hrevoked⟩ rfl
        (fun _ _ _ heq => by cases heq) (fun _ heq => by cases heq), fun r hr => ?_⟩
      rcases List.mem_append.mp hr with hr | hr
      · exact (h.requests r hr).grow fun e he => List.mem_cons_of_mem _ he
      · obtain rfl := List.mem_singleton.mp hr
        exact ⟨List.mem_cons_self, List.mem_cons_of_mem _ hcreated, fun _ hn => by cases hn⟩
  | read i found =>
    obtain ⟨r, hr, hs⟩ := Option.bind_eq_some_iff.mp hs
    have hopen := h.requests r (List.mem_of_getElem? hr)
    split at hs
    · cases hs
    · cases hs
      exact h.finish i
    · rename_i n _ hn
      split at hs
      · cases hs
        obtain ⟨hid, howner⟩ := noteOf_some hn
        have hjustified : Event.Justified s.log (.shown r.link.token n) :=
          ⟨hopen.opened, r.link.scope, by rw [hid]; exact hopen.created, howner.symm⟩
        refine ⟨h.rows.note hjustified rfl
        (fun _ _ _ heq => by cases heq) (fun _ heq => by cases heq), fun x hx => ?_⟩
        rcases List.mem_or_eq_of_mem_set hx with hx | rfl
        · exact (h.requests x hx).grow fun e he => List.mem_cons_of_mem _ he
        · refine ⟨List.mem_cons_of_mem _ hopen.opened, List.mem_cons_of_mem _ hopen.created, fun m hm => ?_⟩
          rw [← Option.some.inj hm]
          exact List.mem_cons_self
      · cases hs
        exact h.finish i
  | answer i ip userAgent now =>
    obtain ⟨r, hr, hs⟩ := Option.bind_eq_some_iff.mp hs
    obtain ⟨n, hn, hs⟩ := Option.bind_eq_some_iff.mp hs
    have hopen := h.requests r (List.mem_of_getElem? hr)
    split at hs
    · cases hs
      exact h.finish i
    · rename_i kind _
      dsimp only at hs
      split at hs
      · cases hs
        exact h.finish i
      · rename_i db hrun
        cases hs
        have hfiled := @Filed.run _ _ _ _ (.recordVisit _) h.rows.filed trivial trivial hrun
        exact ⟨h.rows.record hrun hfiled ⟨n, hopen.shown n hn⟩, fun x hx =>
          ((h.finish i).requests x hx).grow fun e he => List.mem_cons_of_mem _ he⟩

theorem reach_inv [DecidableEq ν] (h : (sharing ν).Reach Granted s) : Inv s := by
  refine h.inv (fun s hs => ?_) fun s op s' _ hinv hok hs => next_inv hinv hok hs
  obtain rfl : s = start := hs
  refine ⟨⟨Filed.reach (.start rfl), .nil, fun _ hl => (List.not_mem_nil hl).elim,
    fun _ hl => (List.not_mem_nil hl).elim, fun _ _ _ hin => (List.not_mem_nil hin).elim,
    fun later e earlier heq => ?_, fun _ hl => (List.not_mem_nil hl).elim⟩, fun _ hr => (List.not_mem_nil hr).elim⟩
  cases later <;> cases heq

/-! ## the capability -/

end

/-- Two links of a note: the first is read, swept, previewed, and revoked while a third request is under way. -/
def revokedEarly : List (Op ℕ) :=
  [.transact (.insertNote ⟨"a", "work", "u"⟩), .transact (.createShare "s" "a" ⟨"work", "u"⟩ "1" false),
    .get .content "s", .read 0 true, .answer 0 none none "2", .transact (.sweepVisits "3"),
    .transact (.createShare "t" "a" ⟨"work", "u"⟩ "4" true), .get .page "t", .read 0 true, .answer 0 none none "5",
    .get .content "s", .transact (.revoke "u" "a" "s" "6"), .get .page "s", .read 0 true, .answer 0 none none "7"]

end Kajet.Share
