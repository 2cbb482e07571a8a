import Kajet.Links.Wikilink
import Mathlib.Algebra.Order.BigOperators.Group.List
import Mathlib.Algebra.Order.Group.Nat

/-!
# The links that the rewriter sees

The inline parser walks over a text and tries `wikilinkRule` at every position (`scan`); the rewriter
goes from one match of its regular expression to the next (`pieces`).  The two stay together
(`scan_cons`, `pieces_cons`): where the rule reads a link, the expression has a match, and where the
expression has a match that the rule refuses, the parser goes on INSIDE of it and may read one link
more, at the last `[[` of the match (`nested`).

* `rewriteWikilinksM`     the rewriter over a callback with effects, and `run_recorded`, its calls;
* `scan_targets`          what the parser reads, piece by piece;
* `hidden_iff`            where a link is hidden in a match;
* `sees_iff`              the rewriter sees every link exactly when no link is hidden.
-/

namespace Kajet.Links
open Str

/-! ## the scanner -/

/-- The links of the first `fuel` steps. -/
def scanOf : Nat → Text → List WikilinkMeta
  | 0, _ => []
  | _, [] => []
  | fuel + 1, c :: s =>
    match wikilinkRule (c :: s) with
    | some (link, rest) => link :: scanOf fuel rest
    | none => scanOf fuel s

/-- Every step takes a character at least. -/
def scan (body : Text) : List WikilinkMeta := scanOf body.length body

/-- A text that the rule takes for what is between the brackets of a link. -/
def IsLink (inner : Text) : Prop :=
  ('[' ∉ inner ∧ ']' ∉ inner ∧ '\n' ∉ inner) ∧ strip (partition '|' inner).1 ≠ []

def linkMeta (inner : Text) : WikilinkMeta :=
  ⟨strip (partition '|' inner).1, stripOrNone (partition '|' inner).2⟩

theorem source_append (inner rest : Text) :
    (Piece.link inner).source ++ rest = '[' :: '[' :: (inner ++ ']' :: ']' :: rest) := by
  simp [Piece.source]

theorem wikilinkRule_isLink {inner : Text} (h : IsLink inner) (rest : Text) :
    wikilinkRule ((Piece.link inner).source ++ rest) = some (linkMeta inner, rest) :=
  wikilinkRule_link.mpr ⟨h.1, h.2, rfl⟩

theorem wikilinkRule_source_of_some {s rest : Text} {link : WikilinkMeta}
    (h : wikilinkRule s = some (link, rest)) : ∃ inner, s = (Piece.link inner).source ++ rest := by
  unfold wikilinkRule at h
  split at h
  · rename_i s
    obtain ⟨⟨inner, after⟩, hread, h⟩ := Option.bind_eq_some_iff.mp h
    dsimp only at h
    split at h
    · cases h
    · split at h
      · cases h
      · cases h
        exact ⟨inner, by rw [splitClose_some hread, source_append]⟩
  · cases h

theorem wikilinkRule_some {s rest : Text} {link : WikilinkMeta}
    (h : wikilinkRule s = some (link, rest)) :
    ∃ inner, s = (Piece.link inner).source ++ rest ∧ IsLink inner ∧ link = linkMeta inner := by
  obtain ⟨inner, rfl⟩ := wikilinkRule_source_of_some h
  obtain ⟨hmarks, hblank, hlink⟩ := wikilinkRule_link.mp h
  exact ⟨inner, rfl, ⟨hmarks, hblank⟩, hlink⟩

theorem length_rest_lt {s rest : Text} {link : WikilinkMeta} (h : wikilinkRule s = some (link, rest)) :
    rest.length < s.length := by
  obtain ⟨inner, rfl, _⟩ := wikilinkRule_some h
  rw [source_append]
  simp only [List.length_cons, List.length_append]
  omega

/-- More fuel than there are characters does not show. -/
theorem scanOf_congr {n m : Nat} {s : Text} (hn : s.length ≤ n) (hm : s.length ≤ m) :
    scanOf n s = scanOf m s := by
  induction n generalizing m s with
  | zero =>
    rw [List.length_eq_zero_iff.mp (Nat.le_zero.mp hn)]
    cases m <;> rfl
  | succ n ih =>
    cases s with
    | nil => cases m <;> rfl
    | cons c s =>
      obtain ⟨m, rfl⟩ := Nat.exists_eq_add_one.mpr (Nat.lt_of_lt_of_le (Nat.succ_pos _) hm)
      rw [scanOf, scanOf]
      split
      · rename_i link rest hrule
        have hlt := length_rest_lt hrule
        rw [ih (m := m) (by omega) (by omega)]
      · exact ih (Nat.le_of_succ_le_succ hn) (Nat.le_of_succ_le_succ hm)

@[simp] theorem scan_nil : scan [] = [] := rfl

/-- The scanner jumps past a link and goes on by one character elsewhere. -/
theorem scan_cons (c : Char) (s : Text) :
    scan (c :: s) =
      match wikilinkRule (c :: s) with
      | some (link, rest) => link :: scan rest
      | none => scan s := by
  rw [scan, List.length_cons, scanOf]
  split
  · rename_i link rest hrule
    have hlt := length_rest_lt hrule
    rw [scanOf_congr (m := rest.length) (by simpa using Nat.le_of_lt_succ hlt) le_rfl, scan]
  · rw [scan]

theorem scan_of_rule {s rest : Text} {link : WikilinkMeta} (h : wikilinkRule s = some (link, rest)) :
    scan s = link :: scan rest := by
  cases s with
  | nil => cases h
  | cons c s => rw [scan_cons, h]

theorem scan_of_none {c : Char} {s : Text} (h : wikilinkRule (c :: s) = none) :
    scan (c :: s) = scan s := by
  rw [scan_cons, h]

/-! ## the rewriter's calls -/

/-- `repl` over a callback with effects. -/
def Piece.renderM {m : Type → Type} [Monad m] (rewrite : Text → m (Option Text)) :
    Piece → m (Text × Bool)
  | .text c => pure ([c], false)
  | .link inner =>
    match offered inner with
    | none => pure ((Piece.link inner).source, false)
    | some target => do
      match ← rewrite target with
      | none => pure ((Piece.link inner).source, false)
      | some newTarget =>
        if newTarget = target then pure ((Piece.link inner).source, false)
        else pure (writeLink newTarget (strip (partition '|' inner).2), true)

def renderPieces {m : Type → Type} [Monad m] (rewrite : Text → m (Option Text)) :
    List Piece → m (Text × Bool)
  | [] => pure ([], false)
  | p :: ps => do
    let (text, changed) ← p.renderM rewrite
    let (rest, later) ← renderPieces rewrite ps
    pure (text ++ rest, changed || later)

/-- `rewriteWikilinks` over a callback with effects. -/
def rewriteWikilinksM {m : Type → Type} [Monad m] (body : Text) (rewrite : Text → m (Option Text)) :
    m (Text × Bool) :=
  renderPieces rewrite (pieces body)

/-- A callback that writes down what it is asked. -/
def recorded (rewrite : Text → Option Text) (target : Text) : StateM (List Text) (Option Text) :=
  fun asked => (rewrite target, asked ++ [target])

/-- The targets that the callback is asked about, in order. -/
def asked (body : Text) (rewrite : Text → Option Text) : List Text :=
  (rewriteWikilinksM body (recorded rewrite) []).2

def Piece.target : Piece → Option Text
  | .text _ => none
  | .link inner => offered inner

theorem pure_apply {σ α : Type} (a : α) (s : σ) : (pure a : StateM σ α) s = (a, s) := rfl

theorem bind_apply {σ α β : Type} (x : StateM σ α) (f : α → StateM σ β) (s : σ) :
    (x >>= f) s = f (x s).1 (x s).2 := rfl

theorem renderM_recorded (rewrite : Text → Option Text) (p : Piece) (log : List Text) :
    p.renderM (recorded rewrite) log =
      ((p.render rewrite, p.changed rewrite), log ++ p.target.toList) := by
  cases p with
  | text c => simp [Piece.renderM, Piece.render, Piece.changed, Piece.target, pure_apply]
  | link inner =>
    simp only [Piece.renderM, Piece.render, Piece.changed, Piece.target, newTarget]
    cases hoffered : offered inner with
    | none => simp [pure_apply]
    | some target =>
      cases hnew : rewrite target with
      | none => simp [recorded, hnew, bind_apply, pure_apply]
      | some new =>
        by_cases heq : new = target
        · simp [recorded, hnew, heq, bind_apply, pure_apply]
        · simp [recorded, hnew, heq, bind_apply, pure_apply]

theorem renderPieces_recorded (rewrite : Text → Option Text) (ps : List Piece) (log : List Text) :
    renderPieces (recorded rewrite) ps log =
      ((ps.flatMap (·.render rewrite), ps.any (·.changed rewrite)), log ++ ps.filterMap Piece.target) := by
  induction ps generalizing log with
  | nil => simp [renderPieces, pure_apply]
  | cons p ps ih =>
    simp only [renderPieces, bind_apply, renderM_recorded, ih, pure_apply]
    cases htarget : p.target with
    | none => simp [List.filterMap_cons_none htarget]
    | some target => simp [List.filterMap_cons_some htarget]

/-- The rewriter with its calls: the rewriter, and the targets of the matches. -/
theorem run_recorded (body : Text) (rewrite : Text → Option Text) :
    rewriteWikilinksM body (recorded rewrite) [] =
      (rewriteWikilinks body rewrite, asked body rewrite) := by
  rw [asked, rewriteWikilinksM, renderPieces_recorded, rewriteWikilinks]

theorem asked_eq (body : Text) (rewrite : Text → Option Text) :
    asked body rewrite = (pieces body).filterMap Piece.target := by
  rw [asked, rewriteWikilinksM, renderPieces_recorded, List.nil_append]

/-! ## the two walks -/

theorem piecesOf_congr {n m : Nat} {s : Text} (hn : s.length ≤ n) (hm : s.length ≤ m) :
    piecesOf n s = piecesOf m s := by
  induction n generalizing m s with
  | zero =>
    rw [List.length_eq_zero_iff.mp (Nat.le_zero.mp hn)]
    cases m <;> rfl
  | succ n ih =>
    cases s with
    | nil => cases m <;> rfl
    | cons c s =>
      obtain ⟨m, rfl⟩ := Nat.exists_eq_add_one.mpr (Nat.lt_of_lt_of_le (Nat.succ_pos _) hm)
      rw [piecesOf, piecesOf]
      split
      · rename_i inner rest hmatch
        have hlen := congrArg List.length (matchLink_some hmatch).1
        rw [source_append] at hlen
        simp only [List.length_cons, List.length_append] at hlen hn hm
        rw [ih (m := m) (by omega) (by omega)]
      · rw [ih (Nat.le_of_succ_le_succ hn) (Nat.le_of_succ_le_succ hm)]

theorem matchLink_source {inner : Text} (h : ']' ∉ inner) (rest : Text) :
    matchLink ((Piece.link inner).source ++ rest) = some (inner, rest) := by
  have hne : ∀ c ∈ inner, decide (c ≠ ']') = true := ne_of_notMem h
  rw [source_append, matchLink, List.dropWhile_append_of_pos hne, List.takeWhile_append_of_pos hne]
  simp

theorem pieces_source {inner : Text} (h : ']' ∉ inner) (rest : Text) :
    pieces ((Piece.link inner).source ++ rest) = .link inner :: pieces rest := by
  have hmatch := matchLink_source h rest
  rw [source_append] at hmatch ⊢
  rw [pieces, List.length_cons, piecesOf, hmatch]
  dsimp only
  rw [piecesOf_congr (m := rest.length) (by simp; omega) le_rfl, pieces]

theorem pieces_of_none {c : Char} {s : Text} (h : matchLink (c :: s) = none) :
    pieces (c :: s) = .text c :: pieces s := by
  rw [pieces, List.length_cons, piecesOf, h, pieces]

/-- The body is read piece by piece. -/
theorem pieces_rec {P : Text → Prop} (nil : P [])
    (link : ∀ inner rest, ']' ∉ inner → P rest → P ((Piece.link inner).source ++ rest))
    (text : ∀ c s, matchLink (c :: s) = none → P s → P (c :: s)) (body : Text) : P body := by
  induction hn : body.length using Nat.strong_induction_on generalizing body with
  | _ n ih =>
    cases body with
    | nil => exact nil
    | cons c s =>
      cases hmatch : matchLink (c :: s) with
      | none =>
        exact text c s hmatch (ih s.length (by rw [← hn]; exact Nat.lt_succ_self _) s rfl)
      | some found =>
        obtain ⟨hs, hclose⟩ := matchLink_some hmatch
        rw [hs]
        refine link _ _ hclose (ih _ ?_ _ rfl)
        rw [← hn, hs, source_append]
        simp only [List.length_cons, List.length_append]
        omega

/-- Where the expression has no match the rule reads nothing. -/
theorem wikilinkRule_of_matchLink_none {s : Text} (h : matchLink s = none) : wikilinkRule s = none := by
  cases hrule : wikilinkRule s with
  | none => rfl
  | some read =>
    obtain ⟨inner, hs, hlink, _⟩ := wikilinkRule_some hrule
    rw [hs, matchLink_source hlink.1.2.1] at h
    cases h

theorem offered_isLink {inner : Text} (h : IsLink inner) : offered inner = some (linkMeta inner).target := by
  rw [offered, if_neg (not_or.mpr ⟨h.1.1, h.1.2.2⟩)]
  exact if_neg h.2

theorem isLink_of_offered {inner target : Text} (hclose : ']' ∉ inner)
    (h : offered inner = some target) : IsLink inner ∧ target = (linkMeta inner).target := by
  obtain ⟨hopen, hline, rfl, hne⟩ := offered_some h
  exact ⟨⟨⟨hopen, hclose, hline⟩, hne⟩, rfl⟩

/-! ## links inside of a match -/

/-- The first link that the rule reads in a text that `]]` follows. -/
def nested : Text → Option WikilinkMeta
  | [] => none
  | c :: s =>
    match wikilinkRule (c :: s ++ [']', ']']) with
    | some (link, _) => some link
    | none => nested s

/-- What the parser reads of a piece. -/
def Piece.links : Piece → List WikilinkMeta
  | .text _ => []
  | .link inner => (nested ('[' :: '[' :: inner)).toList

theorem append_close_inj {s t a b : Text} (hs : ']' ∉ s) (ht : ']' ∉ t)
    (h : s ++ ']' :: a = t ++ ']' :: b) : s = t ∧ a = b := by
  have hparts := congrArg (partition ']') h
  rw [partition_append hs, partition_append ht] at hparts
  exact Prod.mk.inj hparts

/-- The rule on a text up to its first closing brackets. -/
theorem wikilinkRule_close {w rest r : Text} {link : WikilinkMeta} (hw : ']' ∉ w) :
    wikilinkRule (w ++ ']' :: ']' :: rest) = some (link, r) ↔
      r = rest ∧ ∃ inner, w = '[' :: '[' :: inner ∧ IsLink inner ∧ link = linkMeta inner := by
  constructor
  · intro h
    obtain ⟨inner, hs, hlink, rfl⟩ := wikilinkRule_some h
    have hinner : ']' ∉ '[' :: '[' :: inner := by simpa using hlink.1.2.1
    obtain ⟨rfl, hrest⟩ := append_close_inj hw hinner (by rw [hs, source_append]; rfl)
    exact ⟨(List.cons.inj hrest).2.symm, inner, rfl, hlink, rfl⟩
  · rintro ⟨rfl, inner, rfl, hlink, rfl⟩
    have hrule := wikilinkRule_isLink hlink r
    rwa [source_append] at hrule

theorem nested_cons_of_link {c : Char} {s : Text} {link : WikilinkMeta} {r : Text}
    (h : wikilinkRule (c :: s ++ [']', ']']) = some (link, r)) : nested (c :: s) = some link := by
  rw [nested, h]

theorem nested_cons_of_none {c : Char} {s : Text} (h : wikilinkRule (c :: s ++ [']', ']']) = none) :
    nested (c :: s) = nested s := by
  rw [nested, h]

/-- Up to the first closing brackets the scanner reads one link at most. -/
theorem scan_close {w : Text} (hw : ']' ∉ w) (rest : Text) :
    scan (w ++ ']' :: ']' :: rest) = (nested w).toList ++ scan rest := by
  induction w with
  | nil =>
    show scan (']' :: ']' :: rest) = scan rest
    rw [scan_of_none rfl, scan_of_none rfl]
  | cons c w ih =>
    have hw' : ']' ∉ w := fun h => hw (List.mem_cons_of_mem c h)
    cases hrule : wikilinkRule (c :: w ++ [']', ']']) with
    | some read =>
      obtain ⟨link, r⟩ := read
      obtain ⟨_, inner, hsplit, hlink, rfl⟩ := (wikilinkRule_close hw).mp hrule
      have hread : wikilinkRule (c :: w ++ ']' :: ']' :: rest) = some (linkMeta inner, rest) :=
        (wikilinkRule_close hw).mpr ⟨rfl, inner, hsplit, hlink, rfl⟩
      rw [scan_of_rule hread, nested_cons_of_link hrule]
      rfl
    | none =>
      have hnone : wikilinkRule (c :: w ++ ']' :: ']' :: rest) = none := by
        cases hread : wikilinkRule (c :: w ++ ']' :: ']' :: rest) with
        | none => rfl
        | some read =>
          obtain ⟨link, r⟩ := read
          obtain ⟨_, inner, hsplit, hlink, rfl⟩ := (wikilinkRule_close hw).mp hread
          have hagain : wikilinkRule (c :: w ++ [']', ']']) = some (linkMeta inner, []) :=
            (wikilinkRule_close hw).mpr ⟨rfl, inner, hsplit, hlink, rfl⟩
          rw [hagain] at hrule
          cases hrule
      rw [nested_cons_of_none hrule, ← ih hw', List.cons_append]
      exact scan_of_none hnone

/-- The parser reads a body piece by piece. -/
theorem scan_eq (body : Text) : scan body = (pieces body).flatMap Piece.links := by
  induction body using pieces_rec with
  | nil => rfl
  | link inner rest hclose ih =>
    have hw : ']' ∉ '[' :: '[' :: inner := by simpa using hclose
    rw [pieces_source hclose, List.flatMap_cons, ← ih, source_append]
    exact scan_close hw rest
  | text c s hmatch ih =>
    rw [pieces_of_none hmatch, List.flatMap_cons, ← ih, scan_of_none (wikilinkRule_of_matchLink_none hmatch)]
    rfl

/-- A link that is hidden: its match starts before it. -/
def Piece.Hides : Piece → Prop
  | .text _ => False
  | .link inner => (nested ('[' :: inner)).isSome = true

/-- A match that is a link hides none. -/
theorem nested_of_notMem {s : Text} (h : '[' ∉ s) : nested s = none := by
  induction s with
  | nil => rfl
  | cons c s ih =>
    obtain ⟨hc, hs⟩ := not_or.mp (mt List.mem_cons.mpr h)
    rw [nested_cons_of_none, ih hs]
    unfold wikilinkRule
    split
    · rename_i heq
      exact absurd (List.cons.inj heq).1.symm hc
    · rfl

theorem nested_single {s : Text} (h : '[' ∉ s) : nested ('[' :: s) = none := by
  rw [nested_cons_of_none, nested_of_notMem h]
  unfold wikilinkRule
  split
  · rename_i heq
    obtain ⟨_, htail⟩ := List.cons.inj heq
    cases s with
    | nil => cases htail
    | cons d s =>
      cases htail
      exact absurd (List.mem_cons_self ..) h
  · rfl

/-- A match that does not hide a link is read as the rewriter reads it. -/
theorem links_of_not_hides {p : Piece} (hclose : ∀ inner, p = .link inner → ']' ∉ inner)
    (h : ¬ p.Hides) : p.links.map (·.target) = p.target.toList := by
  cases p with
  | text c => rfl
  | link inner =>
    have hw : ']' ∉ '[' :: '[' :: inner := by simpa using hclose inner rfl
    have hnone : nested ('[' :: inner) = none := by simpa [Piece.Hides] using h
    cases hrule : wikilinkRule ('[' :: '[' :: inner ++ [']', ']']) with
    | some read =>
      obtain ⟨link, r⟩ := read
      obtain ⟨_, _, hsplit, hlink, rfl⟩ := (wikilinkRule_close hw).mp hrule
      cases hsplit
      rw [Piece.links, nested_cons_of_link hrule, Piece.target, offered_isLink hlink]
      rfl
    | none =>
      have hoffered : offered inner = none := by
        cases hoff : offered inner with
        | none => rfl
        | some target =>
          have hlink := (isLink_of_offered (hclose inner rfl) hoff).1
          rw [(wikilinkRule_close hw).mpr ⟨rfl, inner, rfl, hlink, rfl⟩] at hrule
          cases hrule
      rw [Piece.links, nested_cons_of_none hrule, hnone, Piece.target, hoffered]
      rfl

theorem isSome_nested_cons {c : Char} {s : Text} (h : (nested s).isSome = true) :
    (nested (c :: s)).isSome = true := by
  rw [nested]
  split
  · rfl
  · exact h

theorem isSome_nested_append {u s : Text} (h : (nested s).isSome = true) :
    (nested (u ++ s)).isSome = true := by
  induction u with
  | nil => exact h
  | cons c u ih => exact isSome_nested_cons ih

/-- Of a match that hides a link the parser reads it, and the rewriter offers nothing. -/
theorem links_of_hides {p : Piece} (hclose : ∀ inner, p = .link inner → ']' ∉ inner) (h : p.Hides) :
    p.target = none ∧ p.links ≠ [] := by
  cases p with
  | text c => exact h.elim
  | link inner =>
    constructor
    · cases hoff : offered inner with
      | none => exact hoff
      | some target =>
        have hlink := (isLink_of_offered (hclose inner rfl) hoff).1
        have hnone : nested ('[' :: inner) = none := nested_single hlink.1.1
        rw [Piece.Hides, hnone] at h
        cases h
    · obtain ⟨link, hsome⟩ := Option.isSome_iff_exists.mp (isSome_nested_cons (c := '[') h)
      rw [Piece.links, hsome]
      exact List.cons_ne_nil _ _

theorem not_mem_of_link {body inner : Text} {p : Piece} (hp : p ∈ pieces body) (h : p = .link inner) :
    ']' ∉ inner :=
  notMem_of_link_mem (h ▸ hp : .link inner ∈ pieces body)

/-! ## where links are hidden -/

/-- Before a link that the rule reads, with no closing bracket between, an opening `[[` starts. -/
def Hidden (body : Text) : Prop :=
  ∃ a u inner b, body = a ++ '[' :: (u ++ '[' :: '[' :: (inner ++ ']' :: ']' :: b)) ∧
    ']' ∉ u ∧ (u = [] ∨ u.head? = some '[') ∧ IsLink inner

theorem nested_isSome_iff {w : Text} (hw : ']' ∉ w) :
    (nested w).isSome = true ↔ ∃ u inner, w = u ++ '[' :: '[' :: inner ∧ IsLink inner := by
  constructor
  · intro h
    induction w with
    | nil => cases h
    | cons c w ih =>
      have hw' : ']' ∉ w := fun h => hw (List.mem_cons_of_mem c h)
      cases hrule : wikilinkRule (c :: w ++ [']', ']']) with
      | some read =>
        obtain ⟨link, r⟩ := read
        obtain ⟨_, inner, hsplit, hlink, _⟩ := (wikilinkRule_close hw).mp hrule
        exact ⟨[], inner, hsplit, hlink⟩
      | none =>
        rw [nested_cons_of_none hrule] at h
        obtain ⟨u, inner, rfl, hlink⟩ := ih hw' h
        exact ⟨c :: u, inner, rfl, hlink⟩
  · rintro ⟨u, inner, rfl, hlink⟩
    apply isSome_nested_append
    have hclose : ']' ∉ '[' :: '[' :: inner := by simpa using hlink.1.2.1
    have hrule : wikilinkRule ('[' :: '[' :: inner ++ [']', ']']) = some (linkMeta inner, []) :=
      (wikilinkRule_close hclose).mpr ⟨rfl, inner, rfl, hlink, rfl⟩
    rw [nested_cons_of_link hrule]
    rfl

/-- What follows an opening `[[` up to `]]` is the end of a match. -/
theorem link_mem_of_split (body : Text) : ∀ a w b, ']' ∉ w →
    body = a ++ '[' :: '[' :: (w ++ ']' :: ']' :: b) →
    ∃ inner y, .link inner ∈ pieces body ∧ '[' :: '[' :: inner = y ++ '[' :: '[' :: w := by
  induction body using pieces_rec with
  | nil =>
    intro a w b _ h
    cases a <;> cases h
  | link inner rest hclose ih =>
    intro a w b hw h
    rw [source_append] at h
    have hopen : ']' ∉ '[' :: '[' :: inner := by simpa using hclose
    rw [pieces_source hclose]
    by_cases ha : ']' ∈ a
    · -- the match ends in `a`
      obtain ⟨a₁, a₂, rfl, ha₁⟩ := List.eq_append_cons_of_mem ha
      obtain ⟨rfl, htail⟩ := append_close_inj hopen ha₁ (by simpa using h)
      cases a₂ with
      | nil => cases htail
      | cons d a₂ =>
        obtain ⟨rfl, hrest⟩ := List.cons.inj htail
        obtain ⟨inner', y, hmem, hy⟩ := ih a₂ w b hw hrest
        exact ⟨inner', y, List.mem_cons_of_mem _ hmem, hy⟩
    · have hopen' : ']' ∉ a ++ '[' :: '[' :: w := by simp [ha, hw]
      obtain ⟨heq, _⟩ := append_close_inj hopen hopen' (by simpa using h)
      exact ⟨inner, a, List.mem_cons_self .., heq⟩
  | text c s hmatch ih =>
    intro a w b hw h
    rw [pieces_of_none hmatch]
    cases a with
    | nil =>
      have hfound := matchLink_source hw b
      rw [source_append] at hfound
      rw [h, List.nil_append, hfound] at hmatch
      cases hmatch
    | cons d a =>
      obtain ⟨rfl, hs⟩ := List.cons.inj h
      obtain ⟨inner', y, hmem, hy⟩ := ih a w b hw hs
      exact ⟨inner', y, List.mem_cons_of_mem _ hmem, hy⟩

/-- Hidden links are those that a match hides. -/
theorem hidden_iff {body : Text} : Hidden body ↔ ∃ p ∈ pieces body, p.Hides := by
  constructor
  · rintro ⟨a, u, inner, b, rfl, hu, hhead, hlink⟩
    -- both ways of opening: the text from the earlier `[[` on
    obtain ⟨w, hw, hsplit⟩ : ∃ w, '[' :: w = u ++ '[' :: '[' :: inner ∧
        ']' ∉ w := by
      have hall : ']' ∉ u ++ '[' :: '[' :: inner := by simp [hu, hlink.1.2.1]
      rcases hhead with rfl | hhead
      · exact ⟨'[' :: inner, rfl, fun h => hall (List.mem_cons_of_mem _ h)⟩
      · obtain ⟨u, rfl⟩ := List.head?_eq_some_iff.mp hhead
        exact ⟨u ++ '[' :: '[' :: inner, rfl, fun h => hall (List.mem_cons_of_mem _ h)⟩
    have hbody : a ++ '[' :: (u ++ '[' :: '[' :: (inner ++ ']' :: ']' :: b)) =
        a ++ '[' :: '[' :: (w ++ ']' :: ']' :: b) := by
      rw [← List.cons_append, ← @List.cons_append _ '[' w, hw]
      simp
    obtain ⟨found, y, hmem, hy⟩ := link_mem_of_split _ a w b hsplit hbody
    refine ⟨.link found, hmem, ?_⟩
    have hfound : ']' ∉ '[' :: found := by simpa using notMem_of_link_mem hmem
    cases y with
    | nil =>
      obtain ⟨_, htail⟩ := List.cons.inj hy
      exact (nested_isSome_iff hfound).mpr ⟨u, inner, by rw [htail, hw], hlink⟩
    | cons d y =>
      obtain ⟨_, htail⟩ := List.cons.inj hy
      exact (nested_isSome_iff hfound).mpr ⟨y ++ '[' :: u, inner, by rw [htail, hw]; simp, hlink⟩
  · rintro ⟨p, hp, hhides⟩
    cases p with
    | text c => exact hhides.elim
    | link w =>
      have hw := notMem_of_link_mem hp
      obtain ⟨u, inner, hsplit, hlink⟩ := (nested_isSome_iff (by simpa using hw)).mp hhides
      obtain ⟨before, after, hpieces⟩ := List.append_of_mem hp
      have hbody := flatMap_source_pieces body
      rw [hpieces, List.flatMap_append, List.flatMap_cons, source_append, ← List.cons_append, hsplit] at hbody
      have hu : ']' ∉ u := by
        have hall : ']' ∉ '[' :: w := by simpa using hw
        rw [hsplit] at hall
        exact fun h => hall (List.mem_append_left _ h)
      refine ⟨before.flatMap Piece.source, u, inner, after.flatMap Piece.source, ?_, hu, ?_, hlink⟩
      · rw [← hbody, List.append_assoc u]
        rfl
      · cases u with
        | nil => exact .inl rfl
        | cons d u =>
          obtain ⟨rfl, _⟩ := List.cons.inj hsplit
          exact .inr rfl

/-! ## what the rewriter sees -/

/-- `[[target|alias]]`, or `[[target]]` without an alias. -/
def written (target : Text) : Option Text → Text
  | none => (Piece.link target).source
  | some linkAlias => (Piece.link (target ++ '|' :: linkAlias)).source

/-- Every link that the scanner recognises is offered to the callback, in order; and a link that is
rewritten keeps its alias: in the text, and for the rule that reads it again. -/
structure Sees (body : Text) (rewrite : Text → Option Text) : Prop where
  every : ((scan body).map (·.target)).Sublist (asked body rewrite)
  keeps : ∀ p ∈ pieces body, p.changed rewrite = true → ∀ rest, ∃ link new,
    wikilinkRule (p.source ++ rest) = some (link, rest) ∧ rewrite link.target = some new ∧
      p.render rewrite = written new link.linkAlias ∧
      (NoMarks new → strip new ≠ [] →
        wikilinkRule (p.render rewrite ++ rest) = some (⟨strip new, link.linkAlias⟩, rest))

theorem writeLink_eq_written (target text : Text) :
    writeLink target (strip text) = written target (stripOrNone text) := by
  unfold writeLink stripOrNone
  split <;> rfl

theorem newTarget_some {rewrite : Text → Option Text} {inner new : Text}
    (h : newTarget rewrite inner = some new) :
    ∃ target, offered inner = some target ∧ rewrite target = some new := by
  obtain ⟨target, hoffered, h⟩ := Option.bind_eq_some_iff.mp h
  obtain ⟨answer, hanswer, h⟩ := Option.bind_eq_some_iff.mp h
  split at h
  · cases h
  · cases h
    exact ⟨target, hoffered, hanswer⟩

theorem render_keeps {rewrite : Text → Option Text} {p : Piece}
    (hclose : ∀ inner, p = .link inner → ']' ∉ inner) (h : p.changed rewrite = true) (rest : Text) :
    ∃ link new, wikilinkRule (p.source ++ rest) = some (link, rest) ∧ rewrite link.target = some new ∧
      p.render rewrite = written new link.linkAlias ∧
      (NoMarks new → strip new ≠ [] →
        wikilinkRule (p.render rewrite ++ rest) = some (⟨strip new, link.linkAlias⟩, rest)) := by
  cases p with
  | text c => cases h
  | link inner =>
    obtain ⟨new, hnew⟩ := Option.isSome_iff_exists.mp h
    obtain ⟨target, hoffered, hanswer⟩ := newTarget_some hnew
    obtain ⟨hlink, rfl⟩ := isLink_of_offered (hclose inner rfl) hoffered
    have hrender : (Piece.link inner).render rewrite = writeLink new (strip (partition '|' inner).2) := by
      rw [Piece.render, hnew]
    have hmem : ∀ c, c ∈ (partition '|' inner).2 → c ∈ inner := fun c => mem_of_mem_partition_snd
    refine ⟨linkMeta inner, new, wikilinkRule_isLink hlink rest, hanswer, ?_, ?_⟩
    · rw [hrender, writeLink_eq_written]
      rfl
    · intro hmarks hblank
      rw [hrender]
      exact (wikilinkRule_writeLink (noMarks_iff.mp hmarks).2.2.1
        ⟨mt (hmem _) hlink.1.1, mt (hmem _) hlink.1.2.1, mt (hmem _) hlink.1.2.2⟩).mpr ⟨hmarks, hblank, rfl⟩

theorem map_target_scan (body : Text) :
    (scan body).map (·.target) = (pieces body).flatMap fun p => p.links.map (·.target) := by
  rw [scan_eq, List.map_flatMap]

/-- Without hidden links the two lists are the same. -/
theorem asked_of_not_hidden {body : Text} (h : ¬ Hidden body) (rewrite : Text → Option Text) :
    asked body rewrite = (scan body).map (·.target) := by
  rw [asked_eq, map_target_scan, List.filterMap_eq_flatMap_toList]
  refine List.flatMap_congr fun p hp => ?_
  exact (links_of_not_hides (fun _ => not_mem_of_link hp) fun hhides => h (hidden_iff.mpr ⟨p, hp, hhides⟩)).symm

/-- The scanner reads as many links of a piece as the rewriter offers, and one more where the piece
hides a link. -/
theorem length_target_le {p : Piece} (hclose : ∀ inner, p = .link inner → ']' ∉ inner) :
    p.target.toList.length ≤ p.links.length := by
  by_cases h : p.Hides
  · rw [(links_of_hides hclose h).1]
    exact Nat.zero_le _
  · have hlen := congrArg List.length (links_of_not_hides hclose h)
    rw [List.length_map] at hlen
    exact hlen.ge

theorem length_asked_lt {body : Text} (h : Hidden body) (rewrite : Text → Option Text) :
    (asked body rewrite).length < (scan body).length := by
  obtain ⟨p, hp, hhides⟩ := hidden_iff.mp h
  obtain ⟨hnone, hlinks⟩ := links_of_hides (fun _ => not_mem_of_link hp) hhides
  rw [asked_eq, scan_eq, List.filterMap_eq_flatMap_toList, List.length_flatMap, List.length_flatMap]
  apply List.sum_lt_sum
  · exact fun q hq => length_target_le fun _ => not_mem_of_link hq
  · refine ⟨p, hp, ?_⟩
    rw [hnone]
    exact List.length_pos_iff.mpr hlinks

/-- **The rewriter sees every link** of exactly the texts in which no link is hidden. -/
theorem sees_iff (body : Text) (rewrite : Text → Option Text) :
    Sees body rewrite ↔ ¬ Hidden body := by
  constructor
  · intro hsees hhidden
    have hle := hsees.every.length_le
    have hlt := length_asked_lt hhidden rewrite
    rw [List.length_map] at hle
    omega
  · intro hnot
    constructor
    · rw [asked_of_not_hidden hnot]
    · exact fun p hp hchanged rest => render_keeps (fun _ => not_mem_of_link hp) hchanged rest

/-- A bracket before a link: the link is read, and the rewriter leaves it as it is. -/
theorem not_sees_bracketed :
    let body := "[[[Note]]".toList
    scan body = [⟨"Note".toList, none⟩] ∧
      (∀ rewrite, asked body rewrite = [] ∧ rewriteWikilinks body rewrite = (body, false)) ∧
      ¬ Sees body fun _ => some "Renamed".toList := by
  have hasked : ∀ rewrite, asked "[[[Note]]".toList rewrite = [] := by
    intro rewrite
    rw [asked_eq]
    decide +kernel
  refine ⟨by decide +kernel, fun rewrite => ⟨hasked rewrite, rfl⟩, fun hsees => ?_⟩
  have hevery := hsees.every
  rw [hasked] at hevery
  exact absurd hevery (by decide +kernel)

end Kajet.Links
