import Kajet.Lib.Str

/-!
# The wikilinks of a body

`rewriteWikilinks` replaces the targets of a raw body at the matches of `\[\[([^\]]*?)\]\]`.
`wikilinkRule` is the inline rule by which the Markdown parser reads a wikilink.

* `pieces`                the body, cut at the matches; `flatMap_source_pieces` puts it together;
* `offered`               the target of a match that the rewriter is asked about;
* `wikilinkRule_source`   a match that stays as it is reads back as its target;
* `wikilinkRule_writeLink`   a match that is written anew reads back as the new target, when this has
                          none of the link's own marks.
-/

namespace Kajet.Links
open Str

/-! ## the matches -/

/-- A character outside of the matches, or what a match has between its brackets. -/
inductive Piece where
  | text (c : Char)
  | link (inner : Text)
deriving DecidableEq

def Piece.source : Piece → Text
  | .text c => [c]
  | .link inner => '[' :: '[' :: (inner ++ [']', ']'])

/-- The match that starts here, and what follows it. -/
def matchLink : Text → Option (Text × Text)
  | '[' :: '[' :: s =>
    match s.dropWhile (· ≠ ']') with
    | ']' :: ']' :: rest => some (s.takeWhile (· ≠ ']'), rest)
    | _ => none
  | _ => none

/-- The first `fuel` pieces. -/
def piecesOf : Nat → Text → List Piece
  | 0, _ => []
  | _, [] => []
  | fuel + 1, c :: s =>
    match matchLink (c :: s) with
    | some (inner, rest) => .link inner :: piecesOf fuel rest
    | none => .text c :: piecesOf fuel s

/-- Every piece takes a character at least. -/
def pieces (body : Text) : List Piece := piecesOf body.length body

theorem matchLink_some {s inner rest : Text} (h : matchLink s = some (inner, rest)) :
    s = (Piece.link inner).source ++ rest ∧ ']' ∉ inner := by
  unfold matchLink at h
  split at h
  · rename_i s
    split at h
    · rename_i tail hdrop
      cases h
      constructor
      · have hsplit := List.takeWhile_append_dropWhile (p := fun c => decide (c ≠ ']')) (l := s)
        rw [hdrop] at hsplit
        simpa [Piece.source] using hsplit.symm
      · intro hmem
        simpa using List.mem_takeWhile_imp hmem
    · cases h
  · cases h

theorem flatMap_source_piecesOf {fuel : Nat} {s : Text} (h : s.length ≤ fuel) :
    (piecesOf fuel s).flatMap Piece.source = s := by
  induction fuel generalizing s with
  | zero =>
    rw [List.length_eq_zero_iff.mp (Nat.le_zero.mp h)]
    rfl
  | succ fuel ih =>
    cases s with
    | nil => rfl
    | cons c s =>
      unfold piecesOf
      split
      · rename_i inner rest hmatch
        have hs := (matchLink_some hmatch).1
        have hlen := congrArg List.length hs
        simp only [Piece.source, List.length_cons, List.length_append, List.cons_append] at hlen h
        rw [List.flatMap_cons, ih (by omega), ← hs]
      · rw [List.flatMap_cons, ih (Nat.le_of_succ_le_succ h)]
        rfl

theorem flatMap_source_pieces (body : Text) : (pieces body).flatMap Piece.source = body :=
  flatMap_source_piecesOf le_rfl

theorem notMem_of_link_mem_piecesOf {fuel : Nat} {s inner : Text}
    (h : .link inner ∈ piecesOf fuel s) : ']' ∉ inner := by
  induction fuel generalizing s with
  | zero => cases h
  | succ fuel ih =>
    cases s with
    | nil => cases h
    | cons c s =>
      unfold piecesOf at h
      split at h
      · rename_i hmatch
        rcases List.mem_cons.mp h with heq | h
        · cases heq
          exact (matchLink_some hmatch).2
        · exact ih h
      · rcases List.mem_cons.mp h with heq | h
        · cases heq
        · exact ih h

/-- A match ends at the first closing bracket. -/
theorem notMem_of_link_mem {body inner : Text} (h : .link inner ∈ pieces body) : ']' ∉ inner :=
  notMem_of_link_mem_piecesOf h

/-! ## the rewriting -/

/-- The target of a match that `rewrite` is called with. -/
def offered (inner : Text) : Option Text :=
  if '[' ∈ inner ∨ '\n' ∈ inner then none
  else
    let target := strip (partition '|' inner).1
    if target = [] then none else some target

/-- The target that a match gets in place of its own. -/
def newTarget (rewrite : Text → Option Text) (inner : Text) : Option Text := do
  let target ← offered inner
  let newTarget ← rewrite target
  if newTarget = target then none else some newTarget

def writeLink (target linkAlias : Text) : Text :=
  if linkAlias = [] then (Piece.link target).source else (Piece.link (target ++ '|' :: linkAlias)).source

/-- `repl` -/
def Piece.render (rewrite : Text → Option Text) : Piece → Text
  | .text c => [c]
  | .link inner =>
    match newTarget rewrite inner with
    | none => (Piece.link inner).source
    | some target => writeLink target (strip (partition '|' inner).2)

def Piece.changed (rewrite : Text → Option Text) : Piece → Bool
  | .text _ => false
  | .link inner => (newTarget rewrite inner).isSome

/-- The new body, and whether a link changed. -/
def rewriteWikilinks (body : Text) (rewrite : Text → Option Text) : Text × Bool :=
  ((pieces body).flatMap (·.render rewrite), (pieces body).any (·.changed rewrite))

theorem render_of_not_changed {rewrite : Text → Option Text} {p : Piece}
    (h : p.changed rewrite = false) : p.render rewrite = p.source := by
  cases p with
  | text c => rfl
  | link inner =>
    have hnone : newTarget rewrite inner = none := by simpa [Piece.changed] using h
    rw [Piece.render, hnone]

/-- Without a change the body is the old one. -/
theorem rewriteWikilinks_of_not_changed {body : Text} {rewrite : Text → Option Text}
    (h : (rewriteWikilinks body rewrite).2 = false) : (rewriteWikilinks body rewrite).1 = body := by
  have hsame : ∀ p ∈ pieces body, p.render rewrite = p.source := fun p hp =>
    render_of_not_changed (by simpa using List.any_eq_false.mp h p hp)
  rw [rewriteWikilinks, List.flatMap_congr hsame, flatMap_source_pieces]

/-! ## reading a link -/

structure WikilinkMeta where
  target : Text
  linkAlias : Option Text
deriving DecidableEq

/-- `text.strip() or None` -/
def stripOrNone (text : Text) : Option Text := if strip text = [] then none else some (strip text)

/-- The text before the first `]]`, and the text after it. -/
def splitClose : Text → Option (Text × Text)
  | ']' :: ']' :: rest => some ([], rest)
  | c :: s => (splitClose s).map fun x => (c :: x.1, x.2)
  | [] => none

/-- `_wikilink_rule` on the text from the parser's position on; with the text from its new position
on. -/
def wikilinkRule : Text → Option (WikilinkMeta × Text)
  | '[' :: '[' :: s => do
    let (inner, rest) ← splitClose s
    if '[' ∈ inner ∨ ']' ∈ inner ∨ '\n' ∈ inner then none
    else
      let (target, linkAlias) := partition '|' inner
      if strip target = [] then none else some (⟨strip target, stripOrNone linkAlias⟩, rest)
  | _ => none

theorem splitClose_append {inner : Text} (h : ']' ∉ inner) (rest : Text) :
    splitClose (inner ++ ']' :: ']' :: rest) = some (inner, rest) := by
  induction inner with
  | nil => rfl
  | cons c inner ih =>
    obtain ⟨hc, hinner⟩ := not_or.mp (mt List.mem_cons.mpr h)
    rw [List.cons_append, splitClose, ih hinner, Option.map_some]
    rintro s rfl
    exact absurd rfl hc

theorem splitClose_some {s inner rest : Text} (h : splitClose s = some (inner, rest)) :
    s = inner ++ ']' :: ']' :: rest := by
  fun_induction splitClose s generalizing inner with
  | case1 rest' =>
    cases h
    rfl
  | case2 c s _ ih =>
    obtain ⟨x, hx, hxi⟩ := Option.map_eq_some_iff.mp h
    cases hxi
    rw [ih hx]
    rfl
  | case3 => cases h

/-- The rule reads a bracketed text as a whole exactly when it has no bracket and no line break in
it, and its target is not blank. -/
theorem wikilinkRule_link {inner rest : Text} {link : WikilinkMeta} :
    wikilinkRule ((Piece.link inner).source ++ rest) = some (link, rest) ↔
      ('[' ∉ inner ∧ ']' ∉ inner ∧ '\n' ∉ inner) ∧ strip (partition '|' inner).1 ≠ [] ∧
        link = ⟨strip (partition '|' inner).1, stripOrNone (partition '|' inner).2⟩ := by
  have hsource : (Piece.link inner).source ++ rest = '[' :: '[' :: (inner ++ ']' :: ']' :: rest) := by
    simp [Piece.source]
  rw [hsource]
  constructor
  · intro h
    obtain ⟨⟨read, after⟩, hread, h⟩ := Option.bind_eq_some_iff.mp h
    have hsplit := splitClose_some hread
    dsimp only at h
    split at h
    · cases h
    · rename_i hmarks
      split at h
      · cases h
      · rename_i hblank
        cases h
        obtain rfl := List.append_cancel_right hsplit
        exact ⟨by simpa using hmarks, hblank, rfl⟩
  · rintro ⟨hmarks, hblank, rfl⟩
    simp only [wikilinkRule, splitClose_append hmarks.2.1, Option.bind_eq_bind, Option.bind_some]
    rw [if_neg (by simpa using hmarks), if_neg hblank]

theorem offered_some {inner target : Text} (h : offered inner = some target) :
    '[' ∉ inner ∧ '\n' ∉ inner ∧ strip (partition '|' inner).1 = target ∧ target ≠ [] := by
  unfold offered at h
  split at h
  · cases h
  · rename_i hmarks
    obtain ⟨hopen, hline⟩ := not_or.mp hmarks
    dsimp only at h
    split at h
    · cases h
    · rename_i hne
      cases h
      exact ⟨hopen, hline, rfl, hne⟩

/-- A match that is left as it is. -/
theorem wikilinkRule_source {inner target rest : Text} {link : WikilinkMeta} (hclose : ']' ∉ inner)
    (h : offered inner = some target) :
    wikilinkRule ((Piece.link inner).source ++ rest) = some (link, rest) ↔
      link = ⟨target, stripOrNone (partition '|' inner).2⟩ := by
  obtain ⟨hopen, hline, rfl, hne⟩ := offered_some h
  rw [wikilinkRule_link, and_iff_right ⟨hopen, hclose, hline⟩, and_iff_right hne]

/-- None of the characters to which a wikilink gives a meaning. -/
def NoMarks (target : Text) : Prop := ∀ c ∈ target, c ∉ ['[', ']', '|', '\n']

instance : DecidablePred NoMarks := fun target =>
  List.decidableBAll (fun c => c ∉ ['[', ']', '|', '\n']) target

theorem noMarks_iff {target : Text} :
    NoMarks target ↔ '[' ∉ target ∧ ']' ∉ target ∧ '|' ∉ target ∧ '\n' ∉ target := by
  constructor
  · exact fun h => ⟨fun hc => h _ hc (by simp), fun hc => h _ hc (by simp), fun hc => h _ hc (by simp),
      fun hc => h _ hc (by simp)⟩
  · rintro ⟨hopen, hclose, hbar, hline⟩ c hc hmark
    simp only [List.mem_cons, List.not_mem_nil, or_false] at hmark
    rcases hmark with rfl | rfl | rfl | rfl <;> contradiction

theorem mem_of_mem_partition_fst {s : Text} {c d : Char} (h : c ∈ (partition d s).1) : c ∈ s :=
  (List.takeWhile_sublist _).subset h

theorem mem_of_mem_partition_snd {s : Text} {c d : Char} (h : c ∈ (partition d s).2) : c ∈ s :=
  (List.dropWhile_sublist _).subset (List.mem_of_mem_tail h)

theorem notMem_partition_fst {s : Text} {d : Char} : d ∉ (partition d s).1 := fun h => by
  simpa using List.mem_takeWhile_imp h

/-- A target that is offered has no marks. -/
theorem noMarks_of_offered {inner target : Text} (hclose : ']' ∉ inner)
    (h : offered inner = some target) : NoMarks target := by
  obtain ⟨hopen, hline, rfl, _⟩ := offered_some h
  have hmem : ∀ c, c ∈ strip (partition '|' inner).1 → c ∈ inner := fun c hc =>
    mem_of_mem_partition_fst (mem_of_mem_strip hc)
  exact noMarks_iff.mpr ⟨mt (hmem _) hopen, mt (hmem _) hclose,
    fun hc => notMem_partition_fst (mem_of_mem_strip hc), mt (hmem _) hline⟩

theorem stripOrNone_strip {text : Text} : stripOrNone (strip text) = stripOrNone text := by
  rw [stripOrNone, stripOrNone, strip_strip]

/-- A match with another target and its old alias. -/
theorem wikilinkRule_writeLink {target text rest : Text} {link : WikilinkMeta} (hbar : '|' ∉ target)
    (halias : '[' ∉ text ∧ ']' ∉ text ∧ '\n' ∉ text) :
    wikilinkRule (writeLink target (strip text) ++ rest) = some (link, rest) ↔
      NoMarks target ∧ strip target ≠ [] ∧ link = ⟨strip target, stripOrNone text⟩ := by
  rw [noMarks_iff]
  unfold writeLink
  split
  · rename_i hnil
    have hnone : stripOrNone [] = stripOrNone text := by rw [stripOrNone, stripOrNone, hnil]; rfl
    rw [wikilinkRule_link, partition_of_notMem hbar, hnone]
    simp [hbar]
  · rw [wikilinkRule_link, partition_append hbar, stripOrNone_strip]
    have hmem : ∀ c, c ∈ strip text → c ∈ text := fun c hc => mem_of_mem_strip hc
    simp [hbar, mt (hmem _) halias.1, mt (hmem _) halias.2.1, mt (hmem _) halias.2.2]

/-- A target with a bar reads back with another alias, unless what follows the bar is blank. -/
theorem blank_of_wikilinkRule_writeLink {target text rest new : Text}
    (h : wikilinkRule (writeLink target (strip text) ++ rest) =
      some (⟨new, stripOrNone text⟩, rest)) : strip (partition '|' target).2 = [] := by
  unfold writeLink at h
  split at h
  · rename_i hnil
    obtain ⟨_, _, hlink⟩ := wikilinkRule_link.mp h
    have hnone := congrArg WikilinkMeta.linkAlias hlink
    by_contra hne
    simp [stripOrNone, hnil, hne] at hnone
  · rename_i hne
    by_cases hbar : '|' ∈ target
    swap
    · rw [partition_of_notMem hbar]
      rfl
    obtain ⟨_, _, hlink⟩ := wikilinkRule_link.mp h
    have halias := congrArg WikilinkMeta.linkAlias hlink
    dsimp only at halias
    rw [eq_partition_append hbar, List.append_assoc, List.cons_append,
      partition_append notMem_partition_fst] at halias
    -- the alias that is read has the bar and the old alias in it
    obtain ⟨r, hr⟩ := stripBy_append_cons (p := isSpace) (c := '|') (s := (partition '|' target).2)
      (t := strip text) (by decide) (stripBy_eq_self.mp strip_strip).2
    have hlong : strip ((partition '|' target).2 ++ '|' :: strip text) = r ++ '|' :: strip text := hr
    rw [stripOrNone, if_neg hne, stripOrNone, hlong, if_neg (by simp)] at halias
    have hlen := congrArg List.length (Option.some.inj halias)
    rw [List.length_append, List.length_cons] at hlen
    omega

end Kajet.Links
