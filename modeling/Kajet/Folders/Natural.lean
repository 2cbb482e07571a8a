import Kajet.Folders.Scope
import Mathlib.Data.Sum.Order
import Mathlib.Data.List.Lex

/-!
# README first, then the natural order

`folder_sort_key` splits a title at the runs of `\d`, and turns the parts into numbers on which `isdigit`
holds.  The two are not the same characters: `isdigit` has the superscripts, which `int` does not read.

* `runs`, `numSplit`         a title cut at its numerals;
* `folderSortKey`, `keyLt`   the key, and Python's comparison of two of them;
* `folderSorted`, `Library.listNotes`   the sort, and the listing that uses it;
* `NaturalLe`, `Before`      the order that is meant;
* `folderSorted_iff`         the sort succeeds exactly on the titles that are `Convertible`.
-/

namespace Kajet.Folders
open Str Rank Table Reindex Fallible

/-- The tables of the characters. -/
structure Unicode where
  /-- the value of a decimal digit, which is what `\d` matches -/
  decimal : Char → Option ℕ
  /-- `str.isdigit` of one character -/
  isDigit : Char → Bool
  isDigit_of_decimal : ∀ c, (decimal c).isSome = true → isDigit c = true
  /-- `str.lower` -/
  lower : Text → Text

inductive SortError where
  /-- `int` cannot read the text -/
  | invalidLiteral (part : Text)
  /-- "'<' not supported between instances of 'str' and 'int'" -/
  | notComparable
deriving DecidableEq

/-- A text, or a number. -/
abbrev Part := Text ⊕ ℕ

/-- The longest text that `int` reads. -/
def maxStrDigits : ℕ := 4300

/-- `a < b` of two lists -/
def partsLt : List Part → List Part → Except SortError Bool
  | _, [] => .ok false
  | [], _ :: _ => .ok true
  | a :: as, b :: bs =>
    if a = b then partsLt as bs
    else match a, b with
      | .inl s, .inl t => .ok (s < t)
      | .inr n, .inr m => .ok (n < m)
      | _, _ => .error .notComparable

def keyLt (a b : ℕ × List Part) : Except SortError Bool :=
  if a.1 = b.1 then partsLt a.2 b.2 else .ok (a.1 < b.1)

namespace Unicode
variable (U : Unicode)

def isDecimal (c : Char) : Bool := (U.decimal c).isSome

/-- The text in front of the first numeral, then the numerals, each with the text behind it. -/
def runs : Text → Text × List (Text × Text)
  | [] => ([], [])
  | c :: s =>
    match U.isDecimal c, runs s with
    | false, (t, ds) => (c :: t, ds)
    | true, ([], (d, t) :: ds) => ([], (c :: d, t) :: ds)
    | true, (t, ds) => ([], ([c], t) :: ds)

/-- `_NUM_SPLIT.split(title)` -/
def numSplit (title : Text) : List Text := (U.runs title).1 :: (U.runs title).2.flatMap fun r => [r.1, r.2]

/-- `str.isdigit` -/
def isdigit (part : Text) : Bool := !part.isEmpty && part.all U.isDigit

/-- The number that the digits are read as. -/
def value (part : Text) : ℕ := part.foldl (fun n c => 10 * n + (U.decimal c).getD 0) 0

/-- `int` of a text on which `isdigit` holds -/
def int (part : Text) : Except SortError ℕ :=
  if part.all U.isDecimal ∧ part.length ≤ maxStrDigits then .ok (U.value part) else .error (.invalidLiteral part)

def isReadme (title : Text) : Bool := U.lower (strip title) = "readme".toList

def natural (part : Text) : Except SortError Part :=
  if U.isdigit part then do return .inr (← U.int part) else return .inl (U.lower part)

def folderSortKey (title : Text) : Except SortError (ℕ × List Part) := do
  return (if U.isReadme title then 0 else 1, ← (U.numSplit title).mapM U.natural)

/-- `sorted(notes, key=folder_sort_key)` -/
def folderSorted (notes : List Note) : Except SortError (List Note) := do
  let keyed ← notes.mapM fun n => do return (← U.folderSortKey n.title, n)
  return (← sortM (fun a b => keyLt a.1 b.1) keyed).map (·.2)

end Unicode

/-- The rows that the listing selects. -/
def Library.selects (lib : Library) (allowed : Option (Finset String)) (folder : Option Text) (n : Note) : Bool :=
  lib.owns n && folder.all (n.folder = ·) && allowed.all (n.noteId ∈ ·)

/-- Rows of one date come in any order from the database; here in that of the table. -/
def Library.listNotes (U : Unicode) (lib : Library) (notes : List Note) (allowed : Option (Finset String))
    (limit : Option ℕ) (folder : Option Text) (sort : Text) : Except SortError (List Note) :=
  if allowed = some ∅ then .ok []
  else
    let needsFullScan := sort = "title".toList ∨ sort = "default".toList ∧ folder.isSome = true
    let rows := notes.filter (lib.selects allowed folder)
    let rows := ranked (fun n => OrderDual.toDual (if sort = "created".toList then n.createdAt else n.updatedAt)) rows
    let cut (rows : List Note) := limit.elim rows rows.take
    if needsFullScan then (U.folderSorted rows).map cut else .ok (cut rows)

/-! ## the order that is meant -/

namespace Unicode
variable (U : Unicode)

/-- Texts compare in small letters, numerals by their values, the first difference decides. -/
def NaturalLe : Text → List (Text × Text) → Text → List (Text × Text) → Prop
  | s, [], t, _ => U.lower s ≤ U.lower t
  | s, _ :: _, t, [] => U.lower s < U.lower t
  | s, (d, s') :: ds, t, (e, t') :: es => U.lower s < U.lower t ∨ U.lower s = U.lower t ∧
    (U.value d < U.value e ∨ U.value d = U.value e ∧ NaturalLe s' ds t' es)

/-- README notes come first. -/
def Before (a b : Note) : Prop :=
  if U.isReadme a.title = U.isReadme b.title then
    U.NaturalLe (U.runs a.title).1 (U.runs a.title).2 (U.runs b.title).1 (U.runs b.title).2
  else U.isReadme a.title = true

/-- What `isdigit` holds on can be read by `int`. -/
def Convertible (title : Text) : Prop :=
  ∀ part ∈ U.numSplit title, U.isdigit part = true → part.all U.isDecimal = true ∧ part.length ≤ maxStrDigits

/-- A title cut at all of its numerals. -/
structure Cut (title head : Text) (tail : List (Text × Text)) : Prop where
  whole : head ++ (tail.flatMap fun r => r.1 ++ r.2) = title
  head : head.all (!U.isDecimal ·) = true
  numerals : ∀ r ∈ tail, r.1 ≠ [] ∧ r.1.all U.isDecimal = true
  texts : ∀ r ∈ tail, r.2.all (!U.isDecimal ·) = true
  /-- no numeral ends where another one begins -/
  apart : tail.dropLast.all (!·.2.isEmpty) = true

variable {U} {s t title part : Text} {ds es : List (Text × Text)} {c : Char} {a b : Note} {notes : List Note}

theorem runs_cut (title : Text) : U.Cut title (U.runs title).1 (U.runs title).2 := by
  induction title with
  | nil => exact ⟨rfl, rfl, fun r hr => (nomatch hr), fun r hr => (nomatch hr), rfl⟩
  | cons c s ih =>
    rw [runs]
    generalize U.runs s = r at ih
    obtain ⟨t, ds⟩ := r
    obtain ⟨hwhole, hhead, hnumerals, htexts, hapart⟩ := ih
    cases hc : U.isDecimal c with
    | false => exact ⟨by simpa using hwhole, by simpa [hc] using hhead, hnumerals, htexts, hapart⟩
    | true =>
      match t, ds with
      | [], [] =>
        refine ⟨by simpa using hwhole, rfl, ?_, ?_, rfl⟩
        · intro r hr
          obtain rfl := List.mem_singleton.mp hr
          exact ⟨List.cons_ne_nil _ _, by simpa using hc⟩
        · intro r hr
          obtain rfl := List.mem_singleton.mp hr
          rfl
      | [], (d, t) :: ds =>
        refine ⟨by simpa using hwhole, rfl, ?_, ?_, ?_⟩
        · intro r hr
          rcases List.mem_cons.mp hr with rfl | hr
          · exact ⟨List.cons_ne_nil _ _, by simpa [hc] using (hnumerals (d, t) List.mem_cons_self).2⟩
          · exact hnumerals r (List.mem_cons_of_mem _ hr)
        · intro r hr
          rcases List.mem_cons.mp hr with rfl | hr
          · exact htexts (d, t) List.mem_cons_self
          · exact htexts r (List.mem_cons_of_mem _ hr)
        · cases ds with
          | nil => rfl
          | cons r ds => exact hapart
      | x :: t, ds =>
        refine ⟨by simpa using hwhole, rfl, ?_, ?_, ?_⟩
        · intro r hr
          rcases List.mem_cons.mp hr with rfl | hr
          · exact ⟨List.cons_ne_nil _ _, by simpa using hc⟩
          · exact hnumerals r hr
        · intro r hr
          rcases List.mem_cons.mp hr with rfl | hr
          · exact hhead
          · exact htexts r hr
        · cases ds with
          | nil => rfl
          | cons r ds => simpa using hapart

/-! ## the key -/

variable (U) in
def asPart (part : Text) : Part := if U.isdigit part then .inr (U.value part) else .inl (U.lower part)

variable (U) in
/-- The key of a cut title: texts and numbers take turns. -/
def weave : Text → List (Text × Text) → List Part
  | s, [] => [.inl (U.lower s)]
  | s, (d, t) :: ds => .inl (U.lower s) :: .inr (U.value d) :: weave t ds

theorem natural_eq (h : U.isdigit part = true → part.all U.isDecimal = true ∧ part.length ≤ maxStrDigits) :
    U.natural part = .ok (U.asPart part) := by
  unfold natural asPart
  by_cases hdigit : U.isdigit part = true
  · rw [if_pos hdigit, if_pos hdigit, int, if_pos (h hdigit)]
    rfl
  · rw [if_neg hdigit, if_neg hdigit]
    rfl

theorem convertible_of_natural {p : Part} (h : U.natural part = .ok p) (hdigit : U.isdigit part = true) :
    part.all U.isDecimal = true ∧ part.length ≤ maxStrDigits := by
  rw [natural, if_pos hdigit] at h
  obtain ⟨n, hn, -⟩ := bind_ok h
  unfold int at hn
  split at hn
  · assumption
  · cases hn

theorem isdigit_numeral (hne : part ≠ []) (h : part.all U.isDecimal = true) : U.isdigit part = true := by
  rw [isdigit, Bool.and_eq_true, Bool.not_eq_true', List.isEmpty_eq_false_iff]
  exact ⟨hne, List.all_eq_true.mpr fun c hc => U.isDigit_of_decimal c (List.all_eq_true.mp h c hc)⟩

theorem not_isdigit_text (h : part.all (!U.isDecimal ·) = true)
    (hdecimal : U.isdigit part = true → part.all U.isDecimal = true) : U.isdigit part = false := by
  cases part with
  | nil => rfl
  | cons c part =>
    by_contra hdigit
    have hc := List.all_eq_true.mp (hdecimal (Bool.eq_true_of_not_eq_false hdigit)) c List.mem_cons_self
    have hnot := List.all_eq_true.mp h c List.mem_cons_self
    rw [hc] at hnot
    cases hnot

theorem map_asPart {head : Text} {tail : List (Text × Text)} (hhead : U.asPart head = .inl (U.lower head))
    (htail : ∀ r ∈ tail, U.asPart r.1 = .inr (U.value r.1) ∧ U.asPart r.2 = .inl (U.lower r.2)) :
    (head :: tail.flatMap fun r => [r.1, r.2]).map U.asPart = U.weave head tail := by
  induction tail generalizing head with
  | nil => rw [List.flatMap_nil, List.map_cons, hhead]; rfl
  | cons r tail ih =>
    obtain ⟨hnumeral, htext⟩ := htail r List.mem_cons_self
    have hrest := ih htext fun r hr => htail r (List.mem_cons_of_mem _ hr)
    rw [List.map_cons] at hrest
    rw [List.flatMap_cons, List.map_cons, hhead, weave, ← hrest, ← hnumeral]
    rfl

theorem numSplit_asPart (h : U.Convertible title) :
    (U.numSplit title).map U.asPart = U.weave (U.runs title).1 (U.runs title).2 := by
  obtain ⟨-, hhead, hnumerals, htexts, -⟩ := U.runs_cut title
  have htext : ∀ part ∈ U.numSplit title, part.all (!U.isDecimal ·) = true → U.asPart part = .inl (U.lower part) := by
    intro part hpart htext
    rw [asPart, not_isdigit_text htext fun hdigit => (h part hpart hdigit).1]
    rfl
  refine map_asPart (htext _ List.mem_cons_self hhead) fun r hr => ⟨?_, htext _ ?_ (htexts r hr)⟩
  · exact if_pos (isdigit_numeral (hnumerals r hr).1 (hnumerals r hr).2)
  · exact List.mem_cons_of_mem _ (List.mem_flatMap.mpr ⟨r, hr, List.mem_cons_of_mem _ List.mem_cons_self⟩)

theorem folderSortKey_eq (h : U.Convertible title) : U.folderSortKey title =
    .ok (if U.isReadme title then 0 else 1, U.weave (U.runs title).1 (U.runs title).2) := by
  rw [folderSortKey, mapM_eq_map fun part hpart => natural_eq (h part hpart), numSplit_asPart h]
  rfl

theorem convertible_of_key {k : ℕ × List Part} (h : U.folderSortKey title = .ok k) : U.Convertible title := by
  obtain ⟨ps, hps, -⟩ := bind_ok h
  intro part hpart
  obtain ⟨p, -, hp⟩ := exists_of_mapM_ok hps hpart
  exact convertible_of_natural hp

/-! ## comparing two keys -/

/-- The parts, in an order where any two can be compared. -/
def lexed (ps : List Part) : List (Text ⊕ₗ ℕ) := ps.map toLex

theorem lexed_cons_lt {a b : Part} {as bs : List Part} :
    lexed (a :: as) < lexed (b :: bs) ↔ toLex a < toLex b ∨ a = b ∧ lexed as < lexed bs := by
  rw [lexed, lexed, List.map_cons, List.map_cons, List.cons_lt_cons_iff, toLex_inj]
  rfl

theorem lexed_cons_le {a b : Part} {as bs : List Part} :
    lexed (a :: as) ≤ lexed (b :: bs) ↔ toLex a < toLex b ∨ a = b ∧ lexed as ≤ lexed bs := by
  have heq : lexed (a :: as) = lexed (b :: bs) ↔ a = b ∧ lexed as = lexed bs := by
    rw [lexed, lexed, List.map_cons, List.map_cons, List.cons.injEq, toLex_inj]
    rfl
  rw [le_iff_lt_or_eq, lexed_cons_lt, heq, le_iff_lt_or_eq, or_assoc, ← and_or_left]

theorem ite_lexed {a b : Part} {as bs : List Part} {p : Prop} [Decidable p] (hp : toLex a < toLex b ↔ p) :
    (if a = b then .ok (decide (lexed as < lexed bs)) else .ok (decide p) : Except SortError Bool) =
      .ok (decide (lexed (a :: as) < lexed (b :: bs))) := by
  split
  · rename_i hab
    subst hab
    exact congrArg _ (decide_eq_decide.mpr (lexed_cons_lt.trans (by simp)).symm)
  · rename_i hab
    exact congrArg _ (decide_eq_decide.mpr
      (hp.symm.trans (lexed_cons_lt.trans (or_iff_left fun hsame => hab hsame.1)).symm))

theorem partsLt_cons {a b : Part} {as bs : List Part} (hkind : a.isLeft = b.isLeft)
    (h : partsLt as bs = .ok (decide (lexed as < lexed bs))) :
    partsLt (a :: as) (b :: bs) = .ok (decide (lexed (a :: as) < lexed (b :: bs))) := by
  cases a with
  | inl s =>
    cases b with
    | inl t =>
      rw [← ite_lexed Sum.Lex.inl_lt_inl_iff, ← h]
      rfl
    | inr m => cases hkind
  | inr n =>
    cases b with
    | inl t => cases hkind
    | inr m =>
      rw [← ite_lexed Sum.Lex.inr_lt_inr_iff, ← h]
      rfl

/-- Texts stand against texts, and numbers against numbers. -/
theorem partsLt_weave : partsLt (U.weave s ds) (U.weave t es) =
    .ok (decide (lexed (U.weave s ds) < lexed (U.weave t es))) := by
  induction ds generalizing s t es with
  | nil =>
    cases es with
    | nil => exact partsLt_cons rfl rfl
    | cons r es => exact partsLt_cons rfl rfl
  | cons r ds ih =>
    cases es with
    | nil => exact partsLt_cons rfl rfl
    | cons r' es => exact partsLt_cons rfl (partsLt_cons rfl ih)

theorem naturalLe_iff : U.NaturalLe s ds t es ↔ lexed (U.weave s ds) ≤ lexed (U.weave t es) := by
  have hne : ∀ (p : Part) (ps : List Part), ¬ lexed (p :: ps) ≤ lexed [] := fun p ps h =>
    absurd (List.nil_lt_cons (toLex p) (lexed ps)) (not_lt.mpr h)
  induction ds generalizing s t es with
  | nil =>
    have hnil : ∀ ps : List Part, lexed [] ≤ lexed ps := fun ps => not_lt.mp (List.not_lt_nil _)
    rw [show U.NaturalLe s [] t es = (U.lower s ≤ U.lower t) from rfl, le_iff_lt_or_eq]
    cases es with
    | nil =>
      rw [weave, weave, lexed_cons_le, Sum.Lex.inl_lt_inl_iff, Sum.inl.injEq, and_iff_left (hnil _)]
    | cons r es =>
      rw [weave, weave, lexed_cons_le, Sum.Lex.inl_lt_inl_iff, Sum.inl.injEq, and_iff_left (hnil _)]
  | cons r ds ih =>
    cases es with
    | nil =>
      rw [weave, weave, lexed_cons_le, Sum.Lex.inl_lt_inl_iff, or_iff_left fun h => hne _ _ h.2]
      rfl
    | cons r' es =>
      rw [weave, weave, lexed_cons_le, lexed_cons_le, Sum.Lex.inl_lt_inl_iff, Sum.Lex.inr_lt_inr_iff,
        Sum.inl.injEq, Sum.inr.injEq]
      exact or_congr_right (and_congr_right fun _ => or_congr_right (and_congr_right fun _ => ih))

/-! ## the sort -/

variable (U) in
def sortKey (n : Note) : ℕ ×ₗ List (Text ⊕ₗ ℕ) :=
  toLex (if U.isReadme n.title then 0 else 1, lexed (U.weave (U.runs n.title).1 (U.runs n.title).2))

theorem before_iff : U.Before a b ↔ U.sortKey a ≤ U.sortKey b := by
  rw [Before, sortKey, sortKey, Prod.Lex.toLex_le_toLex, naturalLe_iff]
  cases U.isReadme a.title <;> cases U.isReadme b.title <;> simp

variable (U) in
/-- The key of a title that has one. -/
def plainKey (title : Text) : ℕ × List Part :=
  (if U.isReadme title then 0 else 1, U.weave (U.runs title).1 (U.runs title).2)

theorem keyLt_plainKey : keyLt (U.plainKey a.title) (U.plainKey b.title) = .ok (decide (U.sortKey a < U.sortKey b)) := by
  have hlex : U.sortKey a < U.sortKey b ↔ (U.plainKey a.title).1 < (U.plainKey b.title).1 ∨
      (U.plainKey a.title).1 = (U.plainKey b.title).1 ∧
        lexed (U.plainKey a.title).2 < lexed (U.plainKey b.title).2 := Prod.Lex.toLex_lt_toLex
  rw [keyLt]
  split
  · rename_i hsame
    rw [plainKey, plainKey, partsLt_weave, Except.ok.injEq, decide_eq_decide]
    exact ⟨fun hlt => hlex.mpr (.inr ⟨hsame, hlt⟩),
      fun hlt => (hlex.mp hlt).elim (fun hfirst => absurd hsame hfirst.ne) And.right⟩
  · rename_i hdiffer
    rw [Except.ok.injEq, decide_eq_decide, hlex, or_iff_left fun hboth => hdiffer hboth.1]

theorem folderSorted_eq (h : ∀ n ∈ notes, U.Convertible n.title) :
    U.folderSorted notes = .ok (ranked U.sortKey notes) := by
  let keyed (n : Note) : (ℕ × List Part) × Note := (U.plainKey n.title, n)
  have hkeyed : notes.mapM (fun n => do return (← U.folderSortKey n.title, n)) = .ok (notes.map keyed) :=
    mapM_eq_map fun n hn => by rw [folderSortKey_eq (h n hn)]; rfl
  have hlt : ∀ x ∈ notes.map keyed, ∀ y ∈ notes.map keyed, keyLt x.1 y.1 =
      .ok (decide (U.sortKey x.2 < U.sortKey y.2)) := by
    intro x hx y hy
    obtain ⟨a, -, rfl⟩ := List.mem_map.mp hx
    obtain ⟨b, -, rfl⟩ := List.mem_map.mp hy
    exact keyLt_plainKey
  rw [folderSorted, hkeyed]
  show (sortM (fun a b => keyLt a.1 b.1) (notes.map keyed)).bind _ = _
  rw [sortM_eq hlt]
  show Except.ok ((ranked (fun x => U.sortKey x.2) (notes.map keyed)).map (·.2)) = .ok (ranked U.sortKey notes)
  rw [ranked, List.map_insertionSort _ (fun a b => U.sortKey a ≤ U.sortKey b) _ _ fun _ _ _ _ => Iff.rfl,
    List.map_map]
  exact congrArg (fun l => Except.ok (ranked U.sortKey l)) (List.map_id notes)

theorem convertible_of_sorted {sorted : List Note} (h : U.folderSorted notes = .ok sorted) :
    ∀ n ∈ notes, U.Convertible n.title := by
  obtain ⟨keyed, hkeyed, -⟩ := bind_ok h
  intro n hn
  obtain ⟨x, -, hx⟩ := exists_of_mapM_ok hkeyed hn
  obtain ⟨k, hk, -⟩ := bind_ok hx
  exact convertible_of_key hk

/-- **The sort does not fail**, and its order is the natural one, exactly when `int` reads all that `isdigit`
holds on. -/
theorem folderSorted_iff (U : Unicode) (notes : List Note) :
    (∃ sorted, U.folderSorted notes = .ok sorted ∧ sorted.Perm notes ∧ sorted.Pairwise U.Before) ↔
      ∀ n ∈ notes, U.Convertible n.title := by
  constructor
  · rintro ⟨sorted, hsorted, -⟩
    exact convertible_of_sorted hsorted
  · intro h
    refine ⟨ranked U.sortKey notes, folderSorted_eq h, ranked_perm _ notes, ?_⟩
    exact (ranked_pairwise U.sortKey notes).imp before_iff.mpr

/-- The listing of a folder fails with the sort. -/
theorem listNotes_iff {lib : Library} {allowed : Option (Finset String)} {limit : Option ℕ} {folder : Option Text}
    {sort : Text} (hsort : sort = "title".toList ∨ sort = "default".toList ∧ folder.isSome = true)
    (hallowed : allowed ≠ some ∅) : (∃ listed, lib.listNotes U notes allowed limit folder sort = .ok listed) ↔
      ∀ n ∈ notes, lib.selects allowed folder n = true → U.Convertible n.title := by
  unfold Library.listNotes
  rw [if_neg hallowed]
  dsimp only
  rw [if_pos hsort]
  constructor
  · rintro ⟨listed, hlisted⟩ n hn hselects
    obtain ⟨sorted, hsorted, -⟩ := map_ok hlisted
    exact convertible_of_sorted hsorted n (mem_ranked.mpr (List.mem_filter.mpr ⟨hn, hselects⟩))
  · intro h
    refine ⟨_, congrArg _ (folderSorted_eq fun n hn => ?_)⟩
    obtain ⟨hn, hselects⟩ := List.mem_filter.mp (mem_ranked.mp hn)
    exact h n hn hselects

/-! ## a title that no listing can have -/

/-- The characters up to 255. -/
def latin : Unicode where
  decimal c := if c.isDigit then some (c.toNat - '0'.toNat) else none
  isDigit c := c.isDigit || c.toNat ∈ [0xb2, 0xb3, 0xb9]
  isDigit_of_decimal c h := by
    split at h
    · rename_i hc
      rw [hc, Bool.true_or]
    · cases h
  lower s := s.map fun c => if 0xc0 ≤ c.toNat ∧ c.toNat ≤ 0xde ∧ c.toNat ≠ 0xd7 then Char.ofNat (c.toNat + 32) else c.toLower

def noteTitled (title : Text) : Note where
  noteId := "a"
  title := title
  folder := []
  workspace := "w"
  ownerId := "o"
  tags := []
  createdAt := []
  updatedAt := []
  occurredAt := none
  period := none

example : (latin.folderSorted (["Note 10", "note 9", " ReadMe", "Note 09b", "x\u00b2"].map
    fun t => noteTitled t.toList)).toOption.map (·.map fun n => String.ofList n.title) =
    some [" ReadMe", "note 9", "Note 09b", "Note 10", "x\u00b2"] := by decide +kernel

/-- In "10²" the exponent stands alone behind the numeral; `isdigit` holds on it and `int` does not read it. -/
theorem folderSorted_superscript : latin.folderSorted [noteTitled "Area 10\u00b2".toList] =
    .error (.invalidLiteral "\u00b2".toList) := by decide +kernel

end Unicode
end Kajet.Folders
