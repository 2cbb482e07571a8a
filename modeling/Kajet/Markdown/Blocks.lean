import Kajet.Lib.Fuel
import Kajet.Lib.Spans
import Kajet.Lib.Str

/-!
# Cutting a section to size

* `splitlines`, `sentences`   the units of an oversized block;
* `blocks`                    paragraphs and fences;
* `splitOversizedBlock`, `splitBody`   pieces of at most `hardMax` characters;
* `splitBody_settles`         with enough fuel the pieces are there, no longer than that, and with the text
                              of the body.
-/

namespace Kajet.Markdown
open Str Spans Fuel

/-- Where `str.splitlines` ends a line, besides `\r\n`. -/
def isLineBreak (c : Char) : Bool :=
  c.toNat ∈ [0x0a, 0x0b, 0x0c, 0x0d, 0x1c, 0x1d, 0x1e, 0x85, 0x2028, 0x2029]

/-- The character joins the first part. -/
def consFirst (c : Char) : List Text → List Text
  | [] => [[c]]
  | s :: ss => (c :: s) :: ss

def splitlines : Text → List Text
  | [] => []
  | '\r' :: '\n' :: s => [] :: splitlines s
  | c :: s => if isLineBreak c then [] :: splitlines s else consFirst c (splitlines s)

/-- How far the scan for `(?<=[.!?])\s+` is: inside of a match, behind a `.`, `!` or `?`, or elsewhere. -/
inductive Scan where
  | gap
  | stop
  | plain
deriving DecidableEq

/-- `_SENTENCE_RE.split` -/
def sentences : Scan → Text → List Text
  | _, [] => [[]]
  | .gap, c :: s => if isSpace c then sentences .gap s
    else consFirst c (sentences (if c ∈ ".!?".toList then .stop else .plain) s)
  | .stop, c :: s => if isSpace c then [] :: sentences .gap s
    else consFirst c (sentences (if c ∈ ".!?".toList then .stop else .plain) s)
  | .plain, c :: s => consFirst c (sentences (if c ∈ ".!?".toList then .stop else .plain) s)

example : sentences .plain "Yes.  No? e.g. 3".toList = ["Yes.".toList, "No?".toList, "e.g.".toList, "3".toList] := by
  decide +kernel

def fenceMarkers : List Text := ["```".toList, "~~~".toList]

/-- The locals of `_blocks`; `fence` is the marker of the fence that is open. -/
structure Buffer where
  blocks : List Text
  buf : List Text
  fence : Option Text

def Buffer.flush (b : Buffer) : Buffer :=
  if b.buf = [] then b else { b with blocks := b.blocks ++ [join '\n' b.buf], buf := [] }

def Buffer.line (b : Buffer) (line : Text) : Buffer :=
  let stripped := line.dropWhile isSpace
  match b.fence with
  | some marker =>
    let b := { b with buf := b.buf ++ [line] }
    if marker.isPrefixOf stripped then { b.flush with fence := none } else b
  | none =>
    match fenceMarkers.find? (·.isPrefixOf stripped) with
    | some opener => { blocks := b.flush.blocks, buf := b.flush.buf ++ [line], fence := some opener }
    | none => if strip line = [] then b.flush else { b with buf := b.buf ++ [line] }

def blocks (body : Text) : List Text := ((splitlines body).foldl Buffer.line ⟨[], [], none⟩).flush.blocks

/-- The pieces that are done, and the one that grows. -/
structure Pack where
  pieces : List Text
  cur : Text

/-- `cur` is a piece unless it is empty. -/
def Pack.flush (p : Pack) : List Text := if p.cur = [] then p.pieces else p.pieces ++ [p.cur]

/-- `while len(cur) > hard_max` -/
def hardCut (hardMax : ℕ) : ℕ → Pack → Option Pack
  | fuel, p =>
    if p.cur.length ≤ hardMax then some p
    else
      match fuel with
      | 0 => none
      | fuel + 1 => hardCut hardMax fuel ⟨p.pieces ++ [p.cur.take hardMax], p.cur.drop hardMax⟩

/-- `unit if not cur else cur + sep + unit` -/
def candidate (sep cur unit : Text) : Text := if cur = [] then unit else cur ++ sep ++ unit

/-- The unit goes to the piece that grows, or starts the next one. -/
def Pack.add (hardMax : ℕ) (sep : Text) (p : Pack) (unit : Text) : Pack :=
  if (candidate sep p.cur unit).length ≤ hardMax ∨ p.cur = [] then ⟨p.pieces, candidate sep p.cur unit⟩
  else ⟨p.pieces ++ [p.cur], unit⟩

def isFence (block : Text) : Bool := fenceMarkers.any (·.isPrefixOf (block.dropWhile isSpace))

def splitOversizedBlock (fuel hardMax : ℕ) (block : Text) : Option (List Text) := do
  let units := if isFence block then splitlines block else sentences .plain block
  let sep := if isFence block then "\n".toList else " ".toList
  let p ← units.foldlM (fun p unit => hardCut hardMax fuel (p.add hardMax sep unit)) ⟨[], []⟩
  return p.flush

/-- One block of `_split_body`. -/
def packBlock (fuel hardMax : ℕ) (p : Pack) (block : Text) : Option Pack :=
  if hardMax < block.length then do
    let pieces ← splitOversizedBlock fuel hardMax block
    return ⟨p.flush ++ pieces, []⟩
  else
    if (candidate "\n\n".toList p.cur block).length ≤ hardMax then
      some ⟨p.pieces, candidate "\n\n".toList p.cur block⟩
    else some ⟨p.pieces ++ [p.cur], block⟩

def splitBody (fuel hardMax : ℕ) (body : Text) : Option (List Text) :=
  if body.length ≤ hardMax then some [body]
  else do
    let p ← (blocks body).foldlM (packBlock fuel hardMax) ⟨[], []⟩
    return p.flush

/-! ## units -/

section
variable {s : Text} {c : Char} {ss : List Text} {scan : Scan}

theorem isSpace_of_isLineBreak (h : isLineBreak c = true) : isSpace c = true := by
  simp only [isLineBreak, List.mem_cons, List.not_mem_nil, or_false, decide_eq_true_eq] at h
  rcases h with h | h | h | h | h | h | h | h | h | h <;> simp [isSpace, h]

theorem flatten_consFirst : (consFirst c ss).flatten = c :: ss.flatten := by
  cases ss <;> rfl

theorem ink_consFirst : ink isSpace (consFirst c ss).flatten = ink isSpace [c] ++ ink isSpace ss.flatten := by
  rw [flatten_consFirst, ← ink_append, List.singleton_append]

/-- What `splitlines` drops is whitespace. -/
theorem ink_splitlines : ink isSpace (splitlines s).flatten = ink isSpace s := by
  induction s using splitlines.induct with
  | case1 => rfl
  | case2 s ih =>
    rw [splitlines, List.flatten_cons, List.nil_append, ih]
    rfl
  | case3 c s hne hbreak ih =>
    rw [splitlines.eq_3 c s hne, if_pos hbreak, List.flatten_cons, List.nil_append, ih,
      ink_cons_of_blank (isSpace_of_isLineBreak hbreak)]
  | case4 c s hne hbreak ih =>
    rw [splitlines.eq_3 c s hne, if_neg hbreak, ink_consFirst, ih, ← ink_append, List.singleton_append]

/-- What is between two sentences is whitespace. -/
theorem ink_sentences : ink isSpace (sentences scan s).flatten = ink isSpace s := by
  induction s generalizing scan with
  | nil => cases scan <;> rfl
  | cons c s ih =>
    have hplain : ∀ scan, ink isSpace (consFirst c (sentences scan s)).flatten = ink isSpace (c :: s) := by
      intro scan
      rw [ink_consFirst, ih, ← ink_append, List.singleton_append]
    cases scan with
    | plain => exact hplain _
    | gap =>
      rw [sentences]
      split
      · rename_i hspace
        rw [ih, ink_cons_of_blank hspace]
      · exact hplain _
    | stop =>
      rw [sentences]
      split
      · rename_i hspace
        rw [List.flatten_cons, List.nil_append, ih, ink_cons_of_blank hspace]
      · exact hplain _

end

/-! ## blocks -/

section
variable {b : Buffer} {line body : Text}

theorem ink_join_newline (ls : List Text) : ink isSpace (join '\n' ls) = ink isSpace ls.flatten :=
  ink_intercalate rfl ls

/-- What a buffer has of the text. -/
def Buffer.ink (b : Buffer) : Text := Spans.ink isSpace (b.blocks.flatten ++ b.buf.flatten)

theorem Buffer.flush_buf : b.flush.buf = [] := by
  unfold Buffer.flush
  split
  · assumption
  · rfl

theorem Buffer.flush_ink : b.flush.ink = b.ink := by
  unfold Buffer.flush
  split
  · rfl
  · rw [Buffer.ink, Buffer.ink, List.flatten_append, List.flatten_singleton, List.flatten_nil, List.append_nil,
      ink_append, ink_append, ink_join_newline]

theorem Buffer.flush_blocks : Spans.ink isSpace b.flush.blocks.flatten = b.ink := by
  rw [← b.flush_ink, Buffer.ink, Buffer.flush_buf, List.flatten_nil, List.append_nil]

theorem Buffer.ink_push {blocks buf : List Text} {fence : Option Text} :
    Buffer.ink ⟨blocks, buf ++ [line], fence⟩ = Buffer.ink ⟨blocks, buf, fence⟩ ++ Spans.ink isSpace line := by
  rw [Buffer.ink, Buffer.ink, List.flatten_append, List.flatten_singleton, ← List.append_assoc, ink_append]

/-- A line that is not in the buffer afterwards is blank. -/
theorem Buffer.line_ink : (b.line line).ink = b.ink ++ Spans.ink isSpace line := by
  unfold Buffer.line
  dsimp only
  split
  · split
    · exact Buffer.flush_ink.trans Buffer.ink_push
    · exact Buffer.ink_push
  · split
    · rw [Buffer.ink_push]
      exact congrArg (· ++ _) b.flush_ink
    · split
      · rename_i hblank
        rw [Buffer.flush_ink, ink_eq_nil.mpr (strip_eq_nil.mp hblank), List.append_nil]
      · exact Buffer.ink_push

/-- **`_blocks`** keeps all but whitespace. -/
theorem ink_blocks : ink isSpace (blocks body).flatten = ink isSpace body := by
  have hfold : ∀ (lines : List Text) (b : Buffer),
      (lines.foldl Buffer.line b).ink = b.ink ++ ink isSpace lines.flatten := by
    intro lines
    induction lines with
    | nil => exact fun b => (List.append_nil _).symm
    | cons line lines ih =>
      intro b
      rw [List.foldl_cons, ih, Buffer.line_ink, List.flatten_cons, ink_append, List.append_assoc]
  rw [blocks, Buffer.flush_blocks, hfold, ink_splitlines]
  rfl

end

/-! ## pieces -/

section
variable {p q : Pack} {hardMax : ℕ} {sep unit block body : Text}

structure Pack.Fits (hardMax : ℕ) (p : Pack) : Prop where
  pieces : ∀ x ∈ p.pieces, x.length ≤ hardMax
  cur : p.cur.length ≤ hardMax

/-- What a pack has of the text. -/
def Pack.ink (p : Pack) : Text := Spans.ink isSpace (p.pieces.flatten ++ p.cur)

theorem fits_nil : Pack.Fits hardMax ⟨[], []⟩ := ⟨fun _ hx => (nomatch hx), Nat.zero_le _⟩

theorem Pack.flush_ink : Spans.ink isSpace p.flush.flatten = p.ink := by
  unfold Pack.flush Pack.ink
  split
  · rename_i hcur
    rw [hcur, List.append_nil]
  · rw [List.flatten_append, List.flatten_singleton]

theorem hardCut_of_le {fuel : ℕ} (h : p.cur.length ≤ hardMax) : hardCut hardMax fuel p = some p := by
  unfold hardCut
  exact if_pos h

theorem hardCut_succ {fuel : ℕ} (h : ¬ p.cur.length ≤ hardMax) : hardCut hardMax (fuel + 1) p =
    hardCut hardMax fuel ⟨p.pieces ++ [p.cur.take hardMax], p.cur.drop hardMax⟩ := by
  conv_lhs => unfold hardCut
  exact if_neg h

theorem fits_concat {pieces : List Text} {x : Text} (h : ∀ x ∈ pieces, x.length ≤ hardMax)
    (hx : x.length ≤ hardMax) : ∀ y ∈ pieces ++ [x], y.length ≤ hardMax := by
  intro y hy
  rcases List.mem_append.mp hy with hy | hy
  · exact h y hy
  · exact List.mem_singleton.mp hy ▸ hx

theorem Pack.Fits.flush (h : p.Fits hardMax) : ∀ x ∈ p.flush, x.length ≤ hardMax := by
  unfold Pack.flush
  split
  · exact h.pieces
  · exact fits_concat h.pieces h.cur

/-- The loop of the hard cut ends: `cur` gets shorter in every round. -/
theorem hardCut_settles (hpos : 0 < hardMax) (hp : ∀ x ∈ p.pieces, x.length ≤ hardMax) :
    ∃ q, Settles (fun fuel => hardCut hardMax fuel p) q ∧ q.Fits hardMax ∧ q.ink = p.ink := by
  induction hn : p.cur.length using Nat.strongRecOn generalizing p with
  | ind n ih =>
    by_cases hcur : p.cur.length ≤ hardMax
    · exact ⟨p, ⟨0, fun fuel _ => hardCut_of_le hcur⟩, ⟨hp, hcur⟩, rfl⟩
    · have hlt : (p.cur.drop hardMax).length < n := by
        rw [List.length_drop]
        omega
      have hcut := fits_concat hp (List.length_take_le hardMax p.cur)
      obtain ⟨q, ⟨m, hm⟩, hfits, hink⟩ :=
        ih _ hlt (p := ⟨p.pieces ++ [p.cur.take hardMax], p.cur.drop hardMax⟩) hcut rfl
      refine ⟨q, ⟨m + 1, fun fuel hfuel => ?_⟩, hfits, ?_⟩
      · obtain ⟨fuel, rfl⟩ : ∃ k, fuel = k + 1 := ⟨fuel - 1, by omega⟩
        exact (hardCut_succ hcur).trans (hm fuel (by omega))
      · rw [hink, Pack.ink, Pack.ink, List.flatten_append, List.flatten_singleton, List.append_assoc,
          List.take_append_drop]

theorem ink_candidate {cur : Text} (hsep : ink isSpace sep = []) :
    ink isSpace (candidate sep cur unit) = ink isSpace cur ++ ink isSpace unit := by
  unfold candidate
  split
  · rename_i hcur
    rw [hcur, ink_nil, List.nil_append]
  · rw [ink_append, ink_append, hsep, List.append_nil]

theorem Pack.Fits.add (h : p.Fits hardMax) : ∀ x ∈ (p.add hardMax sep unit).pieces, x.length ≤ hardMax := by
  unfold Pack.add
  split
  · exact h.pieces
  · exact fits_concat h.pieces h.cur

theorem Pack.ink_concat {pieces : List Text} {cur : Text} :
    Pack.ink ⟨pieces ++ [cur], unit⟩ = Pack.ink ⟨pieces, cur⟩ ++ Spans.ink isSpace unit := by
  rw [Pack.ink, Pack.ink, List.flatten_append, List.flatten_singleton, ink_append]

theorem Pack.ink_candidate (hsep : Spans.ink isSpace sep = []) :
    Pack.ink ⟨p.pieces, candidate sep p.cur unit⟩ = p.ink ++ Spans.ink isSpace unit := by
  rw [Pack.ink, Pack.ink, ink_append, ink_append, Markdown.ink_candidate hsep, List.append_assoc]

theorem Pack.add_ink (hsep : Spans.ink isSpace sep = []) :
    (p.add hardMax sep unit).ink = p.ink ++ Spans.ink isSpace unit := by
  unfold Pack.add
  split
  · exact Pack.ink_candidate hsep
  · exact Pack.ink_concat

/-- **`_split_oversized_block`** ends, and its pieces have what the block has. -/
theorem splitOversizedBlock_settles (hpos : 0 < hardMax) (block : Text) :
    ∃ pieces, Settles (fun fuel => splitOversizedBlock fuel hardMax block) pieces ∧
      (∀ x ∈ pieces, x.length ≤ hardMax) ∧ ink isSpace pieces.flatten = ink isSpace block := by
  have hunits : ink isSpace (if isFence block then splitlines block else sentences .plain block).flatten =
      ink isSpace block := by
    split
    · exact ink_splitlines
    · exact ink_sentences
  have hsep : ink isSpace (if isFence block then "\n".toList else " ".toList) = [] := by
    split <;> rfl
  obtain ⟨q, hq, hfits, hink⟩ := Settles.foldlM
    (fun fuel p unit => hardCut hardMax fuel (p.add hardMax
      (if isFence block then "\n".toList else " ".toList) unit))
    (fun done p => p.Fits hardMax ∧ p.ink = ink isSpace done.flatten)
    (l := if isFence block then splitlines block else sentences .plain block) ⟨fits_nil, rfl⟩
    fun done p unit ⟨hfits, hink⟩ => by
      obtain ⟨q, hq, hqfits, hqink⟩ := hardCut_settles hpos hfits.add
      refine ⟨q, hq, hqfits, ?_⟩
      rw [hqink, Pack.add_ink hsep, hink, List.flatten_append, List.flatten_singleton, ink_append]
  refine ⟨q.flush, hq.bind (.pure _), hfits.flush, ?_⟩
  rw [Pack.flush_ink, hink, hunits]

theorem packBlock_settles (hpos : 0 < hardMax) (h : p.Fits hardMax) :
    ∃ q, Settles (fun fuel => packBlock fuel hardMax p block) q ∧ q.Fits hardMax ∧
      q.ink = p.ink ++ ink isSpace block := by
  unfold packBlock
  by_cases hblock : hardMax < block.length
  · obtain ⟨pieces, hpieces, hfits, hink⟩ := splitOversizedBlock_settles hpos block
    refine ⟨⟨p.flush ++ pieces, []⟩, ?_, ⟨?_, Nat.zero_le _⟩, ?_⟩
    · simp only [if_pos hblock]
      exact hpieces.bind (.pure _)
    · intro x hx
      exact (List.mem_append.mp hx).elim (h.flush x) (hfits x)
    · rw [Pack.ink, List.append_nil, List.flatten_append, ink_append, Pack.flush_ink, hink]
  · simp only [if_neg hblock]
    by_cases hfit : (candidate "\n\n".toList p.cur block).length ≤ hardMax
    · simp only [if_pos hfit]
      exact ⟨_, .pure _, ⟨h.pieces, hfit⟩, Pack.ink_candidate rfl⟩
    · simp only [if_neg hfit]
      exact ⟨_, .pure _, ⟨fits_concat h.pieces h.cur, not_lt.mp hblock⟩, Pack.ink_concat⟩

/-- **`_split_body`** ends; its pieces are small enough and have what the body has. -/
theorem splitBody_settles (hpos : 0 < hardMax) (body : Text) :
    ∃ pieces, Settles (fun fuel => splitBody fuel hardMax body) pieces ∧
      (∀ x ∈ pieces, x.length ≤ hardMax) ∧ ink isSpace pieces.flatten = ink isSpace body := by
  unfold splitBody
  by_cases hbody : body.length ≤ hardMax
  · simp only [if_pos hbody]
    exact ⟨[body], .pure _, fun x hx => List.mem_singleton.mp hx ▸ hbody, by rw [List.flatten_singleton]⟩
  · simp only [if_neg hbody]
    obtain ⟨q, hq, hfits, hink⟩ := Settles.foldlM (packBlock · hardMax)
      (fun done p => p.Fits hardMax ∧ p.ink = ink isSpace done.flatten) (l := blocks body) ⟨fits_nil, rfl⟩
      fun done p block ⟨hfits, hink⟩ => by
        obtain ⟨q, hq, hqfits, hqink⟩ := packBlock_settles hpos hfits
        refine ⟨q, hq, hqfits, ?_⟩
        rw [hqink, hink, List.flatten_append, List.flatten_singleton, ink_append]
    refine ⟨q.flush, hq.bind (.pure _), hfits.flush, ?_⟩
    rw [Pack.flush_ink, hink, ink_blocks]

end
end Kajet.Markdown
