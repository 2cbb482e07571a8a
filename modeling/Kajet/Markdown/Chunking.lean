import Kajet.Markdown.Sections
import Kajet.Markdown.Blocks

/-!
# The chunks of a note

* `chunkMarkdown`        the sections, cut to size and numbered;
* `Kept`                 what the chunks have of the text;
* `chunkMarkdown_kept`   they have all of it, for every text and all sizes that the guard lets through.
-/

namespace Kajet.Markdown
open Str Spans Fuel

structure Chunk where
  ordinal : ℕ
  headerPath : List Text
  content : Text
  charStart : ℕ
  charEnd : ℕ
deriving DecidableEq

/-- The locals of the loop over the sections. -/
structure Chunked where
  chunks : List Chunk
  ordinal : ℕ

def Chunked.add (sec : Section) (c : Chunked) (piece : Text) : Chunked :=
  if strip piece = [] then c
  else ⟨c.chunks ++ [⟨c.ordinal, sec.headerPath, piece, sec.charStart, sec.charEnd⟩], c.ordinal + 1⟩

def chunkSection (hardMax fuel : ℕ) (c : Chunked) (sec : Section) : Option Chunked :=
  let body := stripChars ['\n'] sec.content
  if strip body = [] then some c
  else do
    let pieces ← splitBody fuel hardMax body
    return pieces.foldl (Chunked.add sec) c

/-- `fuel` bounds the rounds of each hard cut; with too little of it there is no result. -/
def chunkMarkdown (parse : Text → List Token) (fuel : ℕ) (text : Text) (title : Option Text)
    (target hardMax minSize : ℤ) : Option (Except ChunkError (List Chunk)) :=
  if ¬ (0 ≤ minSize ∧ minSize ≤ target ∧ target ≤ hardMax) then
    some (.error (.sizes minSize target hardMax))
  else if strip text = [] then some (.ok [])
  else
    match buildSections parse text title with
    | .error e => some (.error e)
    | .ok sections => do
      let c ← (mergeSmall sections target.toNat minSize.toNat).foldlM (chunkSection hardMax.toNat fuel) ⟨[], 0⟩
      return .ok c.chunks

/-- The text outside of the lines of its headings. -/
def bodyText (text : Text) (headings : List Heading) : Text :=
  (bodyPositions text headings).filterMap (text[·]?)

def Chunk.span (c : Chunk) : Span Char := ⟨c.content, c.charStart, c.charEnd⟩

/-- What the chunks of a text are. -/
structure Kept (text : Text) (headings : List Heading) (hardMax : ℕ) (chunks : List Chunk) : Prop where
  ordinals : chunks.map Chunk.ordinal = List.range chunks.length
  sizes : ∀ c ∈ chunks, strip c.content ≠ [] ∧ c.content.length ≤ hardMax
  /-- the spans lie in the text and do not go back; each chunk has its characters from its own span -/
  laid : Laid isSpace text (bodyInk text headings) (chunks.map Chunk.span)
  ink : (chunks.flatMap fun c => Spans.ink isSpace c.content) = Spans.ink isSpace (bodyText text headings)

section
variable {text : Text} {sec : Section} {c : Chunked} {pieces : List Text} {piece : Text} {hardMax : ℕ}
  {done : List Section}

structure Chunked.Numbered (c : Chunked) : Prop where
  length : c.ordinal = c.chunks.length
  ordinals : c.chunks.map Chunk.ordinal = List.range c.ordinal

theorem Chunked.Numbered.add (h : c.Numbered) : (c.add sec piece).Numbered := by
  unfold Chunked.add
  split
  · exact h
  · refine ⟨?_, ?_⟩
    · rw [List.length_append, List.length_singleton, ← h.length]
    · rw [List.map_append, h.ordinals, List.range_succ]
      rfl

theorem Chunked.Numbered.fold (h : c.Numbered) (pieces : List Text) :
    (pieces.foldl (Chunked.add sec) c).Numbered := by
  induction pieces generalizing c with
  | nil => exact h
  | cons piece pieces ih => exact ih h.add

/-- The chunks `ys` of a section: not blank, small enough, in its span. -/
structure Cut (hardMax : ℕ) (sec : Section) (ys : List Chunk) : Prop where
  sizes : ∀ y ∈ ys, strip y.content ≠ [] ∧ y.content.length ≤ hardMax
  span : ∀ y ∈ ys, y.charStart = sec.charStart ∧ y.charEnd = sec.charEnd

theorem cut_nil : Cut hardMax sec [] := ⟨fun _ hy => (nomatch hy), fun _ hy => (nomatch hy)⟩

variable (sec) in
theorem fold_add (hpieces : ∀ x ∈ pieces, x.length ≤ hardMax) (c : Chunked) :
    ∃ ys, (pieces.foldl (Chunked.add sec) c).chunks = c.chunks ++ ys ∧ Cut hardMax sec ys ∧
      (ys.flatMap fun y => ink isSpace y.content) = ink isSpace pieces.flatten := by
  induction pieces generalizing c with
  | nil => exact ⟨[], (List.append_nil _).symm, cut_nil, rfl⟩
  | cons piece pieces ih =>
    obtain ⟨ys, hys, hcut, hink⟩ := ih (fun x hx => hpieces x (List.mem_cons_of_mem piece hx)) (c.add sec piece)
    rw [List.foldl_cons, hys, List.flatten_cons, ink_append]
    unfold Chunked.add
    split
    · rename_i hblank
      exact ⟨ys, rfl, hcut, by rw [hink, ink_eq_nil.mpr (strip_eq_nil.mp hblank), List.nil_append]⟩
    · rename_i hne
      refine ⟨⟨c.ordinal, sec.headerPath, piece, sec.charStart, sec.charEnd⟩ :: ys, ?_, ⟨?_, ?_⟩, ?_⟩
      · rw [List.append_assoc, List.singleton_append]
      · intro y hy
        rcases List.mem_cons.mp hy with rfl | hy
        · exact ⟨hne, hpieces piece List.mem_cons_self⟩
        · exact hcut.sizes y hy
      · intro y hy
        rcases List.mem_cons.mp hy with rfl | hy
        · exact ⟨rfl, rfl⟩
        · exact hcut.span y hy
      · rw [List.flatMap_cons, hink]

theorem ink_stripNewlines {s : Text} : ink isSpace (stripChars ['\n'] s) = ink isSpace s := by
  have hblank : ∀ c, decide (c ∈ ['\n']) = true → isSpace c = true := by
    intro c hc
    obtain rfl : c = '\n' := by simpa using hc
    rfl
  rw [stripChars, stripBy, ink_rdropWhile hblank, ink_dropWhile hblank]

/-- One section: its chunks have what it has. -/
theorem chunkSection_settles (hpos : 0 < hardMax) (c : Chunked) (sec : Section) :
    ∃ c' ys, Settles (fun fuel => chunkSection hardMax fuel c sec) c' ∧ c'.chunks = c.chunks ++ ys ∧
      (c.Numbered → c'.Numbered) ∧ Cut hardMax sec ys ∧
      (ys.flatMap fun y => ink isSpace y.content) = ink isSpace sec.content := by
  unfold chunkSection
  dsimp only
  by_cases hblank : strip (stripChars ['\n'] sec.content) = []
  · simp only [if_pos hblank]
    refine ⟨c, [], .pure c, (List.append_nil _).symm, id, cut_nil, ?_⟩
    rw [← ink_stripNewlines, ink_eq_nil.mpr (strip_eq_nil.mp hblank)]
    rfl
  · simp only [if_neg hblank]
    obtain ⟨pieces, hpieces, hfits, hink⟩ := splitBody_settles hpos (stripChars ['\n'] sec.content)
    obtain ⟨ys, hys, hcut, hinkys⟩ := fold_add sec hfits c
    refine ⟨_, ys, hpieces.bind (.pure _), hys, fun h => h.fold pieces, hcut, ?_⟩
    rw [hinkys, hink, ink_stripNewlines]

/-- The chunks so far: numbered, small enough, and good for what the sections `done` are good for. -/
structure Stands (hardMax : ℕ) (done : List Section) (c : Chunked) : Prop where
  numbered : c.Numbered
  sizes : ∀ x ∈ c.chunks, strip x.content ≠ [] ∧ x.content.length ≤ hardMax
  laid : ∀ text ps rest, Laid isSpace text ps (done.map Section.span ++ rest) →
    Laid isSpace text ps (c.chunks.map Chunk.span ++ rest)

theorem Stands.step (hpos : 0 < hardMax) (h : Stands hardMax done c) (sec : Section) :
    ∃ c', Settles (fun fuel => chunkSection hardMax fuel c sec) c' ∧ Stands hardMax (done ++ [sec]) c' := by
  obtain ⟨c', ys, hc', hchunks, hnumbered, hcut, hink⟩ := chunkSection_settles hpos c sec
  refine ⟨c', hc', hnumbered h.numbered, ?_, fun text ps rest hlaid => ?_⟩
  · intro x hx
    rw [hchunks] at hx
    exact (List.mem_append.mp hx).elim (h.sizes x) (hcut.sizes x)
  · rw [List.map_append, List.append_assoc] at hlaid
    rw [hchunks, List.map_append, List.append_assoc]
    refine (h.laid text ps _ hlaid).refine (x := sec.span) ?_ ?_
    · intro y hy
      obtain ⟨x, hx, rfl⟩ := List.mem_map.mp hy
      exact hcut.span x hx
    · rw [List.flatMap_map]
      exact hink

/-- The chunks of all the sections. -/
theorem sections_settle (hpos : 0 < hardMax) (sections : List Section) :
    ∃ c, Settles (fun fuel => sections.foldlM (chunkSection hardMax fuel) ⟨[], 0⟩) c ∧
      Stands hardMax sections c :=
  Settles.foldlM (chunkSection hardMax) (Stands hardMax)
    ⟨⟨rfl, rfl⟩, fun _ hx => (nomatch hx), fun _ _ _ h => h⟩ fun _ _ sec h => h.step hpos sec

theorem bodyInk_of_blank {headings : List Heading} (h : strip text = []) : bodyInk text headings = [] := by
  refine List.filter_eq_nil_iff.mpr fun i hi => ?_
  rw [inkAt, Option.any_eq_true]
  rintro ⟨c, hc, hspace⟩
  rw [strip_eq_nil.mp h c (List.mem_of_getElem? hc)] at hspace
  cases hspace

theorem kept_of_laid {headings : List Heading} {chunks : List Chunk}
    (hordinals : chunks.map Chunk.ordinal = List.range chunks.length)
    (hsizes : ∀ c ∈ chunks, strip c.content ≠ [] ∧ c.content.length ≤ hardMax)
    (hlaid : Laid isSpace text (bodyInk text headings) (chunks.map Chunk.span)) :
    Kept text headings hardMax chunks := by
  refine ⟨hordinals, hsizes, hlaid, ?_⟩
  have hink := hlaid.placed.ink
  rw [List.flatMap_map, bodyInk, filterMap_inkAt] at hink
  exact hink

/-- **Chunking keeps the text.**  For all sizes that pass the guard, with a limit that is not zero, the loops
end, and the chunks have what is no whitespace and in no heading. -/
theorem chunkMarkdown_kept {parse : Text → List Token} {headings : List Heading} {title : Option Text}
    {target hardMax minSize : ℤ} (hmin : 0 ≤ minSize) (htarget : minSize ≤ target) (hmax : target ≤ hardMax)
    (hpos : 1 ≤ hardMax) (hheadings : iterHeadings false (parse text) = some headings)
    (horder : InOrder headings ((lineOffsets text).length - 1)) :
    ∃ chunks, Settles (fun fuel => chunkMarkdown parse fuel text title target hardMax minSize) (.ok chunks) ∧
      Kept text headings hardMax.toNat chunks := by
  have hguard : ¬ ¬ (0 ≤ minSize ∧ minSize ≤ target ∧ target ≤ hardMax) := not_not.mpr ⟨hmin, htarget, hmax⟩
  unfold chunkMarkdown
  simp only [if_neg hguard]
  by_cases hblank : strip text = []
  · simp only [if_pos hblank]
    refine ⟨[], .pure _, kept_of_laid rfl (fun _ hc => (nomatch hc)) ?_⟩
    rw [bodyInk_of_blank hblank]
    exact laid_nil
  · simp only [if_neg hblank]
    obtain ⟨sections, hsections, hlaid⟩ := buildSections_laid title hheadings horder
    obtain ⟨c, hc, hstands⟩ := sections_settle (show 0 < hardMax.toNat by omega)
      (mergeSmall sections target.toNat minSize.toNat)
    simp only [hsections]
    refine ⟨c.chunks, hc.bind (.pure _), kept_of_laid ?_ hstands.sizes ?_⟩
    · rw [hstands.numbered.ordinals, hstands.numbered.length]
    · have hmerged := hstands.laid text _ [] (by
        rw [List.append_nil]
        exact mergeSmall_laid hlaid)
      rwa [List.append_nil] at hmerged

end

/-! ## a small note -/

def smallText : Text := "in\n# A\nx. yz\n".toList

/-- Its tokens: a paragraph, a heading and a paragraph. -/
def smallTokens : List Token :=
  [⟨"paragraph_open", "p".toList, 0, some (0, 1), []⟩, ⟨"inline", [], 1, some (0, 1), "in".toList⟩,
    ⟨"paragraph_close", "p".toList, 0, none, []⟩, ⟨"heading_open", "h1".toList, 0, some (1, 2), []⟩,
    ⟨"inline", [], 1, some (1, 2), "A".toList⟩, ⟨"heading_close", "h1".toList, 0, none, []⟩,
    ⟨"paragraph_open", "p".toList, 0, some (2, 3), []⟩, ⟨"inline", [], 1, some (2, 3), "x. yz".toList⟩,
    ⟨"paragraph_close", "p".toList, 0, none, []⟩]

theorem chunkMarkdown_kept_small : ∃ chunks,
    Settles (fun fuel => chunkMarkdown (fun _ => smallTokens) fuel smallText none 2 4 1) (.ok chunks) ∧
      Kept smallText [⟨1, "A".toList, 1, 2⟩] 4 chunks :=
  chunkMarkdown_kept (by decide) (by decide) (by decide) (by decide) (by decide +kernel)
    ⟨by decide, by decide +kernel⟩

example : chunkMarkdown (fun _ => smallTokens) 0 smallText none 2 4 1 = some (.ok
    [⟨0, [], "in".toList, 0, 3⟩, ⟨1, ["# A".toList], "x.".toList, 7, 13⟩,
      ⟨2, ["# A".toList], "yz".toList, 7, 13⟩]) := by decide +kernel

end Kajet.Markdown
