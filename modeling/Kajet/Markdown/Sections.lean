import Kajet.Lib.Spans
import Kajet.Markdown.Tokens
import Kajet.Lib.Table

/-!
# The sections of a note

* `buildSections`   the text between the headings, each part with its breadcrumb;
* `mergeSmall`      small neighbours become one section;
* `bodyInk`         the positions of a text that are no whitespace and in no heading;
* `buildSections_laid`, `mergeSmall_laid`   the sections have exactly these.
-/

namespace Kajet.Markdown
open Str Spans Table

structure Section where
  headerPath : List Text
  content : Text
  charStart : ℕ
  charEnd : ℕ
deriving DecidableEq

inductive ChunkError where
  | sizes (minSize target hardMax : ℤ)
  /-- tokens that the parser does not make -/
  | tokens
  /-- a line behind the end of the text -/
  | line (i : ℕ)
deriving DecidableEq

def label (level : ℕ) (text : Text) : Text := List.replicate level '#' ++ ' ' :: text

def pathWithTitle (titleEntry : Option Text) (stackLabels : List Text) : List Text :=
  match titleEntry with
  | none => stackLabels
  | some entry =>
    if stackLabels.head?.any ("# ".toList.isPrefixOf ·) then stackLabels else entry :: stackLabels

/-- `offsets[i]` -/
def offsetAt (offsets : List ℕ) (i : ℕ) : Except ChunkError ℕ :=
  match offsets[i]? with
  | some o => .ok o
  | none => .error (.line i)

/-- The stack at a heading: only what is above its level, and the heading itself. -/
def nest (stack : List (ℕ × Text)) (h : Heading) : List (ℕ × Text) :=
  stack.rdropWhile (fun x => h.level ≤ x.1) ++ [(h.level, label h.level h.text)]

/-- One section for each heading; `stack` has the levels and labels of the headings above. -/
def sectionsFrom (text : Text) (titleEntry : Option Text) (offsets : List ℕ) :
    List (ℕ × Text) → List Heading → Except ChunkError (List Section)
  | _, [] => .ok []
  | stack, h :: headings => do
    let stack := nest stack h
    let bodyEndLine := (headings.head?.map Heading.openLine).getD (offsets.length - 1)
    let cs ← offsetAt offsets h.bodyLine
    let ce ← offsetAt offsets bodyEndLine
    let sections ← sectionsFrom text titleEntry offsets stack headings
    return ⟨pathWithTitle titleEntry (stack.map Prod.snd), slice text cs ce, cs, ce⟩ :: sections

/-- What stands before the first heading, unless it is blank. -/
def preamble (text : Text) (titleEntry : Option Text) (offsets : List ℕ) (headings : List Heading) :
    Except ChunkError (List Section) := do
  let firstBodyStart := (headings.head?.map Heading.openLine).getD (offsets.length - 1)
  if 0 < firstBodyStart then
    let cs ← offsetAt offsets 0
    let ce ← offsetAt offsets firstBodyStart
    if strip (slice text cs ce) = [] then return []
    else return [⟨pathWithTitle titleEntry [], slice text cs ce, cs, ce⟩]
  else return []

/-- `parse` is the parser's `_MD.parse`. -/
def buildSections (parse : Text → List Token) (text : Text) (title : Option Text) :
    Except ChunkError (List Section) := do
  let headings ← match iterHeadings false (parse text) with
    | some headings => .ok headings
    | none => .error .tokens
  let titleEntry := (title.filter (· ≠ [])).map (label 1)
  let first ← preamble text titleEntry (lineOffsets text) headings
  let sections ← sectionsFrom text titleEntry (lineOffsets text) [] headings
  return first ++ sections

def commonPrefix : List Text → List Text → List Text
  | x :: a, y :: b => if x = y then x :: commonPrefix a b else []
  | _, _ => []

/-- The next section goes into the last one or behind it. -/
def mergeInto (target minSize : ℕ) (merged : List Section) (sec : Section) : List Section :=
  match merged.getLast? with
  | none => merged ++ [sec]
  | some prev =>
    if prev.content.length + sec.content.length ≤ target ∧
        (prev.content.length < minSize ∨ sec.content.length < minSize) then
      merged.dropLast ++ [⟨commonPrefix prev.headerPath sec.headerPath,
        rstripChars ['\n'] prev.content ++ "\n\n".toList ++ sec.content.dropWhile (· ∈ ['\n']),
        prev.charStart, sec.charEnd⟩]
    else merged ++ [sec]

def mergeSmall (sections : List Section) (target minSize : ℕ) : List Section :=
  sections.foldl (mergeInto target minSize) []

/-! ## what the sections have to keep -/

def inHeading (headings : List Heading) (line : ℕ) : Bool :=
  headings.any fun h => h.openLine ≤ line && line < h.bodyLine

/-- The positions of a text outside of the lines of its headings. -/
def bodyPositions (text : Text) (headings : List Heading) : List ℕ :=
  (List.range text.length).filter fun i => !inHeading headings (lineAt text i)

/-- Those of them that are no whitespace. -/
def bodyInk (text : Text) (headings : List Heading) : List ℕ :=
  (bodyPositions text headings).filter (inkAt isSpace text)

/-- The headings in the order of the source, their lines disjoint and inside of the text. -/
structure InOrder (headings : List Heading) (nLines : ℕ) : Prop where
  apart : headings.Pairwise fun h k => h.bodyLine ≤ k.openLine
  within : ∀ h ∈ headings, h.openLine ≤ h.bodyLine ∧ h.bodyLine ≤ nLines

def Section.span (sec : Section) : Span Char := ⟨sec.content, sec.charStart, sec.charEnd⟩

section
variable {text : Text} {titleEntry : Option Text} {headings rest : List Heading} {h : Heading}
  {stack : List (ℕ × Text)} {a o o' : ℕ}

/-- The positions from `a` on that are no whitespace and in none of the headings. -/
def inkFrom (text : Text) (a : ℕ) (headings : List Heading) : List ℕ :=
  (List.range' a (text.length - a)).filter fun i =>
    inkAt isSpace text i && !inHeading headings (lineAt text i)

theorem bodyInk_eq : bodyInk text headings = inkFrom text 0 headings := by
  rw [bodyInk, bodyPositions, List.filter_filter, inkFrom, List.range_eq_range', Nat.sub_zero]

theorem inkFrom_nil : inkFrom text a [] = inkBetween isSpace text a text.length := by
  rw [inkFrom, inkBetween]
  exact List.filter_congr fun i _ => by simp [inHeading]

theorem InOrder.tail {nLines : ℕ} (horder : InOrder (h :: headings) nLines) : InOrder headings nLines :=
  ⟨(List.pairwise_cons.mp horder.apart).2, fun k hk => horder.within k (List.mem_cons_of_mem h hk)⟩

theorem not_inHeading {line : ℕ} (horder : InOrder (h :: headings) a) (hline : line < h.bodyLine) :
    inHeading headings line = false := by
  refine List.any_eq_false.mpr fun k hk => ?_
  have hle := (List.pairwise_cons.mp horder.apart).1 k hk
  simp
  omega

/-- The text before a heading, and the text behind it. -/
theorem inkFrom_cons (horder : InOrder (h :: headings) ((lineOffsets text).length - 1))
    (ha : a ≤ o) (ho : (lineOffsets text)[h.openLine]? = some o)
    (ho' : (lineOffsets text)[h.bodyLine]? = some o') :
    inkFrom text a (h :: headings) = inkBetween isSpace text a o ++ inkFrom text o' headings := by
  have hle := lineOffsets_mono ho ho' (horder.within h List.mem_cons_self).1
  have hlen := lineOffsets_le ho'
  have hopen := fun i hi => lineOffsets_le_iff (i := i) ho hi
  have hbody := fun i hi => lineOffsets_le_iff (i := i) ho' hi
  have hcons : ∀ line, inHeading (h :: headings) line =
      (decide (h.openLine ≤ line) && decide (line < h.bodyLine) || inHeading headings line) := fun _ => rfl
  rw [inkFrom, range'_split ha (hle.trans hlen), range'_split hle hlen, List.filter_append,
    List.filter_append, inkBetween, inkFrom]
  congr 1
  · -- before the heading
    refine List.filter_congr fun i hi => ?_
    have hi := List.mem_range'_1.mp hi
    have hline := hopen i (by omega)
    have hline' := hbody i (by omega)
    rw [hcons, not_inHeading horder (by omega), decide_eq_false (by omega)]
    simp
  · have hnone : (List.range' o (o' - o)).filter
        (fun i => inkAt isSpace text i && !inHeading (h :: headings) (lineAt text i)) = [] := by
      refine List.filter_eq_nil_iff.mpr fun i hi => ?_
      have hi := List.mem_range'_1.mp hi
      have hline := hopen i (by omega)
      have hline' := hbody i (by omega)
      rw [hcons, decide_eq_true (by omega), decide_eq_true (by omega)]
      simp
    rw [hnone, List.nil_append]
    refine List.filter_congr fun i hi => ?_
    have hi := List.mem_range'_1.mp hi
    have hline := hbody i (by omega)
    rw [hcons, decide_eq_false (p := lineAt text i < h.bodyLine) (by omega), Bool.and_false, Bool.false_or]

theorem offset_exists {i : ℕ} (hi : i ≤ (lineOffsets text).length - 1) : ∃ o, (lineOffsets text)[i]? = some o := by
  have hpos := (List.getElem?_eq_some_iff.mp (lineOffsets_zero text)).1
  exact ⟨_, List.getElem?_eq_getElem (show i < (lineOffsets text).length by omega)⟩

theorem offsetAt_eq {offsets : List ℕ} {i : ℕ} (h : offsets[i]? = some o) : offsetAt offsets i = .ok o := by
  rw [offsetAt, h]

theorem sectionsFrom_cons {offsets : List ℕ} {cs ce : ℕ} (hcs : offsets[h.bodyLine]? = some cs)
    (hce : offsets[(headings.head?.map Heading.openLine).getD (offsets.length - 1)]? = some ce) :
    sectionsFrom text titleEntry offsets stack (h :: headings) =
      (sectionsFrom text titleEntry offsets (nest stack h) headings).map
        (⟨pathWithTitle titleEntry ((nest stack h).map Prod.snd), slice text cs ce, cs, ce⟩ :: ·) := by
  rw [sectionsFrom, offsetAt_eq hcs, offsetAt_eq hce]
  cases sectionsFrom text titleEntry offsets (nest stack h) headings <;> rfl

variable (titleEntry) in
/-- The sections of the headings from `h` on have what is not in a heading behind `h`. -/
theorem sectionsFrom_laid (stack : List (ℕ × Text)) (horder : InOrder (h :: headings) ((lineOffsets text).length - 1))
    (ho : (lineOffsets text)[h.bodyLine]? = some o) :
    ∃ sections, sectionsFrom text titleEntry (lineOffsets text) stack (h :: headings) = .ok sections ∧
      Laid isSpace text (inkFrom text o headings) (sections.map Section.span) ∧
      ∀ x ∈ sections, o ≤ x.charStart := by
  induction headings generalizing h o stack with
  | nil =>
    have hle := lineOffsets_le ho
    refine ⟨_, by rw [sectionsFrom_cons ho lineOffsets_last, sectionsFrom]; rfl, ?_, ?_⟩
    · rw [inkFrom_nil]
      exact laid_singleton (covers_slice isSpace le_rfl) ⟨hle, le_rfl⟩
    · intro x hx
      obtain rfl := List.mem_singleton.mp hx
      exact le_rfl
  | cons next rest ih =>
    have hnext := horder.tail.within next List.mem_cons_self
    obtain ⟨ce, hce⟩ := offset_exists (hnext.1.trans hnext.2)
    obtain ⟨o', ho'⟩ := offset_exists hnext.2
    obtain ⟨sections, hsections, hlaid, hstart⟩ := ih (nest stack h) horder.tail ho'
    have hle := lineOffsets_mono ho hce ((List.pairwise_cons.mp horder.apart).1 next List.mem_cons_self)
    have hle' := lineOffsets_mono hce ho' hnext.1
    have hend : (lineOffsets text)[((next :: rest).head?.map Heading.openLine).getD
        ((lineOffsets text).length - 1)]? = some ce := hce
    refine ⟨_, by rw [sectionsFrom_cons ho hend, hsections]; rfl, ?_, ?_⟩
    · rw [inkFrom_cons horder.tail hle hce ho']
      refine (laid_singleton (covers_slice isSpace (lineOffsets_le hce)) ⟨hle, lineOffsets_le hce⟩).append
        hlaid fun x hx y hy => ?_
      obtain rfl := List.mem_singleton.mp hx
      obtain ⟨hin, -⟩ := hlaid.inside y hy
      obtain ⟨sec, hsec, rfl⟩ := List.mem_map.mp hy
      have hsec : o' ≤ sec.span.start := hstart sec hsec
      dsimp only
      omega
    · intro x hx
      rcases List.mem_cons.mp hx with rfl | hx
      · exact le_rfl
      · have hx := hstart x hx
        omega

variable (titleEntry headings) in
theorem preamble_laid (ho : (lineOffsets text)[(headings.head?.map Heading.openLine).getD
      ((lineOffsets text).length - 1)]? = some o) :
    ∃ sections, preamble text titleEntry (lineOffsets text) headings = .ok sections ∧
      Laid isSpace text (inkBetween isSpace text 0 o) (sections.map Section.span) ∧
      ∀ x ∈ sections, x.charStart = 0 ∧ x.charEnd = o := by
  have hcovers := covers_slice isSpace (a := 0) (lineOffsets_le ho)
  unfold preamble
  dsimp only
  split
  · rw [offsetAt_eq (lineOffsets_zero text), offsetAt_eq ho]
    dsimp only [Bind.bind, Except.bind]
    split
    · rename_i hblank
      have hnone : inkBetween isSpace text 0 o = [] := by
        have hreads := hcovers.reads
        rw [ink_eq_nil.mpr (strip_eq_nil.mp hblank)] at hreads
        exact hreads.eq_nil
      exact ⟨[], rfl, hnone ▸ laid_nil, fun _ h => (nomatch h)⟩
    · refine ⟨_, rfl, laid_singleton hcovers ⟨Nat.zero_le o, lineOffsets_le ho⟩, fun x hx => ?_⟩
      obtain rfl := List.mem_singleton.mp hx
      exact ⟨rfl, rfl⟩
  · rename_i hline
    rw [Nat.eq_zero_of_not_pos hline, lineOffsets_zero] at ho
    cases ho
    exact ⟨[], rfl, laid_nil, fun _ h => (nomatch h)⟩

/-- **`_build_sections`**: the sections have what is no whitespace and in no heading. -/
theorem buildSections_laid {parse : Text → List Token} (title : Option Text)
    (hheadings : iterHeadings false (parse text) = some headings)
    (horder : InOrder headings ((lineOffsets text).length - 1)) :
    ∃ sections, buildSections parse text title = .ok sections ∧
      Laid isSpace text (bodyInk text headings) (sections.map Section.span) := by
  unfold buildSections
  rw [hheadings, bodyInk_eq]
  dsimp only [Bind.bind, Except.bind]
  generalize (title.filter (· ≠ [])).map (label 1) = titleEntry
  cases headings with
  | nil =>
    obtain ⟨first, hfirst, hlaid, -⟩ := preamble_laid titleEntry [] lineOffsets_last
    rw [hfirst, inkFrom_nil]
    exact ⟨first ++ [], rfl, by rwa [List.append_nil]⟩
  | cons h headings =>
    have hwithin := horder.within h List.mem_cons_self
    obtain ⟨o, ho⟩ := offset_exists (hwithin.1.trans hwithin.2)
    obtain ⟨o', ho'⟩ := offset_exists hwithin.2
    have hle := lineOffsets_mono ho ho' hwithin.1
    obtain ⟨first, hfirst, hlaid, hspan⟩ := preamble_laid titleEntry (h :: headings) ho
    obtain ⟨sections, hsections, hlaid', hstart⟩ := sectionsFrom_laid titleEntry [] horder ho'
    rw [hfirst]
    dsimp only
    rw [hsections, inkFrom_cons horder (Nat.zero_le o) ho ho']
    refine ⟨first ++ sections, rfl, ?_⟩
    rw [List.map_append]
    refine hlaid.append hlaid' fun x hx y hy => ?_
    obtain ⟨hin, -⟩ := hlaid'.inside y hy
    obtain ⟨sec, hsec, rfl⟩ := List.mem_map.mp hx
    obtain ⟨sec', hsec', rfl⟩ := List.mem_map.mp hy
    have hsec : sec.span.start = 0 ∧ sec.span.stop = o := hspan sec hsec
    have hsec' : o' ≤ sec'.span.start := hstart sec' hsec'
    omega

end

/-! ## merging -/

section
variable {text : Text} {target minSize : ℕ} {merged rest sections : List Section} {sec prev : Section}
  {ps : List ℕ} {s : Text}

theorem ink_rstripNewlines : ink isSpace (rstripChars ['\n'] s) = ink isSpace s := by
  refine ink_rdropWhile fun c hc => ?_
  obtain rfl : c = '\n' := by simpa using hc
  rfl

theorem ink_lstripNewlines : ink isSpace (s.dropWhile (· ∈ ['\n'])) = ink isSpace s := by
  refine ink_dropWhile fun c hc => ?_
  obtain rfl : c = '\n' := by simpa using hc
  rfl

theorem mergeInto_laid (h : Laid isSpace text ps ((merged ++ sec :: rest).map Section.span)) :
    Laid isSpace text ps ((mergeInto target minSize merged sec ++ rest).map Section.span) := by
  unfold mergeInto
  split
  · rwa [List.append_assoc]
  rename_i prev hlast
  split
  · obtain ⟨before, rfl⟩ := List.getLast?_eq_some_iff.mp hlast
    rw [List.dropLast_concat, List.append_assoc, List.map_append]
    rw [List.append_assoc, List.map_append] at h
    refine h.join ?_ rfl rfl
    show ink isSpace (rstripChars ['\n'] prev.content ++ "\n\n".toList ++ sec.content.dropWhile (· ∈ ['\n'])) = _
    rw [ink_append, ink_append, ink_rstripNewlines, ink_lstripNewlines,
      show ink isSpace "\n\n".toList = [] by decide, List.append_nil]
    rfl
  · rwa [List.append_assoc]

/-- **`_merge_small`** keeps the text of the sections. -/
theorem mergeSmall_laid (h : Laid isSpace text ps (sections.map Section.span)) :
    Laid isSpace text ps ((mergeSmall sections target minSize).map Section.span) := by
  have hfold : ∀ sections merged : List Section, Laid isSpace text ps ((merged ++ sections).map Section.span) →
      Laid isSpace text ps ((sections.foldl (mergeInto target minSize) merged).map Section.span) := by
    intro sections
    induction sections with
    | nil =>
      intro merged h
      rwa [List.append_nil] at h
    | cons sec rest ih => exact fun merged h => ih _ (mergeInto_laid h)
  exact hfold sections [] h

end
end Kajet.Markdown
