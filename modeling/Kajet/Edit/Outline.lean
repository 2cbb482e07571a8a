import Kajet.Edit.Apply

/-!
# The outline of a note

* `buildOutline`     the headings with their targets, spans and sizes;
* `Reports`          what the parser reports: the headings in order, their lines disjoint;
* `find_target`, `find_ambiguous`   an entry's target leads back to its section;
* `lineSpan_iff`     its lines are those of its characters;
* `sections_nested`  sections are nested or disjoint;
* `outline_agrees`   all of it, and what the edits at a heading leave alone.
-/

namespace Kajet.Edit
open Str Markdown

/-- `_line_number` -/
def lineNumber (text : Text) (charIndex : ℕ) : ℕ := (text.take (min charIndex text.length)).count '\n' + 1

structure OutlineSection where
  level : ℕ
  heading : Text
  targetHeading : Text
  lineStart : ℕ
  lineEnd : ℕ
  charStart : ℕ
  charEnd : ℕ
  sectionChars : ℕ
  sectionLines : ℕ
  ambiguous : Bool
deriving DecidableEq

def outlineEntry (markdown : Text) (sections : List Section) (sec : Section) : OutlineSection :=
  let headingText := strip sec.headingText
  let lineStart := sec.headingLine + 1
  let lineEnd := lineNumber markdown (max (sec.bodyEnd - 1) sec.headingStart)
  { level := sec.level
    heading := headingText
    targetHeading := label sec.level headingText
    lineStart := lineStart
    lineEnd := lineEnd
    charStart := sec.headingStart
    charEnd := sec.bodyEnd
    sectionChars := sec.bodyEnd - sec.headingStart
    sectionLines := lineEnd - lineStart + 1
    ambiguous := 1 < (sections.map fun s => strip s.headingText).count headingText }

/-- The entries, and the characters and lines before the first heading. -/
def buildOutline (parse : Text → List Token) (markdown : Text) : Except EditError (List OutlineSection × ℕ × ℕ) := do
  let sections ← parseSections parse markdown
  let preambleChars := (sections.head?.map (·.headingStart)).getD markdown.length
  let preambleText := (markdown.take preambleChars).rdropWhile (· = '\n')
  let preambleLines := if preambleText = [] then 0 else preambleText.count '\n' + 1
  .ok (sections.map (outlineEntry markdown sections), preambleChars, preambleLines)

/-- The parser reports the top-level headings in order, each with lines of its own. -/
structure Reports (parse : Text → List Token) (markdown : Text) (headings : List Heading) : Prop where
  read : iterHeadings true (parse markdown) = some headings
  order : InOrder headings ((lineOffsets markdown).length - 1)
  lines : ∀ h ∈ headings, h.openLine < h.bodyLine

section
variable {parse : Text → List Token} {markdown s t : Text} {headings following : List Heading} {h k : Heading}
  {sections : List Section} {sec : Section} {level level' line i j n : ℕ}

/-! ## the target of a heading -/

theorem strip_cons_space (t : Text) : strip (' ' :: t) = strip t := by
  rw [strip, stripBy, List.dropWhile_cons_of_pos (by decide)]
  rfl

/-- The target without its prefix is the heading. -/
theorem bare_label (level : ℕ) (t : Text) : bare (label level t) = strip t := by
  have hdrop : (label level t).dropWhile (· = '#') = ' ' :: t := by
    rw [label]
    induction level with
    | zero => rfl
    | succ n ih => rw [List.replicate_succ, List.cons_append, List.dropWhile_cons_of_pos (by decide), ih]
  rw [bare, hdrop, strip_cons_space]

theorem length_matched (t : Text) : (sections.filter fun s => strip s.headingText = t).length =
    (sections.map fun s => strip s.headingText).count t := by
  rw [← List.countP_eq_length_filter, List.count, List.countP_map]
  exact List.countP_congr fun s _ => by simp

theorem find_target (hsec : sec ∈ sections) (h : (outlineEntry markdown sections sec).ambiguous = false) :
    findSectionByHeading sections (outlineEntry markdown sections sec).targetHeading = .ok sec := by
  have hcount : ¬ 1 < (sections.map fun s => strip s.headingText).count (strip sec.headingText) := of_decide_eq_false h
  rw [← length_matched] at hcount
  have hmem : sec ∈ sections.filter fun s => strip s.headingText = strip sec.headingText :=
    List.mem_filter.mpr ⟨hsec, decide_eq_true rfl⟩
  show findSectionByHeading sections (label sec.level (strip sec.headingText)) = _
  rw [findSectionByHeading, bare_label, strip_strip]
  rcases hmatched : sections.filter fun s => strip s.headingText = strip sec.headingText with _ | ⟨a, _ | ⟨b, rest⟩⟩
  · rw [hmatched] at hmem
    cases hmem
  · rw [hmatched] at hmem ⊢
    exact congrArg Except.ok (List.mem_singleton.mp hmem).symm
  · rw [hmatched] at hcount
    exact absurd (by simp) hcount

theorem find_ambiguous (h : (outlineEntry markdown sections sec).ambiguous = true) :
    ∃ matched, findSectionByHeading sections (outlineEntry markdown sections sec).targetHeading =
      .error (.headingAmbiguous matched) := by
  have hcount : 1 < (sections.map fun s => strip s.headingText).count (strip sec.headingText) := of_decide_eq_true h
  rw [← length_matched] at hcount
  show ∃ matched, findSectionByHeading sections (label sec.level (strip sec.headingText)) = _
  rw [findSectionByHeading, bare_label, strip_strip]
  rcases hmatched : sections.filter fun s => strip s.headingText = strip sec.headingText with _ | ⟨a, _ | ⟨b, rest⟩⟩
  · rw [hmatched] at hcount
    cases hcount
  · rw [hmatched] at hcount
    exact absurd hcount (Nat.lt_irrefl 1)
  · rw [hmatched]
    exact ⟨_, rfl⟩

/-! ## lines -/

/-- Without carriage returns a line ends at each newline. -/
theorem lineAt_eq (hcr : '\r' ∉ s) (hi : i < s.length) : lineAt s i = (s.take i).count '\n' := by
  have hget : ∀ line, (lineNumbers line s)[i]? = some (line + (s.take i).count '\n') := by
    induction s generalizing i with
    | nil => cases hi
    | cons c s ih =>
      intro line
      obtain ⟨hc, hcr⟩ := not_or.mp (fun h => hcr (List.mem_cons.mpr h))
      rw [lineNumbers_cons fun r hr _ => hc hr.symm]
      cases i with
      | zero => rfl
      | succ i =>
        rw [List.getElem?_cons_succ, ih hcr (Nat.lt_of_succ_lt_succ hi), List.take_succ_cons, List.count_cons]
        congr 1
        by_cases hn : c = '\n'
        · rw [if_pos (.inr hn), hn]
          simp
          omega
        · rw [if_neg (not_or.mpr ⟨fun hr => hc hr.symm, hn⟩)]
          simp [hn]
  rw [lineAt, List.getD_eq_getElem?_getD, hget 0, Option.getD_some, Nat.zero_add]

theorem lineNumber_eq (hcr : '\r' ∉ s) (hi : i < s.length) : lineNumber s i = lineAt s i + 1 := by
  rw [lineNumber, Nat.min_eq_left hi.le, lineAt_eq hcr hi]

theorem lineAt_lt (hi : i < s.length) : lineAt s i < (lineOffsets s).length - 1 := by
  by_contra hle
  have := (lineOffsets_le_iff lineOffsets_last hi).mpr (Nat.not_lt.mp hle)
  omega

theorem lineOffset_of_getElem {o : ℕ} (h : (lineOffsets markdown)[line]? = some o) : lineOffset markdown line = o := by
  rw [lineOffset, h]
  rfl

theorem lineOffset_get (h : line ≤ (lineOffsets markdown).length - 1) :
    (lineOffsets markdown)[line]? = some (lineOffset markdown line) := by
  obtain ⟨o, ho⟩ := offset_exists h
  rw [ho, lineOffset_of_getElem ho]

theorem lineOffset_le (line : ℕ) : lineOffset markdown line ≤ markdown.length := by
  unfold lineOffset
  cases ho : (lineOffsets markdown)[line]? with
  | none => exact Nat.le_refl _
  | some o => exact lineOffsets_le ho

theorem lineOffset_lt (h : i < j) (hj : j ≤ (lineOffsets markdown).length - 1) :
    lineOffset markdown i < lineOffset markdown j := by
  obtain ⟨hi', hi⟩ := List.getElem?_eq_some_iff.mp
    (lineOffset_get (show i ≤ (lineOffsets markdown).length - 1 by omega))
  obtain ⟨hj', hj⟩ := List.getElem?_eq_some_iff.mp (lineOffset_get hj)
  rw [← hi, ← hj]
  exact List.pairwise_iff_getElem.mp lineOffsets_sorted i j hi' hj' h

theorem lineOffset_mono (h : i ≤ j) (hj : j ≤ (lineOffsets markdown).length - 1) :
    lineOffset markdown i ≤ lineOffset markdown j := by
  rcases h.eq_or_lt with rfl | hlt
  · exact Nat.le_refl _
  · exact (lineOffset_lt hlt hj).le

/-- The lines of some characters are the lines from the first to the last. -/
theorem lineSpan_iff (hcr : '\r' ∉ markdown) {first last : ℕ} (hopen : line < (lineOffsets markdown).length - 1)
    (hfirst : lineOffset markdown line = first) (hlt : first < last) (hlast : last ≤ markdown.length) :
    line + 1 ≤ n ∧ n ≤ lineNumber markdown (last - 1) ↔ ∃ c, (first ≤ c ∧ c < last) ∧ lineNumber markdown c = n := by
  have hopen' := lineOffset_get (Nat.le_of_lt hopen)
  rw [hfirst] at hopen'
  rw [lineNumber_eq hcr (by omega)]
  constructor
  · rintro ⟨hlow, hhigh⟩
    -- the first character of that line
    have hline : n - 1 < (lineOffsets markdown).length - 1 := by
      have := lineAt_lt (s := markdown) (i := last - 1) (by omega)
      omega
    have hstart := lineOffset_get hline.le
    have hbegin : lineOffset markdown (n - 1) ≤ last - 1 := (lineOffsets_le_iff hstart (by omega)).mpr (by omega)
    have hafter : first ≤ lineOffset markdown (n - 1) := hfirst ▸ lineOffset_mono (by omega) hline.le
    refine ⟨lineOffset markdown (n - 1), ⟨hafter, by omega⟩, ?_⟩
    rw [lineNumber_eq hcr (by omega)]
    have hge := (lineOffsets_le_iff hstart (i := lineOffset markdown (n - 1)) (by omega)).mp (Nat.le_refl _)
    have hnext := lineOffset_lt (show n - 1 < n - 1 + 1 by omega)
      (show n - 1 + 1 ≤ (lineOffsets markdown).length - 1 by omega)
    have hnot := (lineOffsets_le_iff (lineOffset_get (show n - 1 + 1 ≤ (lineOffsets markdown).length - 1 by omega))
      (i := lineOffset markdown (n - 1)) (by omega)).not.mp (by omega)
    omega
  · rintro ⟨c, ⟨hlow, hhigh⟩, rfl⟩
    rw [lineNumber_eq hcr (by omega)]
    have hge := (lineOffsets_le_iff hopen' (show c < markdown.length by omega)).mp hlow
    have hle : lineAt markdown c ≤ lineAt markdown (last - 1) := by
      rw [lineAt_eq hcr (by omega), lineAt_eq hcr (by omega)]
      exact ((List.take_prefix_take_left (by omega)).sublist).count_le _
    omega

/-! ## the sections -/

theorem getElem?_sectionsOf : (sectionsOf markdown headings)[i]? =
    headings[i]?.map fun h => sectionOf markdown h (headings.drop (i + 1)) := by
  induction headings generalizing i with
  | nil => rfl
  | cons h headings ih =>
    cases i with
    | zero => rfl
    | succ i => rw [sectionsOf, List.getElem?_cons_succ, ih, List.getElem?_cons_succ, List.drop_succ_cons]

theorem bodyEnd_cons : bodyEnd markdown level (k :: following) =
    if k.level ≤ level then lineOffset markdown k.openLine else bodyEnd markdown level following := by
  unfold bodyEnd
  rw [List.find?_cons]
  by_cases hk : k.level ≤ level
  · simp [hk]
  · simp [hk]

/-- A section ends no later than a heading of its level or above begins. -/
theorem bodyEnd_le (horder : InOrder following ((lineOffsets markdown).length - 1)) (hk : k ∈ following)
    (hlevel : k.level ≤ level) : bodyEnd markdown level following ≤ lineOffset markdown k.openLine := by
  induction following with
  | nil => cases hk
  | cons h following ih =>
    rw [bodyEnd_cons]
    split
    · rcases List.mem_cons.mp hk with rfl | hk
      · exact Nat.le_refl _
      · have happart := (List.pairwise_cons.mp horder.apart).1 k hk
        have hwithin := horder.within h List.mem_cons_self
        have hwithin' := horder.within k (List.mem_cons_of_mem h hk)
        exact lineOffset_mono (by omega) (by omega)
    · rename_i hnot
      rcases List.mem_cons.mp hk with rfl | hk
      · exact (hnot hlevel).elim
      · exact ih horder.tail hk

theorem le_bodyEnd {a : ℕ} (hlen : a ≤ markdown.length) (h : ∀ k ∈ following, a ≤ lineOffset markdown k.openLine) :
    a ≤ bodyEnd markdown level following := by
  induction following with
  | nil => exact hlen
  | cons k following ih =>
    rw [bodyEnd_cons]
    split
    · exact h k List.mem_cons_self
    · exact ih fun k hk => h k (List.mem_cons_of_mem _ hk)

/-- A deeper section ends no later. -/
theorem bodyEnd_anti (horder : InOrder following ((lineOffsets markdown).length - 1)) (h : level ≤ level') :
    bodyEnd markdown level' following ≤ bodyEnd markdown level following := by
  induction following with
  | nil => exact Nat.le_refl _
  | cons k following ih =>
    rw [show bodyEnd markdown level (k :: following) = _ from bodyEnd_cons]
    split
    · rename_i hk
      exact bodyEnd_le horder List.mem_cons_self (hk.trans h)
    · rename_i hk
      rw [bodyEnd_cons]
      split
      · refine le_bodyEnd (lineOffset_le _) fun k' hk' => ?_
        have happart := (List.pairwise_cons.mp horder.apart).1 k' hk'
        have hwithin := horder.within k List.mem_cons_self
        have hwithin' := horder.within k' (List.mem_cons_of_mem k hk')
        exact lineOffset_mono (by omega) (by omega)
      · exact ih horder.tail

theorem bodyEnd_drop (hdeep : ∀ k ∈ following.take n, level < k.level) :
    bodyEnd markdown level following = bodyEnd markdown level (following.drop n) := by
  induction n generalizing following with
  | zero => rfl
  | succ n ih =>
    cases following with
    | nil => rfl
    | cons k following =>
      rw [bodyEnd_cons, if_neg (Nat.not_le.mpr (hdeep k List.mem_cons_self)), List.drop_succ_cons]
      exact ih fun k hk => hdeep k (List.mem_cons_of_mem _ hk)

theorem drop_inOrder (horder : InOrder headings n) (i : ℕ) : InOrder (headings.drop i) n :=
  ⟨horder.apart.sublist (List.drop_sublist i headings), fun h hh => horder.within h (List.mem_of_mem_drop hh)⟩

/-- **Nested or disjoint.**  A section is inside of an earlier one unless a heading of that one's level or above
comes between them, or is its own. -/
theorem sections_nested {sec' : Section} (horder : InOrder headings ((lineOffsets markdown).length - 1)) (hij : i < j)
    (hi : (sectionsOf markdown headings)[i]? = some sec) (hj : (sectionsOf markdown headings)[j]? = some sec') :
    ((∀ x m, i < x → x ≤ j → (sectionsOf markdown headings)[x]? = some m → sec.level < m.level) →
      sec.headingStart ≤ sec'.headingStart ∧ sec'.bodyEnd ≤ sec.bodyEnd) ∧
    (¬ (∀ x m, i < x → x ≤ j → (sectionsOf markdown headings)[x]? = some m → sec.level < m.level) →
      sec.bodyEnd ≤ sec'.headingStart) := by
  rw [getElem?_sectionsOf] at hi hj
  obtain ⟨h, hheading, rfl⟩ := Option.map_eq_some_iff.mp hi
  obtain ⟨k, hheading', rfl⟩ := Option.map_eq_some_iff.mp hj
  obtain ⟨hilt, rfl⟩ := List.getElem?_eq_some_iff.mp hheading
  obtain ⟨hjlt, rfl⟩ := List.getElem?_eq_some_iff.mp hheading'
  have hwithin : ∀ {a : ℕ} (ha : a < headings.length), headings[a].openLine ≤ (lineOffsets markdown).length - 1 := by
    intro a ha
    have hin := horder.within _ (List.getElem_mem ha)
    omega
  have hstart : ∀ {a b : ℕ} (ha : a < headings.length) (hb : b < headings.length), a < b →
      lineOffset markdown headings[a].openLine ≤ lineOffset markdown headings[b].openLine := by
    intro a b ha hb hab
    have hap := List.pairwise_iff_getElem.mp horder.apart a b ha hb hab
    have hin := (horder.within _ (List.getElem_mem ha)).1
    exact lineOffset_mono (by omega) (hwithin hb)
  constructor
  · intro hdeep
    refine ⟨hstart hilt hjlt hij, ?_⟩
    have hlevels : ∀ x (hx : x < headings.length), i < x → x ≤ j → headings[i].level < headings[x].level := by
      intro x hx hix hxj
      refine hdeep x (sectionOf markdown headings[x] (headings.drop (x + 1))) hix hxj ?_
      rw [getElem?_sectionsOf, List.getElem?_eq_getElem hx, Option.map_some]
    have hbetween : ∀ m ∈ (headings.drop (i + 1)).take (j - i), headings[i].level < m.level := by
      intro m hm
      obtain ⟨x, hx, rfl⟩ := List.getElem_of_mem hm
      rw [List.length_take, List.length_drop] at hx
      rw [List.getElem_take, List.getElem_drop]
      exact hlevels (i + 1 + x) (by omega) (by omega) (by omega)
    show bodyEnd markdown headings[j].level (headings.drop (j + 1)) ≤
      bodyEnd markdown headings[i].level (headings.drop (i + 1))
    rw [bodyEnd_drop hbetween, List.drop_drop, show i + 1 + (j - i) = j + 1 by omega]
    exact bodyEnd_anti (drop_inOrder horder (j + 1)) (hlevels j hjlt hij le_rfl).le
  · intro hnot
    push Not at hnot
    obtain ⟨x, m, hix, hxj, hm, hlevel⟩ := hnot
    rw [getElem?_sectionsOf] at hm
    obtain ⟨k, hk, rfl⟩ := Option.map_eq_some_iff.mp hm
    obtain ⟨hxlt, rfl⟩ := List.getElem?_eq_some_iff.mp hk
    have hmem : headings[x] ∈ headings.drop (i + 1) := by
      refine List.mem_of_getElem? (i := x - (i + 1)) ?_
      rw [List.getElem?_drop, show i + 1 + (x - (i + 1)) = x by omega, hk]
    refine (bodyEnd_le (drop_inOrder horder (i + 1)) hmem hlevel).trans ?_
    rcases Nat.lt_or_eq_of_le hxj with hlt | rfl
    · exact hstart hxlt hjlt hlt
    · exact Nat.le_refl _

/-! ## edits at a heading -/

end

/-- The edits that take a heading. -/
inductive SectionEdit where
  | replace | append | prepend

def SectionEdit.spec (heading text : Text) (e : SectionEdit) : EditSpec :=
  { mode := match e with
      | .replace => .replaceSection
      | .append => .append
      | .prepend => .prepend
    content := some text
    oldStr := none
    newStr := none
    targetHeading := some heading
    replaceAll := false }

def SectionEdit.direct (parse : Text → List Token) (body heading text : Text) : SectionEdit → Except EditError Text
  | .replace => Edit.replaceSection parse body heading text
  | .append => appendContent parse body text (some heading)
  | .prepend => prependContent parse body text (some heading)

section
variable {parse : Text → List Token} {markdown heading text : Text} {headings : List Heading}
  {sections : List Section} {sec : Section} {e : SectionEdit}

theorem ensureNl_eq (s : Text) : ∃ nl, ensureNl s = s ++ nl := by
  unfold ensureNl
  split
  · exact ⟨[], (List.append_nil s).symm⟩
  · exact ⟨['\n'], rfl⟩

theorem spliceBlock_eq (before inserted remainder : Text) :
    ∃ mid, spliceBlock before inserted remainder = before ++ mid ++ remainder := by
  obtain ⟨nl, hnl⟩ := ensureNl_eq before
  obtain ⟨nl', hnl'⟩ := ensureNl_eq (ensureNl before ++ inserted)
  refine ⟨nl ++ inserted ++ nl' ++ (if remainder = [] then [] else ['\n']), ?_⟩
  rw [spliceBlock, hnl', hnl]
  simp only [List.append_assoc]

/-- An edit of a section touches what is between its heading and its end only. -/
theorem direct_kept (e : SectionEdit) (text : Text) (hsections : parseSections parse markdown = .ok sections)
    (hfind : findSectionByHeading sections heading = .ok sec) (hbody : sec.bodyStart = sec.headingEnd)
    (hend : sec.headingEnd ≤ sec.bodyEnd) :
    ∃ mid, e.direct parse markdown heading text =
      .ok (markdown.take sec.headingEnd ++ mid ++ markdown.drop sec.bodyEnd) := by
  cases e with
  | replace =>
    obtain ⟨mid, hmid⟩ := spliceBlock_eq (markdown.take sec.headingEnd) (bodyOnly heading text)
      (markdown.drop sec.bodyEnd)
    refine ⟨mid, ?_⟩
    rw [SectionEdit.direct, Edit.replaceSection, hsections]
    show (findSectionByHeading sections heading >>= _) = _
    rw [hfind]
    exact congrArg Except.ok hmid
  | append =>
    rw [SectionEdit.direct, appendContent, hsections]
    show ∃ mid, (findSectionByHeading sections heading >>= _) = _
    rw [hfind]
    obtain ⟨mid, hmid⟩ := spliceBlock_eq (markdown.take (sec.bodyStart +
      ((slice markdown sec.bodyStart sec.bodyEnd).rdropWhile isSpace).length)) text (markdown.drop sec.bodyEnd)
    refine ⟨(markdown.drop sec.headingEnd).take ((slice markdown sec.bodyStart sec.bodyEnd).rdropWhile isSpace).length ++
      mid, (congrArg Except.ok hmid).trans (congrArg Except.ok ?_)⟩
    rw [List.take_add, hbody]
    simp only [List.append_assoc]
  | prepend =>
    rw [SectionEdit.direct, prependContent, hsections]
    show ∃ mid, (findSectionByHeading sections heading >>= _) = _
    rw [hfind]
    obtain ⟨nl, hnl⟩ := ensureNl_eq (markdown.take sec.headingEnd)
    obtain ⟨nl', hnl'⟩ := ensureNl_eq (ensureNl (markdown.take sec.headingEnd) ++ text)
    refine ⟨nl ++ text ++ nl' ++ (markdown.drop sec.headingEnd).take (sec.bodyEnd - sec.headingEnd),
      congrArg Except.ok ?_⟩
    have hrest : markdown.drop sec.headingEnd =
        (markdown.drop sec.headingEnd).take (sec.bodyEnd - sec.headingEnd) ++ markdown.drop sec.bodyEnd := by
      conv_lhs => rw [← List.take_append_drop (sec.bodyEnd - sec.headingEnd) (markdown.drop sec.headingEnd),
        List.drop_drop, Nat.add_sub_cancel' hend]
    rw [hnl', hnl]
    conv_lhs => rw [hrest]
    simp only [List.append_assoc]

/-- The mode is its transform. -/
theorem applyEdit_section {result : Text} (hheading : heading ≠ []) (htext : text ≠ [])
    (h : e.direct parse markdown heading text = .ok result) :
    applyEdit parse markdown (e.spec heading text) = .ok ⟨result, none⟩ := by
  cases e with
  | replace =>
    show (require _ _ (some heading) >>= fun heading => require _ _ (some text) >>= fun content =>
      Edit.replaceSection parse markdown heading content >>= fun r => .ok (⟨r, none⟩ : EditResult)) = _
    rw [require_ok _ _ hheading, require_ok _ _ htext]
    show (Edit.replaceSection parse markdown heading text >>= _) = _
    rw [show Edit.replaceSection parse markdown heading text = _ from h]
    rfl
  | append =>
    show (require _ _ (some text) >>= fun content =>
      appendContent parse markdown content (some heading) >>= fun r => .ok (⟨r, none⟩ : EditResult)) = _
    rw [require_ok _ _ htext]
    show (appendContent parse markdown text (some heading) >>= _) = _
    rw [show appendContent parse markdown text (some heading) = _ from h]
    rfl
  | prepend =>
    show (require _ _ (some text) >>= fun content =>
      prependContent parse markdown content (some heading) >>= fun r => .ok (⟨r, none⟩ : EditResult)) = _
    rw [require_ok _ _ htext]
    show (prependContent parse markdown text (some heading) >>= _) = _
    rw [show prependContent parse markdown text (some heading) = _ from h]
    rfl

end

/-! ## the outline and the editor -/

/-- An entry of the outline and the section that it stands for. -/
structure EntryAgrees (parse : Text → List Token) (markdown : Text) (sections : List Section) (sec : Section)
    (entry : OutlineSection) : Prop where
  span : entry.charStart = sec.headingStart ∧ entry.charEnd = sec.bodyEnd
  target : entry.ambiguous = false → findSectionByHeading sections entry.targetHeading = .ok sec
  ambiguous : entry.ambiguous = true →
    ∃ matched, findSectionByHeading sections entry.targetHeading = .error (.headingAmbiguous matched)
  lines : ∀ n, entry.lineStart ≤ n ∧ n ≤ entry.lineEnd ↔
    ∃ c, (entry.charStart ≤ c ∧ c < entry.charEnd) ∧ lineNumber markdown c = n
  edits : entry.ambiguous = false → ∀ (e : SectionEdit) text, ∃ mid,
    e.direct parse markdown entry.targetHeading text =
      .ok (markdown.take sec.headingEnd ++ mid ++ markdown.drop sec.bodyEnd) ∧
    (text ≠ [] → applyEdit parse markdown (e.spec entry.targetHeading text) =
      .ok ⟨markdown.take sec.headingEnd ++ mid ++ markdown.drop sec.bodyEnd, none⟩)

structure OutlineAgrees (parse : Text → List Token) (markdown : Text) (sections : List Section)
    (outline : List OutlineSection) : Prop where
  parsed : parseSections parse markdown = .ok sections
  built : ∃ preamble, buildOutline parse markdown = .ok (outline, preamble)
  entries : List.Forall₂ (EntryAgrees parse markdown sections) sections outline
  nested : ∀ (i j : ℕ) (sec sec' : Section), i < j → sections[i]? = some sec → sections[j]? = some sec' →
    ((∀ (x : ℕ) (m : Section), i < x → x ≤ j → sections[x]? = some m → sec.level < m.level) →
      sec.headingStart ≤ sec'.headingStart ∧ sec'.bodyEnd ≤ sec.bodyEnd) ∧
    (¬ (∀ (x : ℕ) (m : Section), i < x → x ≤ j → sections[x]? = some m → sec.level < m.level) →
      sec.bodyEnd ≤ sec'.headingStart)

section
variable {parse : Text → List Token} {markdown : Text} {headings : List Heading} {sections : List Section}
  {sec : Section} {h : Heading} {i : ℕ}

theorem section_bounds (hreports : Reports parse markdown headings) (hi : headings[i]? = some h) :
    lineOffset markdown h.openLine < lineOffset markdown h.bodyLine ∧
      lineOffset markdown h.bodyLine ≤ bodyEnd markdown h.level (headings.drop (i + 1)) := by
  have hmem := List.mem_of_getElem? hi
  have hwithin := (hreports.order.within h hmem).2
  refine ⟨lineOffset_lt (hreports.lines h hmem) hwithin, le_bodyEnd (lineOffset_le _) fun k hk => ?_⟩
  obtain ⟨x, hx, rfl⟩ := List.getElem_of_mem hk
  rw [List.length_drop] at hx
  obtain ⟨hilt, rfl⟩ := List.getElem?_eq_some_iff.mp hi
  rw [List.getElem_drop]
  have hmem' := List.getElem_mem (l := headings) (n := i + 1 + x) (by omega)
  have hnext := hreports.order.within _ hmem'
  have happart := List.pairwise_iff_getElem.mp hreports.order.apart i (i + 1 + x) hilt (by omega) (by omega)
  exact lineOffset_mono happart (by omega)

theorem bodyEnd_le_length (markdown : Text) (level : ℕ) (following : List Heading) :
    bodyEnd markdown level following ≤ markdown.length := by
  unfold bodyEnd
  cases following.find? fun h => h.level ≤ level with
  | none => exact Nat.le_refl _
  | some k => exact lineOffset_le _

/-- **Outline and editor agree.** -/
theorem outline_agrees (hcr : '\r' ∉ markdown) (hreports : Reports parse markdown headings) :
    ∃ sections outline, OutlineAgrees parse markdown sections outline := by
  have hparsed : parseSections parse markdown = .ok (sectionsOf markdown headings) := by
    rw [parseSections, hreports.read]
  refine ⟨sectionsOf markdown headings, _, hparsed, ⟨_, by rw [buildOutline, hparsed]; rfl⟩, ?_,
    fun i j sec sec' hij hi hj => sections_nested hreports.order hij hi hj⟩
  rw [List.forall₂_map_right_iff, List.forall₂_same]
  intro sec hsec
  obtain ⟨i, hi⟩ := List.mem_iff_getElem?.mp hsec
  rw [getElem?_sectionsOf] at hi
  obtain ⟨h, hheading, rfl⟩ := Option.map_eq_some_iff.mp hi
  obtain ⟨hopen, hend⟩ := section_bounds hreports hheading
  have hlength := bodyEnd_le_length markdown h.level (headings.drop (i + 1))
  have hmem := List.mem_of_getElem? hheading
  have hline : h.openLine < (lineOffsets markdown).length - 1 :=
    Nat.lt_of_lt_of_le (hreports.lines h hmem) (hreports.order.within h hmem).2
  refine ⟨⟨rfl, rfl⟩, find_target hsec, find_ambiguous, fun n => ?_, fun hunique e text => ?_⟩
  · show h.openLine + 1 ≤ n ∧ n ≤ lineNumber markdown (max (bodyEnd markdown h.level (headings.drop (i + 1)) - 1)
      (lineOffset markdown h.openLine)) ↔ _
    rw [Nat.max_eq_left (by omega)]
    exact lineSpan_iff hcr hline rfl (lt_of_lt_of_le hopen hend) hlength
  · obtain ⟨mid, hmid⟩ := direct_kept e text hparsed (find_target hsec hunique) rfl hend
    exact ⟨mid, hmid, fun htext => applyEdit_section (by simp [outlineEntry, label]) htext hmid⟩

/-- A chapter with a section. -/
theorem outline_agrees_chapter : ∃ sections outline, OutlineAgrees (fun _ =>
    [⟨"heading_open", "h1".toList, 0, some (0, 1), []⟩, ⟨"inline", [], 1, some (0, 1), "A".toList⟩,
      ⟨"heading_open", "h2".toList, 0, some (2, 3), []⟩, ⟨"inline", [], 1, some (2, 3), "B".toList⟩])
    "# A\nx\n## B\n".toList sections outline :=
  outline_agrees (by decide +kernel) (show Reports _ _ [⟨1, "A".toList, 0, 1⟩, ⟨2, "B".toList, 2, 3⟩] from
    ⟨by decide +kernel, ⟨by decide +kernel, by decide +kernel⟩, by decide +kernel⟩)

end
end Kajet.Edit
