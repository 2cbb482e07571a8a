import Kajet.Frontmatter.Document
import Kajet.Lib.Lines
import Kajet.Lib.Occurrence
import Kajet.Markdown.Blocks
import Kajet.Reconcile.Scan
import Mathlib.Data.List.Infix

/-!
# Grep over the note files

A line is counted in the whole file; the lines up to the body, found by the last occurrence of the content, are
taken off.

* `searchLines`, `searchFiles`, `grep`;
* `Numbered`     the number says which line of the content it is;
* `Regular`      what the file has to be like around that line;
* `numbered_iff`   one line: its number is right exactly then;
* `grep_iff`     the result is right exactly when the files can be read and each reported line is such a line.
-/

namespace Kajet.Grep
open Str Rank Lines Markdown Frontmatter Links

/-- `frontmatter.loads`: the metadata, and the text behind the block without the whitespace around it. -/
structure Loader where
  loads : Text → Option (Metadata × Text)
  stripped : ∀ {raw : Text} {m : Metadata} {content : Text}, loads raw = some (m, content) →
    ∃ block body, raw = block ++ body ∧ content = strip body

/-- The `.md` files below the workspace with their texts (none, when one is not UTF-8), and the code that is not
modelled: `casefold`, `str` of a value. -/
structure Env where
  rglob : List Text
  text : Text → Option Text
  loader : Loader
  casefold : Text → Text
  str : Yaml → Text

structure GrepMatch where
  noteId : Text
  title : Text
  folder : Text
  lineNumber : ℕ
  line : Text
deriving DecidableEq

structure GrepResult where
  matched : List GrepMatch
  truncated : Bool
deriving DecidableEq

inductive GrepError where
  /-- `Wzorzec wyszukiwania nie może być pusty.` -/
  | emptyPattern
  /-- the folder has a segment `..` -/
  | invalidFolder
  | unreadable (relative : Text)
  | frontmatter (relative : Text)
deriving DecidableEq

structure Query where
  needle : Text
  scope : Option Text
  caseSensitive : Bool
  maxResults : ℤ

/-- What reading a file in text mode does. -/
def universalNewlines : Text → Text
  | [] => []
  | '\r' :: '\n' :: s => '\n' :: universalNewlines s
  | c :: s => (if c = '\r' then '\n' else c) :: universalNewlines s

/-- `s.rfind(needle)` -/
def rfind (needle : Text) : Text → Option ℕ
  | [] => if needle = [] then some 0 else none
  | c :: s =>
    match rfind needle s with
    | some i => some (i + 1)
    | none => if needle.isPrefixOf (c :: s) then some 0 else none

def fmOffset (raw content : Text) : ℕ :=
  if content = [] then 0
  else (splitlines ((rfind content raw).elim raw.dropLast raw.take)).length

def inScope (scope folder : Text) : Bool := folder = scope || (scope ++ ['/']).isPrefixOf folder

namespace Env
variable (env : Env)

def iterNotePaths : List Text := ranked (split '/') (env.rglob.filter fun path => ".git".toList ∉ split '/' path)

def readText (relative : Text) : Option Text := (env.text relative).map universalNewlines

/-- `read_note_file` -/
def readNoteFile (relative : Text) : Option (NoteFrontmatter × Text) := do
  let raw ← env.readText relative
  let (m, content) ← env.loader.loads raw
  return (parseFrontmatter m, content)

def contains (q : Query) (line : Text) : Bool :=
  decide (q.needle <:+: if q.caseSensitive then line else env.casefold line)

/-- The inner loop. -/
def searchLines (q : Query) (make : Text → ℕ → GrepMatch) : List (Text × ℕ) → List GrepMatch → GrepResult
  | [], found => ⟨found, false⟩
  | (line, number) :: lines, found =>
    if env.contains q line then
      if q.maxResults ≤ found.length then ⟨found, true⟩
      else searchLines q make lines (found ++ [make line number])
    else searchLines q make lines found

def makeMatch (relative raw content : Text) (fm : NoteFrontmatter) (line : Text) (rawLineNumber : ℕ) : GrepMatch where
  noteId := env.str fm.id.orEmpty
  title := env.str fm.title.orEmpty
  folder := Reconcile.noteFolder relative
  lineNumber := rawLineNumber - fmOffset raw content
  line := line

/-- The outer loop. -/
def searchFiles (q : Query) : List Text → List GrepMatch → Except GrepError GrepResult
  | [], found => .ok ⟨found, false⟩
  | relative :: paths, found =>
    if q.scope.all fun scope => inScope scope (Reconcile.noteFolder relative) then
      match env.readText relative with
      | none => .error (.unreadable relative)
      | some raw =>
        match env.loader.loads raw with
        | none => .error (.frontmatter relative)
        | some (m, content) =>
          let r := env.searchLines q (env.makeMatch relative raw content (parseFrontmatter m))
            ((splitlines raw).zipIdx 1) found
          if r.truncated then .ok r else searchFiles q paths r.matched
    else searchFiles q paths found

def query (pattern : Text) (folder : Option Text) (caseSensitive : Bool) (maxResults : ℤ) : Except GrepError Query :=
  if strip pattern = [] then .error .emptyPattern
  else
    match folder, folder.bind normalizeFolder with
    | some _, none => .error .invalidFolder
    | _, scope => .ok ⟨if caseSensitive then pattern else env.casefold pattern, scope, caseSensitive, maxResults⟩

def grep (pattern : Text) (folder : Option Text) (caseSensitive : Bool) (maxResults : ℤ) :
    Except GrepError GrepResult := do
  let q ← env.query pattern folder caseSensitive maxResults
  env.searchFiles q env.iterNotePaths []

end Env

/-! ## where the content begins -/

/-- It ends where the whitespace at the end of the file begins. -/
def bodyStart (raw content : Text) : ℕ := (raw.rdropWhile isSpace).length - content.length

variable {raw content pre post s needle : Text} {c : Char}

theorem splitlines_eq (h : '\r' ∉ s) : splitlines s = lines isLineBreak s := by
  induction s using splitlines.induct with
  | case1 => rfl
  | case2 s ih => exact absurd List.mem_cons_self h
  | case3 c s hne hbreak ih =>
    rw [splitlines.eq_3 c s hne, if_pos hbreak, lines, if_pos hbreak, ih fun hs => h (List.mem_cons_of_mem _ hs)]
  | case4 c s hne hbreak ih =>
    rw [splitlines.eq_3 c s hne, if_neg hbreak, lines, if_neg hbreak, ih fun hs => h (List.mem_cons_of_mem _ hs)]
    cases lines isLineBreak s <;> rfl

theorem notMem_universalNewlines : '\r' ∉ universalNewlines s := by
  induction s using universalNewlines.induct with
  | case1 => exact List.not_mem_nil
  | case2 s ih =>
    rw [universalNewlines]
    exact fun h => (List.mem_cons.mp h).elim (by decide) ih
  | case3 c s hne ih =>
    rw [universalNewlines.eq_3 c s hne]
    intro h
    rcases List.mem_cons.mp h with h | h
    · split at h
      · exact absurd h (by decide)
      · rename_i hc
        exact hc h.symm
    · exact ih h

theorem infix_of_rfind {i : ℕ} (h : rfind needle s = some i) : needle <:+: s := by
  induction s generalizing i with
  | nil =>
    rw [rfind] at h
    split at h
    · rename_i hnil
      rw [hnil]
    · cases h
  | cons c s ih =>
    rw [rfind] at h
    split at h
    · rename_i j hj
      exact List.infix_cons_iff.mpr (.inr (ih hj))
    · split at h
      · rename_i hprefix
        exact (List.isPrefixOf_iff_prefix.mp hprefix).isInfix
      · cases h

/-- A text that does not end with whitespace does not occur where only whitespace follows. -/
theorem not_infix_tail (hpost : ∀ c ∈ post, isSpace c = true)
    (hlast : ∀ x, (c :: content).getLast? = some x → isSpace x = false) : ¬ (c :: content) <:+: content ++ post := by
  rintro ⟨x, y, h⟩
  have hleft : (x ++ (c :: content) ++ y)[x.length + content.length]? = (c :: content).getLast? := by
    rw [List.append_assoc, List.getElem?_append_right (Nat.le_add_right _ _), Nat.add_sub_cancel_left,
      List.getElem?_append_left (by rw [List.length_cons]; exact Nat.lt_succ_self _), List.getLast?_eq_getElem?,
      List.length_cons, Nat.add_sub_cancel]
  rw [h, Nat.add_comm, List.getElem?_append_right (Nat.le_add_right _ _), Nat.add_sub_cancel_left,
    List.getLast?_eq_some_getLast (List.cons_ne_nil c content)] at hleft
  have hink := hlast _ (List.getLast?_eq_some_getLast (List.cons_ne_nil c content))
  rw [hpost _ (List.mem_of_getElem? hleft)] at hink
  cases hink

theorem rfind_append (hpost : ∀ c ∈ post, isSpace c = true)
    (hlast : ∀ x, content.getLast? = some x → isSpace x = false) (hne : content ≠ []) :
    rfind content (pre ++ (content ++ post)) = some pre.length := by
  induction pre with
  | nil =>
    obtain ⟨c, content, rfl⟩ := List.exists_cons_of_ne_nil hne
    rw [List.nil_append, List.cons_append, rfind]
    cases hrest : rfind (c :: content) (content ++ post) with
    | some i => exact absurd (infix_of_rfind hrest) (not_infix_tail hpost hlast)
    | none =>
      rw [← List.cons_append, if_pos (List.isPrefixOf_iff_prefix.mpr (List.prefix_append _ _))]
      rfl
  | cons c pre ih => rw [List.cons_append, rfind, ih, List.length_cons]

/-- The content as a part of the file. -/
structure Stands (raw content pre post : Text) : Prop where
  split : raw = pre ++ (content ++ post)
  start : bodyStart raw content = pre.length
  offset : fmOffset raw content = (splitlines pre).length
  head : ∀ c, content.head? = some c → isLineBreak c = false

theorem stands (h : ∃ block body, raw = block ++ body ∧ content = strip body) (hne : content ≠ []) :
    ∃ pre post, Stands raw content pre post := by
  obtain ⟨block, body, rfl, rfl⟩ := h
  have hself := stripBy_eq_self.mp (strip_strip (s := body))
  have hpost : ∀ c ∈ (body.dropWhile isSpace).rtakeWhile isSpace, isSpace c = true := fun c hc =>
    List.mem_rtakeWhile_imp hc
  have hsplit : block ++ body = (block ++ body.takeWhile isSpace) ++
      (strip body ++ (body.dropWhile isSpace).rtakeWhile isSpace) := by
    rw [strip, stripBy, List.rdropWhile_append_rtakeWhile, List.append_assoc, List.takeWhile_append_dropWhile]
  have hrfind := @rfind_append _ (block ++ body.takeWhile isSpace) _ hpost hself.2 hne
  rw [← hsplit] at hrfind
  refine ⟨_, _, hsplit, ?_, ?_, fun c hc => ?_⟩
  · have hstripped : (block ++ body).rdropWhile isSpace = block ++ body.takeWhile isSpace ++ strip body := by
      rw [hsplit, ← List.append_assoc, rdropWhile_append, if_pos (List.rdropWhile_eq_nil_iff.mpr hpost),
        rdropWhile_append, if_neg (fun hnil => hne ((rdropWhile_eq_self.mpr hself.2).symm.trans hnil)),
        rdropWhile_eq_self.mpr hself.2]
    rw [bodyStart, hstripped, List.length_append, Nat.add_sub_cancel]
  · rw [fmOffset, if_neg hne, hrfind, Option.elim_some]
    rw [hsplit, List.take_left]
  · refine Bool.eq_false_of_not_eq_true fun hbreak => ?_
    have hspace := isSpace_of_isLineBreak hbreak
    rw [hself.1 c hc] at hspace
    cases hspace

/-! ## the number of a line -/

def isNewline (c : Char) : Bool := c = '\n'

/-- Where `splitlines` ends a line and the content's own lines do not. -/
def isSeparator (c : Char) : Bool := isLineBreak c && !isNewline c

def InBody (raw content before line : Text) : Prop :=
  content ≠ [] ∧ before.length < bodyStart raw content + content.length ∧
    bodyStart raw content < before.length + line.length

instance (raw content before line : Text) : Decidable (InBody raw content before line) := inferInstanceAs (Decidable (_ ∧ _))

/-- The number is that of the content's line which stands there, without the whitespace around the content;
in front of the content it is 0. -/
def Numbered (raw content : Text) (index : ℕ) (line : Text) (number : ℕ) : Prop :=
  ∃ before after, At isLineBreak raw index before line after ∧
    if InBody raw content before line then
      1 ≤ number ∧ ∃ u l v, At isNewline content (number - 1) u l v ∧
        bodyStart raw content + u.length = max before.length (bodyStart raw content) ∧
        bodyStart raw content + u.length + l.length =
          min (before.length + line.length) (bodyStart raw content + content.length)
    else before.length < bodyStart raw content → number = 0

/-- In the body: one separator before the line when the body begins in the middle of a line, and none otherwise;
and the line is between newlines.  In front of it: there is a body. -/
def Regular (raw content : Text) (index : ℕ) (line : Text) : Prop :=
  ∃ before after, At isLineBreak raw index before line after ∧
    if InBody raw content before line then
      (content.take (before.length - bodyStart raw content)).countP isSeparator =
          (if (raw.take (bodyStart raw content)).getLast?.all isLineBreak then 0 else 1) ∧
        (bodyStart raw content < before.length → before.getLast? = some '\n') ∧
        (before.length + line.length < bodyStart raw content + content.length → after.head? = some '\n')
    else before.length < bodyStart raw content → content ≠ []

/-- The part of the content between two positions, as a line. -/
theorem at_content_iff {u l v : Text} {m : ℕ} (h : content = u ++ (l ++ v)) (hl : ∀ c ∈ l, isLineBreak c = false) :
    At isNewline content m u l v ↔ u.countP isNewline = m ∧ (∀ c, u.getLast? = some c → c = '\n') ∧
      ∀ c, v.head? = some c → c = '\n' := by
  constructor
  · intro hat
    exact ⟨hat.count, fun c hc => of_decide_eq_true (hat.left c hc), fun c hc => of_decide_eq_true (hat.right c hc)⟩
  · rintro ⟨hcount, hleft, hright⟩
    refine ⟨h, hcount, fun c hc => decide_eq_true (hleft c hc), fun c hc => ?_, fun c hc => decide_eq_true (hright c hc)⟩
    refine decide_eq_false ?_
    rintro rfl
    have hbreak := hl _ hc
    revert hbreak
    decide

theorem countP_isLineBreak (s : Text) : s.countP isLineBreak = s.countP isNewline + s.countP isSeparator := by
  induction s with
  | nil => rfl
  | cons c s ih =>
    rw [List.countP_cons, List.countP_cons, List.countP_cons, ih, isSeparator]
    cases hnewline : isNewline c with
    | false =>
      rw [Bool.not_false, Bool.and_true]
      simp only [Bool.false_eq_true, if_false]
      omega
    | true =>
      obtain rfl : c = '\n' := of_decide_eq_true hnewline
      rw [if_pos (by decide), if_pos rfl, Bool.not_true, Bool.and_false]
      simp only [Bool.false_eq_true, if_false]
      omega

section
variable {before line after : Text} {index : ℕ} (hs : Stands raw content pre post)
  (hat : At isLineBreak raw index before line after)
include hs

theorem Stands.getElem? {i : ℕ} (hi : i < content.length) : raw[pre.length + i]? = content[i]? := by
  rw [hs.split, List.getElem?_append_right (Nat.le_add_right _ _), Nat.add_sub_cancel_left, List.getElem?_append_left hi]

theorem Stands.take : raw.take pre.length = pre := by rw [hs.split, List.take_left]

include hat

/-- The body begins before the line, or in it. -/
theorem Stands.before_of_le (hle : pre.length ≤ before.length) (hbody : before.length ≤ pre.length + content.length) :
    before = pre ++ content.take (before.length - pre.length) := by
  have htake : raw.take before.length = before := by rw [hat.split, List.take_left]
  rw [hs.split, List.take_append, List.take_of_length_le hle, List.take_append_of_le_length (by omega)] at htake
  exact htake.symm

theorem Stands.pre_of_lt (hlt : before.length < pre.length) (hbody : pre.length < before.length + line.length) :
    pre = before ++ line.take (pre.length - before.length) := by
  have htake := hs.take
  rw [hat.split, List.take_append, List.take_of_length_le hlt.le, List.take_append_of_le_length (by omega)] at htake
  exact htake.symm

theorem Stands.index_of_le (hle : pre.length ≤ before.length) (hbody : before.length ≤ pre.length + content.length) :
    index = pre.countP isLineBreak + (content.take (before.length - pre.length)).countP isLineBreak := by
  rw [← hat.count, hs.before_of_le hat hle hbody, List.countP_append]
  congr 3
  rw [List.length_append, List.length_take]
  omega

/-- The line that the body begins in is counted with what is before the body. -/
theorem Stands.index_of_lt (hlt : before.length < pre.length) (hbody : pre.length < before.length + line.length) :
    index = pre.countP isLineBreak ∧ pre.getLast?.all isLineBreak = false := by
  have hpre := hs.pre_of_lt hat hlt hbody
  have hinner : ∀ c ∈ line.take (pre.length - before.length), isLineBreak c = false := fun c hc =>
    hat.inner c (List.mem_of_mem_take hc)
  refine ⟨?_, ?_⟩
  · have hzero : (line.take (pre.length - before.length)).countP isLineBreak = 0 :=
      List.countP_eq_zero.mpr fun c hc => Bool.eq_false_iff.mp (hinner c hc)
    rw [hpre, List.countP_append, hat.count, hzero, Nat.add_zero]
  · have hne : line.take (pre.length - before.length) ≠ [] := by
      refine List.ne_nil_of_length_pos ?_
      rw [List.length_take]
      omega
    rw [hpre, List.getLast?_append, List.getLast?_eq_some_getLast hne, Option.some_or, Option.all_some]
    exact hinner _ (List.getLast_mem hne)

/-- What the content has before the line ends as the file does. -/
theorem Stands.left_iff (hhigh : before.length < pre.length + content.length) :
    (∀ c, (content.take (before.length - pre.length)).getLast? = some c → c = '\n') ↔
      (pre.length < before.length → before.getLast? = some '\n') := by
  by_cases hlt : pre.length < before.length
  · have hlast : (content.take (before.length - pre.length)).getLast? = before.getLast? := by
      rw [hat.getLast?_before (by omega), List.getLast?_eq_getElem?, List.length_take, List.getElem?_take, if_pos (by omega),
        ← hs.getElem? (by omega)]
      congr 1
      omega
    obtain ⟨x, hx⟩ : ∃ x, before.getLast? = some x :=
      ⟨_, List.getLast?_eq_some_getLast (List.ne_nil_of_length_pos (by omega))⟩
    rw [hlast, hx]
    exact ⟨fun h _ => congrArg some (h x rfl), fun h c hc => Option.some.inj (hc.symm.trans (h hlt))⟩
  · rw [Nat.sub_eq_zero_of_le (not_lt.mp hlt), List.take_zero]
    exact iff_of_true (fun _ h => nomatch h) fun h => absurd h hlt

theorem Stands.right_iff (hlow : pre.length < before.length + line.length) :
    (∀ c, (content.drop (min (before.length + line.length) (pre.length + content.length) - pre.length)).head? = some c →
        c = '\n') ↔
      (before.length + line.length < pre.length + content.length → after.head? = some '\n') := by
  rw [List.head?_drop, hat.head?_after]
  by_cases hlt : before.length + line.length < pre.length + content.length
  · have hget : content[before.length + line.length - pre.length]? = raw[before.length + line.length]? := by
      rw [← hs.getElem? (by omega)]
      congr 1
      omega
    rw [min_eq_left hlt.le, ← hget, List.getElem?_eq_getElem (by omega)]
    exact ⟨fun h _ => congrArg some (h _ rfl), fun h c hc => Option.some.inj (hc.symm.trans (h hlt))⟩
  · rw [min_eq_right (not_lt.mp hlt), Nat.add_sub_cancel_left, List.getElem?_eq_none (Nat.le_refl _)]
    exact iff_of_true (fun _ h => nomatch h) fun h => absurd h hlt

theorem Stands.inner : ∀ c ∈ (content.drop (before.length - pre.length)).take
      (min (before.length + line.length) (pre.length + content.length) - max before.length pre.length),
      isLineBreak c = false := by
  intro c hc
  obtain ⟨i, hi⟩ := List.mem_iff_getElem?.mp hc
  rw [List.getElem?_take] at hi
  split at hi
  · rename_i hlt
    rw [List.getElem?_drop, ← hs.getElem? (by omega)] at hi
    refine hat.inner c (List.mem_of_getElem? (i := max before.length pre.length + i - before.length) ?_)
    rw [← hat.getElem?_line (by omega), ← hi]
    congr 1
    omega
  · cases hi

theorem Stands.parts_iff {m : ℕ} (hlow : pre.length < before.length + line.length)
    (hhigh : before.length < pre.length + content.length) :
    (∃ u l v, At isNewline content m u l v ∧ pre.length + u.length = max before.length pre.length ∧
      pre.length + u.length + l.length = min (before.length + line.length) (pre.length + content.length)) ↔
    (content.take (before.length - pre.length)).countP isNewline = m ∧
      (pre.length < before.length → before.getLast? = some '\n') ∧
        (before.length + line.length < pre.length + content.length → after.head? = some '\n') := by
  have hsplit : content = content.take (before.length - pre.length) ++
      ((content.drop (before.length - pre.length)).take
        (min (before.length + line.length) (pre.length + content.length) - max before.length pre.length) ++
      content.drop (min (before.length + line.length) (pre.length + content.length) - pre.length)) := by
    have hdrop : content.drop (min (before.length + line.length) (pre.length + content.length) - pre.length) =
        (content.drop (before.length - pre.length)).drop
          (min (before.length + line.length) (pre.length + content.length) - max before.length pre.length) := by
      rw [List.drop_drop]
      congr 1
      omega
    rw [hdrop, List.take_append_drop, List.take_append_drop]
  have hat_iff := @at_content_iff _ _ _ _ m hsplit (hs.inner hat)
  rw [hs.left_iff hat hhigh, hs.right_iff hat hlow] at hat_iff
  rw [← hat_iff]
  constructor
  · rintro ⟨u, l, v, h, hu, hl⟩
    obtain ⟨rfl, hrest⟩ := List.append_inj (h.split.symm.trans hsplit) (by rw [List.length_take]; omega)
    obtain ⟨rfl, rfl⟩ := List.append_inj hrest (by rw [List.length_take, List.length_drop]; omega)
    exact h
  · intro h
    refine ⟨_, _, _, h, ?_, ?_⟩
    · rw [List.length_take]
      omega
    · rw [List.length_take, List.length_take, List.length_drop]
      omega

/-- **A line of the body**. -/
theorem Stands.numbered_iff (hr : '\r' ∉ raw) (hlow : pre.length < before.length + line.length)
    (hhigh : before.length < pre.length + content.length) :
    (1 ≤ index + 1 - fmOffset raw content ∧ ∃ u l v, At isNewline content (index + 1 - fmOffset raw content - 1) u l v ∧
      pre.length + u.length = max before.length pre.length ∧
      pre.length + u.length + l.length = min (before.length + line.length) (pre.length + content.length)) ↔
    (content.take (before.length - pre.length)).countP isSeparator = (if pre.getLast?.all isLineBreak then 0 else 1) ∧
      (pre.length < before.length → before.getLast? = some '\n') ∧
        (before.length + line.length < pre.length + content.length → after.head? = some '\n') := by
  have hpre : '\r' ∉ pre := fun h => hr (by rw [hs.split]; exact List.mem_append_left _ h)
  have hoffset : fmOffset raw content = pre.countP isLineBreak + if pre.getLast?.all isLineBreak then 0 else 1 := by
    rw [hs.offset, splitlines_eq hpre, length_lines]
  rw [hs.parts_iff hat hlow hhigh, ← and_assoc, hoffset]
  refine and_congr_left fun _ => ?_
  by_cases hle : pre.length ≤ before.length
  · have hindex := hs.index_of_le hat hle hhigh.le
    rw [countP_isLineBreak (content.take _)] at hindex
    split <;> omega
  · obtain ⟨hindex, hmid⟩ := hs.index_of_lt hat (not_le.mp hle) hlow
    rw [hmid, if_neg Bool.false_ne_true, Nat.sub_eq_zero_of_le (not_le.mp hle).le, List.take_zero]
    simp only [List.countP_nil]
    omega

/-- A line that ends before the body begins is one of those that are taken off. -/
theorem Stands.number_zero (hr : '\r' ∉ raw) (hne : content ≠ []) (hend : before.length + line.length ≤ pre.length) :
    index + 1 - fmOffset raw content = 0 := by
  have hpre : '\r' ∉ pre := fun h => hr (by rw [hs.split]; exact List.mem_append_left _ h)
  have hlt : before.length + line.length < pre.length := by
    refine lt_of_le_of_ne hend fun heq => ?_
    have hhead : content.head? = after.head? := by
      rw [hat.head?_after, heq, List.head?_eq_getElem?, ← hs.getElem? (List.length_pos_of_ne_nil hne), Nat.add_zero]
    obtain ⟨c, hc⟩ : ∃ c, content.head? = some c := ⟨_, List.head?_eq_some_head hne⟩
    have hbreak := hat.right c (hhead ▸ hc)
    rw [hs.head c hc] at hbreak
    cases hbreak
  obtain ⟨c, hc⟩ : ∃ c, after.head? = some c := by
    rw [hat.head?_after, List.getElem?_eq_getElem (by rw [hs.split, List.length_append]; omega)]
    exact ⟨_, rfl⟩
  obtain ⟨rest, rfl⟩ := List.head?_eq_some_iff.mp hc
  obtain ⟨n, hn⟩ := Nat.exists_eq_add_of_lt hlt
  have htake : pre = before ++ (line ++ c :: rest.take n) := by
    have h := hs.take
    rw [hat.split, hn, List.take_append, List.take_of_length_le (by omega), List.take_append,
      List.take_of_length_le (by omega)] at h
    rw [show before.length + line.length + n + 1 - before.length - line.length = n + 1 by omega, List.take_succ_cons] at h
    exact h.symm
  have hcount : index + 1 ≤ pre.countP isLineBreak := by
    rw [htake, List.countP_append, List.countP_append, List.countP_cons_of_pos (hat.right c rfl), hat.count]
    omega
  rw [hs.offset, splitlines_eq hpre, length_lines]
  omega

end

theorem at_iff {p : Char → Bool} {k : ℕ} {before line after : Text} {P : Text → Text → Prop} (h : At p s k before line after) :
    (∃ before after, At p s k before line after ∧ P before after) ↔ P before after := by
  refine ⟨fun ⟨before', after', h', hP⟩ => ?_, fun hP => ⟨before, after, h, hP⟩⟩
  obtain ⟨rfl, -, rfl⟩ := h.unique h'
  exact hP

/-- **One line**: its number is right exactly when the file is regular around it. -/
theorem numbered_iff {line : Text} {index : ℕ} (h : ∃ block body, raw = block ++ body ∧ content = strip body)
    (hr : '\r' ∉ raw) (hline : (splitlines raw)[index]? = some line) :
    Numbered raw content index line (index + 1 - fmOffset raw content) ↔ Regular raw content index line := by
  rw [splitlines_eq hr] at hline
  obtain ⟨before, after, hat⟩ := at_of_getElem? hline
  rw [Numbered, Regular, at_iff hat, at_iff hat]
  by_cases hne : content = []
  · have hbody : ¬ InBody raw content before line := fun hbody => hbody.1 hne
    rw [if_neg hbody, if_neg hbody]
    refine forall_congr' fun _ => iff_of_false ?_ (not_not_intro hne)
    rw [fmOffset, if_pos hne]
    exact Nat.succ_ne_zero index
  · obtain ⟨pre, post, hs⟩ := stands h hne
    split
    · rename_i hbody
      rw [InBody, hs.start] at hbody
      rw [hs.start, hs.take]
      exact hs.numbered_iff hat hr hbody.2.2 hbody.2.1
    · rename_i hbody
      rw [InBody, hs.start] at hbody
      rw [hs.start]
      exact iff_of_true (fun hlt => hs.number_zero hat hr hne (by by_contra hgt; exact hbody ⟨hne, by omega, by omega⟩))
        fun _ => hne

/-! ## the loops -/

/-- A line of a file that contains the pattern, with its index. -/
structure Hit where
  relative : Text
  raw : Text
  index : ℕ
  line : Text
deriving DecidableEq

namespace Env
variable (env : Env) (q : Query)

def hits (relative : Text) : List Hit :=
  (env.readText relative).elim [] fun raw =>
    ((splitlines raw).zipIdx.filter fun x => env.contains q x.1).map fun x => ⟨relative, raw, x.2, x.1⟩

def searched (paths : List Text) : List Text :=
  paths.filter fun relative => q.scope.all fun scope => inScope scope (Reconcile.noteFolder relative)

/-- All hits, in order. -/
def found (paths : List Text) : List Hit := (searched q paths).flatMap (env.hits q)

/-- The files that are read: as long as there are not too many hits in the ones before. -/
def Readable (count : ℕ) (paths : List Text) : Prop :=
  ∀ before relative after, searched q paths = before ++ relative :: after →
    count + (before.flatMap (env.hits q)).length ≤ q.maxResults.toNat → (env.readNoteFile relative).isSome = true

def Made (m : GrepMatch) (h : Hit) : Prop :=
  ∃ fm content, env.readNoteFile h.relative = some (fm, content) ∧
    m = env.makeMatch h.relative h.raw content fm h.line (h.index + 1)

variable {env q} {make : Text → ℕ → GrepMatch} {ls : List (Text × ℕ)} {matched : List GrepMatch} {relative raw : Text}
  {paths : List Text} {r : GrepResult}

theorem searchLines_eq (hle : matched.length ≤ q.maxResults.toNat) : env.searchLines q make ls matched =
    ⟨matched ++ ((ls.filter fun x => env.contains q x.1).take (q.maxResults.toNat - matched.length)).map
        fun x => make x.1 x.2,
      decide (q.maxResults.toNat < matched.length + (ls.filter fun x => env.contains q x.1).length)⟩ := by
  generalize hp : (fun x : Text × ℕ => env.contains q x.1) = p
  induction ls generalizing matched with
  | nil =>
    rw [searchLines, List.filter_nil, List.take_nil, List.map_nil, List.append_nil, List.length_nil,
      decide_eq_false (by omega)]
  | cons x ls ih =>
    obtain ⟨line, number⟩ := x
    rw [searchLines, show env.contains q line = p (line, number) by rw [← hp]]
    cases hcontains : p (line, number) with
    | false =>
      rw [if_neg Bool.false_ne_true, ih hle, List.filter_cons_of_neg (by rw [hcontains]; exact Bool.false_ne_true)]
    | true =>
      rw [if_pos rfl, List.filter_cons_of_pos hcontains, List.length_cons]
      split
      · rename_i hfull
        have hfull := Int.toNat_le.mpr hfull
        rw [Nat.sub_eq_zero_of_le hfull, List.take_zero, List.map_nil, List.append_nil, decide_eq_true (by omega)]
      · rename_i hroom
        have hroom : matched.length < q.maxResults.toNat := not_le.mp fun h => hroom (Int.toNat_le.mp h)
        obtain ⟨n, hn⟩ := Nat.exists_eq_add_of_lt hroom
        rw [ih (by rw [List.length_append, List.length_singleton]; omega), hn, List.length_append, List.length_singleton,
          show matched.length + n + 1 - matched.length = n + 1 by omega,
          show matched.length + n + 1 - (matched.length + 1) = n by omega, List.take_succ_cons, List.map_cons,
          List.append_assoc, List.singleton_append]
        congr 2
        exact propext (by omega)

theorem hits_eq (hraw : env.readText relative = some raw) :
    ((splitlines raw).zipIdx 1).filter (fun x => env.contains q x.1) =
      (env.hits q relative).map fun h => (h.line, h.index + 1) := by
  rw [hits, hraw, Option.elim_some, List.zipIdx_succ, List.filter_map, List.map_map]
  rfl

theorem mem_hits {h : Hit} (hmem : h ∈ env.hits q relative) : h.relative = relative ∧ env.readText relative = some h.raw ∧
    (splitlines h.raw)[h.index]? = some h.line := by
  unfold hits at hmem
  cases hraw : env.readText relative with
  | none =>
    rw [hraw] at hmem
    cases hmem
  | some raw =>
    rw [hraw] at hmem
    obtain ⟨x, hx, rfl⟩ := List.mem_map.mp hmem
    exact ⟨rfl, rfl, List.mem_zipIdx_iff_getElem?.mp (List.mem_of_mem_filter hx)⟩

theorem readNoteFile_eq {fm : NoteFrontmatter} {content : Text} :
    env.readNoteFile relative = some (fm, content) ↔ ∃ raw m, env.readText relative = some raw ∧
      env.loader.loads raw = some (m, content) ∧ parseFrontmatter m = fm := by
  constructor
  · intro h
    obtain ⟨raw, hraw, h⟩ := Option.bind_eq_some_iff.mp h
    obtain ⟨⟨m, content'⟩, hloads, h⟩ := Option.bind_eq_some_iff.mp h
    cases h
    exact ⟨raw, m, hraw, hloads, rfl⟩
  · rintro ⟨raw, m, hraw, hloads, rfl⟩
    exact Option.bind_eq_some_iff.mpr ⟨raw, hraw, Option.bind_eq_some_iff.mpr ⟨(m, content), hloads, rfl⟩⟩

/-- One file in scope. -/
theorem searchFiles_cons {fm : NoteFrontmatter} {content : Text}
    (hscope : (q.scope.all fun scope => inScope scope (Reconcile.noteFolder relative)) = true)
    (hread : env.readNoteFile relative = some (fm, content)) (hle : matched.length ≤ q.maxResults.toNat) :
    ∃ new, List.Forall₂ env.Made new ((env.hits q relative).take (q.maxResults.toNat - matched.length)) ∧
      env.searchFiles q (relative :: paths) matched =
        if q.maxResults.toNat < matched.length + (env.hits q relative).length then .ok ⟨matched ++ new, true⟩
        else env.searchFiles q paths (matched ++ new) := by
  obtain ⟨raw, m, hraw, hloads, rfl⟩ := readNoteFile_eq.mp hread
  refine ⟨((env.hits q relative).take (q.maxResults.toNat - matched.length)).map fun h =>
    env.makeMatch relative raw content (parseFrontmatter m) h.line (h.index + 1), ?_, ?_⟩
  · rw [List.forall₂_map_left_iff, List.forall₂_same]
    intro h hmem
    obtain ⟨hrelative, hraw', -⟩ := mem_hits (List.mem_of_mem_take hmem)
    rw [hraw] at hraw'
    refine ⟨_, _, hrelative ▸ hread, ?_⟩
    rw [hrelative, Option.some.inj hraw']
  · rw [searchFiles, if_pos hscope, hraw]
    simp only [hloads]
    rw [searchLines_eq hle, hits_eq hraw, ← List.map_take, List.map_map, List.length_map]
    split
    · rename_i htrue
      rw [if_pos (of_decide_eq_true htrue)]
      exact congrArg (fun b => Except.ok (GrepResult.mk _ b)) htrue
    · rename_i hfalse
      rw [if_neg fun hlt => hfalse (decide_eq_true hlt)]
      rfl

section
variable (hscope : (q.scope.all fun scope => inScope scope (Reconcile.noteFolder relative)) = true)
include hscope

theorem searchFiles_error (hread : env.readNoteFile relative = none) :
    ∃ e, env.searchFiles q (relative :: paths) matched = .error e := by
  rw [searchFiles, if_pos hscope]
  cases hraw : env.readText relative with
  | none => exact ⟨_, rfl⟩
  | some raw =>
    cases hloads : env.loader.loads raw with
    | none =>
      simp only [hloads]
      exact ⟨_, rfl⟩
    | some x =>
      obtain ⟨m, content⟩ := x
      rw [readNoteFile_eq.mpr ⟨raw, m, hraw, hloads, rfl⟩] at hread
      cases hread

theorem searched_cons : searched q (relative :: paths) = relative :: searched q paths := List.filter_cons_of_pos hscope

theorem found_cons : env.found q (relative :: paths) = env.hits q relative ++ env.found q paths := by
  rw [found, searched_cons hscope, List.flatMap_cons, found]

theorem readable_cons {count : ℕ} : env.Readable q count (relative :: paths) ↔
    (count ≤ q.maxResults.toNat → (env.readNoteFile relative).isSome = true) ∧
      env.Readable q (count + (env.hits q relative).length) paths := by
  unfold Readable
  rw [searched_cons hscope]
  constructor
  · refine fun h => ⟨h [] relative _ rfl, fun before relative' after hsplit hcount => ?_⟩
    refine h (relative :: before) relative' after (by rw [hsplit]; rfl) ?_
    rwa [List.flatMap_cons, List.length_append, ← Nat.add_assoc]
  · rintro ⟨hfirst, hrest⟩ before relative' after hsplit hcount
    cases before with
    | nil =>
      obtain ⟨rfl, -⟩ := List.cons.inj hsplit
      exact hfirst hcount
    | cons x before =>
      obtain ⟨rfl, htail⟩ := List.cons.inj hsplit
      rw [List.flatMap_cons, List.length_append, ← Nat.add_assoc] at hcount
      exact hrest before relative' after htail hcount

end

/-- A file out of scope is passed over. -/
theorem searchFiles_of_not (hscope : ¬ (q.scope.all fun scope => inScope scope (Reconcile.noteFolder relative)) = true) :
    env.searchFiles q (relative :: paths) matched = env.searchFiles q paths matched ∧
      searched q (relative :: paths) = searched q paths :=
  ⟨by rw [searchFiles, if_neg hscope], List.filter_cons_of_neg hscope⟩

/-- What the loop has read, and what it has found. -/
theorem searchFiles_ok (hle : matched.length ≤ q.maxResults.toNat) (h : env.searchFiles q paths matched = .ok r) :
    env.Readable q matched.length paths ∧ ∃ new, r.matched = matched ++ new ∧
      List.Forall₂ env.Made new ((env.found q paths).take (q.maxResults.toNat - matched.length)) ∧
      (r.truncated = true ↔ q.maxResults.toNat < matched.length + (env.found q paths).length) := by
  induction paths generalizing matched with
  | nil =>
    cases h
    refine ⟨fun before relative after hsplit => ?_, [], (List.append_nil _).symm, ?_, ?_⟩
    · cases before <;> cases hsplit
    · rw [show env.found q [] = [] from rfl, List.take_nil]
      exact .nil
    · exact iff_of_false Bool.false_ne_true (not_lt.mpr hle)
  | cons relative paths ih =>
    by_cases hscope : (q.scope.all fun scope => inScope scope (Reconcile.noteFolder relative)) = true
    · cases hread : env.readNoteFile relative with
      | none =>
        obtain ⟨e, he⟩ := @searchFiles_error _ _ matched _ paths hscope hread
        rw [he] at h
        cases h
      | some x =>
        obtain ⟨new, hnew, hcons⟩ := @searchFiles_cons env q matched _ paths _ _ hscope hread hle
        rw [hcons] at h
        rw [readable_cons hscope, found_cons hscope, List.length_append, hread]
        have hlength := hnew.length_eq
        rw [List.length_take] at hlength
        split at h
        · rename_i hmany
          cases h
          refine ⟨⟨fun _ => rfl, fun before _ _ _ hcount => absurd hcount (by omega)⟩, new, rfl, ?_, ?_⟩
          · rwa [List.take_append_of_le_length (by omega)]
          · exact iff_of_true rfl (by omega)
        · rename_i hfew
          rw [min_eq_right (by omega)] at hlength
          have hle' : (matched ++ new).length ≤ q.maxResults.toNat := by
            rw [List.length_append]
            omega
          obtain ⟨hreadable, rest, hmatched, hrest, htruncated⟩ := ih hle' h
          rw [List.length_append, hlength] at hreadable hrest htruncated
          refine ⟨⟨fun _ => rfl, hreadable⟩, new ++ rest, by rw [hmatched, List.append_assoc], ?_, ?_⟩
          · rw [List.take_of_length_le (by omega)] at hnew
            rw [List.take_append, List.take_of_length_le (by omega), Nat.sub_sub]
            exact List.rel_append hnew hrest
          · rw [htruncated, Nat.add_assoc]
    · obtain ⟨hsame, hsearched⟩ := @searchFiles_of_not env q matched _ paths hscope
      rw [hsame] at h
      rw [Readable, found, hsearched]
      exact ih hle h

theorem exists_searchFiles (hle : matched.length ≤ q.maxResults.toNat) (h : env.Readable q matched.length paths) :
    ∃ r, env.searchFiles q paths matched = .ok r := by
  induction paths generalizing matched with
  | nil => exact ⟨_, rfl⟩
  | cons relative paths ih =>
    by_cases hscope : (q.scope.all fun scope => inScope scope (Reconcile.noteFolder relative)) = true
    · obtain ⟨hfirst, hrest⟩ := (readable_cons hscope).mp h
      obtain ⟨⟨fm, content⟩, hread⟩ := Option.isSome_iff_exists.mp (hfirst hle)
      obtain ⟨new, hnew, hcons⟩ := @searchFiles_cons env q matched _ paths _ _ hscope hread hle
      rw [hcons]
      have hlength := hnew.length_eq
      rw [List.length_take] at hlength
      split
      · exact ⟨_, rfl⟩
      · have hlength' : (matched ++ new).length = matched.length + (env.hits q relative).length := by
          rw [List.length_append]
          omega
        exact ih (by omega) (by rwa [hlength'])
    · obtain ⟨hsame, hsearched⟩ := @searchFiles_of_not env q matched _ paths hscope
      rw [hsame]
      rw [Readable, hsearched] at h
      exact ih hle h

/-! ## the result -/

section
variable (env q)

/-- The match shows its line, of this note. -/
def Right (m : GrepMatch) (h : Hit) : Prop :=
  m.line = h.line ∧ m.folder = Reconcile.noteFolder h.relative ∧ ∃ fm content,
    env.readNoteFile h.relative = some (fm, content) ∧ m.noteId = env.str fm.id.orEmpty ∧
      m.title = env.str fm.title.orEmpty ∧ Numbered h.raw content h.index h.line m.lineNumber

/-- The file is regular around the hit. -/
def RegularAt (h : Hit) : Prop :=
  ∀ fm content, env.readNoteFile h.relative = some (fm, content) → Regular h.raw content h.index h.line

def reported : List Hit := (env.found q env.iterNotePaths).take q.maxResults.toNat

/-- The matches are the lines that contain the pattern, up to the limit. -/
structure Exact (r : GrepResult) : Prop where
  matched : List.Forall₂ env.Right r.matched (env.reported q)
  truncated : r.truncated = true ↔ q.maxResults.toNat < (env.found q env.iterNotePaths).length

end

theorem right_iff {m : GrepMatch} {h : Hit} (hmade : env.Made m h) (hmem : h ∈ env.found q env.iterNotePaths) :
    env.Right m h ↔ env.RegularAt h := by
  obtain ⟨relative, -, hmem⟩ := List.mem_flatMap.mp hmem
  obtain ⟨rfl, hraw, hline⟩ := mem_hits hmem
  obtain ⟨fm, content, hread, rfl⟩ := hmade
  obtain ⟨raw, m, hraw', hloads, rfl⟩ := readNoteFile_eq.mp hread
  obtain rfl := Option.some.inj (hraw.symm.trans hraw')
  have hr : '\r' ∉ h.raw := by
    obtain ⟨text, -, htext⟩ := Option.map_eq_some_iff.mp hraw
    rw [← htext]
    exact notMem_universalNewlines
  have hiff := numbered_iff (env.loader.stripped hloads) hr hline
  constructor
  · rintro ⟨-, -, fm', content', hread', -, -, hnumbered⟩ fm'' content'' hread''
    cases hread.symm.trans hread'
    cases hread.symm.trans hread''
    exact hiff.mp hnumbered
  · exact fun hregular => ⟨rfl, rfl, _, _, hread, rfl, rfl, hiff.mpr (hregular _ _ hread)⟩

theorem forall₂_iff {α β : Type} {R S : α → β → Prop} {P : β → Prop} {xs : List α} {ys : List β} (h : List.Forall₂ R xs ys)
    (hiff : ∀ x, ∀ y ∈ ys, R x y → (S x y ↔ P y)) : List.Forall₂ S xs ys ↔ ∀ y ∈ ys, P y := by
  induction h with
  | nil => exact iff_of_true .nil fun _ hy => nomatch hy
  | cons hxy _ ih =>
    rw [List.forall₂_cons, List.forall_mem_cons, hiff _ _ List.mem_cons_self hxy,
      ih fun x y hy => hiff x y (List.mem_cons_of_mem _ hy)]

theorem exact_iff (h : List.Forall₂ env.Made r.matched (env.reported q))
    (htruncated : r.truncated = true ↔ q.maxResults.toNat < (env.found q env.iterNotePaths).length) :
    env.Exact q r ↔ ∀ h ∈ env.reported q, env.RegularAt h := by
  refine Iff.trans ⟨fun hexact => hexact.matched, fun hmatched => ⟨hmatched, htruncated⟩⟩ (forall₂_iff h ?_)
  exact fun m h hmem hmade => right_iff hmade (List.mem_of_mem_take hmem)

theorem searchFiles_found (h : env.searchFiles q env.iterNotePaths [] = .ok r) : env.Readable q 0 env.iterNotePaths ∧
    (env.Exact q r ↔ ∀ h ∈ env.reported q, env.RegularAt h) := by
  obtain ⟨hreadable, new, hmatched, hnew, htruncated⟩ := searchFiles_ok (Nat.zero_le _) h
  rw [List.nil_append] at hmatched
  rw [List.length_nil, Nat.zero_add] at htruncated
  exact ⟨hreadable, exact_iff (hmatched ▸ hnew) htruncated⟩

theorem grep_eq {pattern : Text} {folder : Option Text} {caseSensitive : Bool} {maxResults : ℤ}
    (hq : env.query pattern folder caseSensitive maxResults = .ok q) :
    env.grep pattern folder caseSensitive maxResults = env.searchFiles q env.iterNotePaths [] := by
  rw [grep, hq]
  rfl

/-- **The result is right** exactly when the call is accepted, the files it comes to can be read, and each reported line
is in a regular place of its file. -/
theorem grep_iff (env : Env) (pattern : Text) (folder : Option Text) (caseSensitive : Bool) (maxResults : ℤ) :
    (∃ q r, env.query pattern folder caseSensitive maxResults = .ok q ∧
      env.grep pattern folder caseSensitive maxResults = .ok r ∧ env.Exact q r) ↔
    ∃ q, env.query pattern folder caseSensitive maxResults = .ok q ∧ env.Readable q 0 env.iterNotePaths ∧
      ∀ h ∈ env.reported q, env.RegularAt h := by
  constructor
  · rintro ⟨q, r, hq, hr, hexact⟩
    rw [grep_eq hq] at hr
    obtain ⟨hreadable, hiff⟩ := searchFiles_found hr
    exact ⟨q, hq, hreadable, hiff.mp hexact⟩
  · rintro ⟨q, hq, hreadable, hregular⟩
    obtain ⟨r, hr⟩ := @exists_searchFiles env q [] env.iterNotePaths (Nat.zero_le _) hreadable
    exact ⟨q, r, hq, (grep_eq hq).trans hr, (searchFiles_found hr).2.mpr hregular⟩

end Env

/-! ### a body that begins with a code block -/

/-- The length of the block between two fences. -/
def blockLength (raw : Text) : ℕ :=
  if "---\n".toList.isPrefixOf raw then (Occurrence.find "\n---".toList raw 3).elim 0 (· + 4) else 0

def fenced : Loader where
  loads raw := some (⟨.str "n1".toList, .str "Code".toList, .null, .null, .null, .null, .null⟩, strip (raw.drop (blockLength raw)))
  stripped := by
    rintro raw m content h
    cases h
    exact ⟨raw.take (blockLength raw), raw.drop (blockLength raw), (List.take_append_drop _ _).symm, rfl⟩

def codeFile : Text := "---\nid: n1\ntitle: Code\n---\n\n    first\nsecond".toList

def codeEnv : Env where
  rglob := ["Code.md".toList]
  text path := if path = "Code.md".toList then some codeFile else none
  loader := fenced
  casefold := id
  str v := v.asStr.getD []

def secondQuery : Query := ⟨"second".toList, none, true, 100⟩

/-- The second line of the content is reported as its first. -/
theorem codeEnv_not_exact : ¬ ∀ (env : Env) (pattern : Text) (folder : Option Text) (caseSensitive : Bool) (maxResults : ℤ)
    (q : Query), env.query pattern folder caseSensitive maxResults = .ok q →
      (∀ relative ∈ env.iterNotePaths, (env.readNoteFile relative).isSome = true) →
        ∃ r, env.grep pattern folder caseSensitive maxResults = .ok r ∧ env.Exact q r := by
  intro h
  obtain ⟨r, hr, hexact⟩ := h codeEnv "second".toList none true 100 secondQuery rfl (by decide +kernel)
  have hmem : (⟨"Code.md".toList, codeFile, 6, "second".toList⟩ : Hit) ∈ codeEnv.reported secondQuery := by decide +kernel
  rw [Env.grep_eq (q := secondQuery) rfl] at hr
  have hview : (codeEnv.readNoteFile "Code.md".toList).map (·.2) = some "first\nsecond".toList := by decide +kernel
  obtain ⟨⟨fm, content⟩, hread, rfl⟩ := Option.map_eq_some_iff.mp hview
  have hregular := (Env.searchFiles_found hr).2.mp hexact _ hmem _ _ hread
  have hat : At isLineBreak codeFile 6 "---\nid: n1\ntitle: Code\n---\n\n    first\n".toList "second".toList [] :=
    { split := by decide +kernel
      count := by decide +kernel
      left := fun c hc => by
        have hlast : "---\nid: n1\ntitle: Code\n---\n\n    first\n".toList.getLast? = some '\n' := by decide +kernel
        cases hlast.symm.trans hc
        rfl
      inner := fun c hc => by
        have hall : ("second".toList.all fun c => !isLineBreak c) = true := by decide +kernel
        simpa using List.all_eq_true.mp hall c hc
      right := fun _ h => nomatch h }
  have hplace := (at_iff hat).mp hregular
  revert hplace
  decide +kernel

end Kajet.Grep
