import Kajet.Lib.Rank
import Kajet.Lib.Str
import Mathlib.Data.Char
import Mathlib.Data.Finset.Dedup
import Mathlib.Data.Finset.Lattice.Basic
import Mathlib.Data.Finset.SDiff
import Mathlib.Data.List.Lex
import Mathlib.Data.Prod.Lex
import Mathlib.Data.String.Basic

/-!
# What a wikilink target means

A target is a path suffix.  `resolveDetailed` picks one of the notes whose title is the target's
last segment and whose folder ends with the rest; when there is none it retries with `str.casefold`
on both.  `resolveContentLinks` resolves every link of a body.

`str.casefold` and the Markdown parser behind `extract_wikilinks` are parameters.

* `exactMatch`, `casefoldMatch`   the notes among which the winner is chosen;
* `resolve_eq_some`, `resolve_eq_none`   the winner (`Chosen`): a match of least rank, the first
                                  in the workspace's order that has its folder and title.
-/

namespace Kajet.Links
open Str Rank

/-- A note's identity as seen by link resolution. -/
structure IndexedNote where
  noteId : String
  folder : Text
  title : Text
deriving DecidableEq

/-! ## paths -/

def windowsForbidden (c : Char) : Bool := c ∈ "\\/:*?\"<>|".toList || c.toNat < 0x20

def windowsReserved : List Text :=
  ["CON", "PRN", "AUX", "NUL"].map String.toList ++
    ["COM", "LPT"].flatMap fun dev => "123456789".toList.map fun d => dev.toList ++ [d]

def titleToWindowsFilename (title : Text) : Text :=
  let result := collapseSpaces (title.map fun c => if windowsForbidden c then ' ' else c)
  let result := rstripChars ['.', ' '] (strip result)
  let result := if result.map Char.toUpper ∈ windowsReserved then '_' :: result else result
  let result := if result = [] then "untitled".toList else result
  result.take 200

def pathSegments (path : Text) : List Text := (split '/' path).filter (· ≠ [])

/-- `none` is the `ValueError` of a `..` segment. -/
def normalizeFolder (folder : Text) : Option Text :=
  let parts := pathSegments (strip folder)
  if "..".toList ∈ parts then none else some (join '/' (parts.map titleToWindowsFilename))

def splitTarget (target : Text) : Text × Text :=
  let (folderPart, title) := rpartition '/' (stripChars ['/'] (strip target))
  ((normalizeFolder folderPart).getD folderPart, strip title)

def joinTarget (folder title : Text) : Text :=
  if folder = [] then title else folder ++ '/' :: title

/-- The path of `note_filepath` below the workspace. -/
def notePath (n : IndexedNote) : Text :=
  join '/' ((pathSegments n.folder).filter (· ≠ ['.']) ++ [titleToWindowsFilename n.title ++ ".md".toList])

def sharedDepth : List Text → List Text → Nat
  | a :: as, b :: bs => if a = b then sharedDepth as bs + 1 else 0
  | _, _ => 0

def folderMatches (noteFolder suffix : Text) : Bool :=
  suffix = [] || noteFolder = suffix || endsWith noteFolder ('/' :: suffix)

/-! ## resolution of one target -/

/-- The sort key of a candidate. -/
abbrev Rank := Nat ×ₗ Int ×ₗ Nat ×ₗ Text ×ₗ Text

def rank (folder : Text) (source : List Text) (note : IndexedNote) : Rank :=
  let segments := pathSegments note.folder
  toLex (if note.folder = folder then 0 else 1, toLex (-(sharedDepth segments source : Int),
    toLex (segments.length, toLex (note.folder, note.title))))

structure LinkMatch where
  chosen : IndexedNote
  alternatives : List IndexedNote
  casefold : Bool
deriving DecidableEq

/-- The winner and the losing candidates of a ranked list. -/
def LinkMatch.ofRanked (casefold : Bool) : List IndexedNote → Option LinkMatch
  | [] => none
  | chosen :: alternatives => some ⟨chosen, alternatives, casefold⟩

theorem LinkMatch.map_ofRanked (casefold : Bool) (l : List IndexedNote) :
    (LinkMatch.ofRanked casefold l).map (·.chosen) = l.head? := by
  cases l <;> rfl

section
variable (casefold : Text → Text)

def exactCandidates (notes : List IndexedNote) (folder title : Text) : List IndexedNote :=
  (notes.filter fun n => n.title = title).filter fun n => folderMatches n.folder folder

def casefoldCandidates (notes : List IndexedNote) (folder title : Text) : List IndexedNote :=
  ((grouped IndexedNote.title notes).filter fun n => casefold n.title = casefold title).filter
    fun n => folderMatches (casefold n.folder) (casefold folder)

def resolveDetailed (notes : List IndexedNote) (target sourceFolder : Text) (allowCasefold : Bool) :
    Option LinkMatch :=
  let (folder, title) := splitTarget target
  let exact := exactCandidates notes folder title
  let fallback := exact = [] && allowCasefold
  let candidates := if fallback then casefoldCandidates casefold notes folder title else exact
  LinkMatch.ofRanked fallback (ranked (rank folder (pathSegments sourceFolder)) candidates)

def resolve (notes : List IndexedNote) (target sourceFolder : Text) (allowCasefold : Bool) :
    Option IndexedNote :=
  (resolveDetailed casefold notes target sourceFolder allowCasefold).map (·.chosen)

/-- The proper path suffixes of the note of at least `minSegments` segments, shortest first. -/
def pathSuffixes (note : IndexedNote) (minSegments : Nat) : List Text :=
  let segments := pathSegments note.folder ++ [note.title]
  (List.range' (max 1 minSegments) (segments.length - max 1 minSegments)).map fun length =>
    join '/' (segments.drop (segments.length - length))

/-- The target resolves to the note without the casefold fallback. -/
def hits (notes : List IndexedNote) (note : IndexedNote) (sourceFolder target : Text) : Bool :=
  (resolve casefold notes target sourceFolder false).any fun hit => hit.noteId = note.noteId

def shortestTarget (notes : List IndexedNote) (note : IndexedNote) (sourceFolder : Text)
    (minSegments : Nat) : Text :=
  ((pathSuffixes note minSegments).find? (hits casefold notes note sourceFolder)).getD
    (joinTarget note.folder note.title)

end

/-! ## the winner -/

section
variable {casefold : Text → Text} {notes : List IndexedNote} {folder title target source : Text}
  {n w : IndexedNote}

/-- The note's title is the target's last segment and its folder ends with the rest. -/
def exactMatch (target : Text) (n : IndexedNote) : Bool :=
  n.title = (splitTarget target).2 && folderMatches n.folder (splitTarget target).1

/-- The same after `casefold`. -/
def casefoldMatch (casefold : Text → Text) (target : Text) (n : IndexedNote) : Bool :=
  casefold n.title = casefold (splitTarget target).2 &&
    folderMatches (casefold n.folder) (casefold (splitTarget target).1)

/-- The rank of a note for a target that stands in a note of the folder `source`. -/
def linkRank (target source : Text) (n : IndexedNote) : Rank :=
  rank (splitTarget target).1 (pathSegments source) n

/-- The note that is chosen among those that `p` admits. -/
structure Chosen (p : IndexedNote → Bool) (key : IndexedNote → Rank) (notes : List IndexedNote)
    (w : IndexedNote) : Prop where
  admitted : p w = true
  least : ∀ c ∈ notes, p c = true → key w ≤ key c
  first : (notes.filter fun c => c.folder = w.folder ∧ c.title = w.title).head? = some w

theorem Chosen.mem {p : IndexedNote → Bool} {key : IndexedNote → Rank} (h : Chosen p key notes w) :
    w ∈ notes := (mem_of_head?_filter h.first).1

theorem linkRank_inj {a b : IndexedNote} :
    linkRank target source a = linkRank target source b ↔ a.folder = b.folder ∧ a.title = b.title := by
  constructor
  · intro h
    simp only [linkRank, rank, toLex_inj, Prod.mk.injEq] at h
    exact ⟨h.2.2.2.1, h.2.2.2.2⟩
  · rintro ⟨hf, ht⟩
    rw [linkRank, linkRank, rank, rank, hf, ht]

theorem exactCandidates_eq : exactCandidates notes (splitTarget target).1 (splitTarget target).2 =
    notes.filter (exactMatch target) := by
  rw [exactCandidates, List.filter_filter]
  exact List.filter_congr fun n _ => Bool.and_comm _ _

theorem casefoldCandidates_eq :
    casefoldCandidates casefold notes (splitTarget target).1 (splitTarget target).2 =
      (grouped IndexedNote.title notes).filter (casefoldMatch casefold target) := by
  rw [casefoldCandidates, List.filter_filter]
  exact List.filter_congr fun n _ => Bool.and_comm _ _

/-- The head of the sorted matches, whatever the order in which the index lists them. -/
theorem head?_ranked_filter {p : IndexedNote → Bool} {all : List IndexedNote}
    (hp : ∀ a b : IndexedNote, a.folder = b.folder → a.title = b.title → p a = p b)
    (hmem : ∀ a, a ∈ all ↔ a ∈ notes)
    (hall : ∀ w : IndexedNote, all.filter (fun c => c.folder = w.folder ∧ c.title = w.title) =
      notes.filter fun c => c.folder = w.folder ∧ c.title = w.title) :
    (ranked (linkRank target source) (all.filter p)).head? = some w ↔
      Chosen p (linkRank target source) notes w := by
  have hclass : p w = true → (all.filter p).filter (fun c => linkRank target source c =
      linkRank target source w) = notes.filter fun c => c.folder = w.folder ∧ c.title = w.title := by
    intro hw
    rw [List.filter_filter, ← hall]
    refine List.filter_congr fun c _ => ?_
    simp only [linkRank_inj]
    by_cases hc : c.folder = w.folder ∧ c.title = w.title
    · rw [hp c w hc.1 hc.2, hw]
      simp
    · simp [hc]
  rw [head?_ranked]
  constructor
  · rintro ⟨hleast, hfirst⟩
    have hw : p w = true := (List.mem_filter.mp (mem_of_head?_filter hfirst).1).2
    refine ⟨hw, fun c hc hpc => hleast c (List.mem_filter.mpr ⟨(hmem c).mpr hc, hpc⟩), ?_⟩
    rwa [hclass hw] at hfirst
  · rintro ⟨hw, hleast, hfirst⟩
    refine ⟨fun c hc => ?_, by rwa [hclass hw]⟩
    obtain ⟨hc, hpc⟩ := List.mem_filter.mp hc
    exact hleast c ((hmem c).mp hc) hpc

theorem exactMatch_congr {a b : IndexedNote} (hf : a.folder = b.folder) (ht : a.title = b.title) :
    exactMatch target a = exactMatch target b := by
  rw [exactMatch, exactMatch, hf, ht]

theorem casefoldMatch_congr {a b : IndexedNote} (hf : a.folder = b.folder) (ht : a.title = b.title) :
    casefoldMatch casefold target a = casefoldMatch casefold target b := by
  rw [casefoldMatch, casefoldMatch, hf, ht]

/-- The candidates of a target, in the order in which the index lists them. -/
def candidates (casefold : Text → Text) (notes : List IndexedNote) (target : Text)
    (allowCasefold : Bool) : List IndexedNote :=
  if notes.filter (exactMatch target) = [] && allowCasefold then
    (grouped IndexedNote.title notes).filter (casefoldMatch casefold target)
  else notes.filter (exactMatch target)

theorem resolve_eq_head? (allowCasefold : Bool) :
    resolve casefold notes target source allowCasefold =
      (ranked (linkRank target source) (candidates casefold notes target allowCasefold)).head? := by
  rw [resolve, resolveDetailed, LinkMatch.map_ofRanked, candidates, ← exactCandidates_eq,
    ← casefoldCandidates_eq]
  rfl

theorem chosen_exact : (ranked (linkRank target source) (notes.filter (exactMatch target))).head? =
    some w ↔ Chosen (exactMatch target) (linkRank target source) notes w :=
  head?_ranked_filter (fun _ _ => exactMatch_congr) (fun _ => Iff.rfl) fun _ => rfl

theorem chosen_casefold : (ranked (linkRank target source)
    ((grouped IndexedNote.title notes).filter (casefoldMatch casefold target))).head? = some w ↔
      Chosen (casefoldMatch casefold target) (linkRank target source) notes w :=
  head?_ranked_filter (fun _ _ => casefoldMatch_congr) (fun _ => mem_grouped) fun w =>
    filter_grouped _ w.title fun _ ha => (of_decide_eq_true ha).2

theorem resolve_eq_some : resolve casefold notes target source true = some w ↔
    Chosen (exactMatch target) (linkRank target source) notes w ∨
      (∀ n ∈ notes, exactMatch target n = false) ∧
        Chosen (casefoldMatch casefold target) (linkRank target source) notes w := by
  rw [resolve_eq_head?, candidates, Bool.and_true]
  by_cases hnil : notes.filter (exactMatch target) = []
  · have hno : ∀ n ∈ notes, exactMatch target n = false := fun n hn =>
      Bool.eq_false_of_not_eq_true (List.filter_eq_nil_iff.mp hnil n hn)
    rw [if_pos (decide_eq_true hnil), chosen_casefold]
    constructor
    · exact fun h => .inr ⟨hno, h⟩
    · rintro (h | h)
      · exact absurd h.admitted (by simp [hno w h.mem])
      · exact h.2
  · rw [if_neg (by simpa using hnil), chosen_exact]
    constructor
    · exact .inl
    · rintro (h | h)
      · exact h
      · exact absurd (List.filter_eq_nil_iff.mpr fun n hn => by simp [h.1 n hn]) hnil

theorem resolve_mem (h : resolve casefold notes target source true = some w) : w ∈ notes := by
  rcases resolve_eq_some.mp h with h | ⟨_, h⟩ <;> exact h.mem

theorem resolve_eq_none : resolve casefold notes target source true = none ↔
    ∀ n ∈ notes, exactMatch target n = false ∧ casefoldMatch casefold target n = false := by
  rw [resolve_eq_head?, List.head?_eq_none_iff, ranked_eq_nil, candidates, Bool.and_true]
  by_cases hnil : notes.filter (exactMatch target) = []
  · rw [if_pos (decide_eq_true hnil), List.filter_eq_nil_iff]
    have hno := List.filter_eq_nil_iff.mp hnil
    constructor
    · exact fun h n hn => ⟨by simpa using hno n hn, by simpa using h n (mem_grouped.mpr hn)⟩
    · exact fun h n hn => by simp [(h n (mem_grouped.mp hn)).2]
  · rw [if_neg (by simpa using hnil)]
    constructor
    · exact fun h => absurd h hnil
    · exact fun h => List.filter_eq_nil_iff.mpr fun n hn => by simp [(h n hn).1]

end

/-! ## resolution of a body -/

/-- The note id of a cross-workspace `[[note:ID]]` target. -/
def xwsNoteId (target : Text) : Option String :=
  (removePrefix "note:".toList target).map String.ofList

structure AmbiguousLink where
  target : Text
  chosen : IndexedNote
  alternatives : List IndexedNote
deriving DecidableEq

structure CaseCorrectedLink where
  target : Text
  chosen : IndexedNote
deriving DecidableEq

structure LinkResolution where
  resolvedIds : Finset String
  broken : List Text
  xwsIds : List String
  ambiguous : List AmbiguousLink
  caseCorrected : List CaseCorrectedLink
deriving DecidableEq

/-- `sorted(set(l))` -/
def sortedSet {α : Type} [LinearOrder α] (l : List α) : List α := l.dedup.insertionSort (· ≤ ·)

@[simp] theorem mem_sortedSet {α : Type} [LinearOrder α] {l : List α} {a : α} :
    a ∈ sortedSet l ↔ a ∈ l := by
  rw [sortedSet, List.mem_insertionSort, List.mem_dedup]

theorem sortedSet_sorted {α : Type} [LinearOrder α] (l : List α) : (sortedSet l).Pairwise (· < ·) := by
  have hne : (sortedSet l).Pairwise (· ≠ ·) :=
    (List.perm_insertionSort _ _).nodup_iff.mpr (List.nodup_dedup l)
  exact List.Pairwise.imp₂ (fun _ _ hle hne => lt_of_le_of_ne hle hne)
    (List.pairwise_insertionSort (· ≤ ·) l.dedup) hne

def LinkResolution.brokenPairs (r : LinkResolution) : List (Text × Text) :=
  (sortedSet (r.broken.map fun t => toLex (splitTarget t))).map ofLex

section
variable (casefold : Text → Text) (extractWikilinks : Text → List Text)

/-- The targets of a body that are resolved against the index. -/
def pathTargets (content : Text) : List Text :=
  (extractWikilinks content).filter fun t => xwsNoteId t = none

def resolveContentLinks (notes : List IndexedNote) (content sourceFolder : Text) : LinkResolution :=
  let match? := fun t => resolveDetailed casefold notes t sourceFolder true
  let targets := sortedSet (pathTargets extractWikilinks content)
  { resolvedIds := (targets.filterMap fun t => (match? t).map (·.chosen.noteId)).toFinset
    broken := targets.filter fun t => match? t = none
    xwsIds := sortedSet ((extractWikilinks content).filterMap xwsNoteId)
    ambiguous := targets.filterMap fun t => (match? t).bind fun m =>
      if m.alternatives = [] then none else some ⟨t, m.chosen, m.alternatives⟩
    caseCorrected := targets.filterMap fun t => (match? t).bind fun m =>
      if m.alternatives = [] ∧ m.casefold then some ⟨t, m.chosen⟩ else none }

/-- `_resolve_links`: the ids of `[[note:ID]]` links count when the owner has such a note
(`owned` are the ids of the owner's notes in every workspace). -/
def resolveLinks (notes : List IndexedNote) (owned : List String) (content sourceFolder : Text) :
    LinkResolution :=
  let resolution := resolveContentLinks casefold extractWikilinks notes content sourceFolder
  { resolution with
    resolvedIds := resolution.resolvedIds ∪ (resolution.xwsIds.filter (· ∈ owned)).toFinset }

end

section
variable {casefold : Text → Text} {extractWikilinks : Text → List Text}
  {notes notes' : List IndexedNote} {owned owned' : List String} {content source : Text}

theorem mem_resolvedIds {i : String} :
    i ∈ (resolveLinks casefold extractWikilinks notes owned content source).resolvedIds ↔
      (∃ t ∈ pathTargets extractWikilinks content, ∃ w,
        resolve casefold notes t source true = some w ∧ w.noteId = i) ∨
      (∃ t ∈ extractWikilinks content, xwsNoteId t = some i) ∧ i ∈ owned := by
  simp only [resolveLinks, resolveContentLinks, Finset.mem_union, List.mem_toFinset,
    List.mem_filterMap, List.mem_filter, mem_sortedSet, decide_eq_true_eq, resolve,
    Option.map_eq_some_iff]
  constructor
  · rintro (⟨t, ht, m, hm, rfl⟩ | h)
    · exact .inl ⟨t, ht, m.chosen, ⟨m, hm, rfl⟩, rfl⟩
    · exact .inr h
  · rintro (⟨t, ht, w, ⟨m, hm, rfl⟩, rfl⟩ | h)
    · exact .inl ⟨t, ht, m, hm, rfl⟩
    · exact .inr h

/-- The broken targets are compared link by link. -/
theorem broken_congr (h : ∀ t ∈ pathTargets extractWikilinks content,
    (resolve casefold notes t source true = none ↔ resolve casefold notes' t source true = none)) :
    (resolveLinks casefold extractWikilinks notes owned content source).broken =
      (resolveLinks casefold extractWikilinks notes' owned' content source).broken := by
  refine List.filter_congr fun t ht => decide_eq_decide.mpr ?_
  have hbroken := h t (mem_sortedSet.mp ht)
  rwa [resolve, resolve, Option.map_eq_none_iff, Option.map_eq_none_iff] at hbroken

end
end Kajet.Links
