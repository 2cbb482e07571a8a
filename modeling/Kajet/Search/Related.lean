import Kajet.Lib.Dict
import Kajet.Lib.Rank
import Kajet.Lib.Table
import Mathlib.Data.Prod.Lex
import Mathlib.Data.Rat.Defs
import Mathlib.Data.String.Basic
import Mathlib.Algebra.Order.Ring.Rat
import Mathlib.Algebra.BigOperators.Group.List.Basic

/-!
# Related notes

`rank_related` gets one row for each chunk of the note and each target, and shows for a target the row of the
largest margin.  Of two such rows it shows the one whose chunk arrived first.

* `Tables`, `tables`         the three dictionaries, filled source by source;
* `rankRelated`              the list;
* `contenders`, `winner`     the rows of a target that it compares, and the one it keeps;
* `mem_rankRelated`          the entries of the list;
* `rankRelated_iff`          the order of the rows does not matter exactly when no two rows of a target tie.
-/

namespace Kajet.Related
open Rank Table

structure RelatedEvidence where
  sourceChunkId : String
  targetNoteId : String
  targetChunkId : String
  distance : ℚ
deriving DecidableEq

structure RankedNote where
  noteId : String
  sourceChunkId : String
  bestChunkId : String
  bestDistance : ℚ
  hubMargin : ℚ
  coverage : ℚ
  isHead : Bool
  score : ℚ
deriving DecidableEq

/-- `HEAD` -/
def headSize : ℕ := 10

/-- `COVERAGE_WEIGHT` -/
def coverageWeight : ℚ := 1 / 10

/-- The value of a target in `best` and in `tail`. -/
structure Kept where
  margin : ℚ
  sourceChunkId : String
  chunkId : String
  distance : ℚ
deriving DecidableEq

structure Tables where
  best : Dict String Kept
  hits : Dict String ℕ
  tail : Dict String Kept

def kept (mean : ℚ) (row : RelatedEvidence) : Kept :=
  ⟨mean - row.distance, row.sourceChunkId, row.targetChunkId, row.distance⟩

/-- `current is None or margin > current[0]` -/
def replaces (k : Kept) (current : Option Kept) : Bool := current.all fun c => c.margin < k.margin

namespace Tables

def empty : Tables := ⟨.empty, .empty, .empty⟩

def addHead (mean : ℚ) (t : Tables) (row : RelatedEvidence) : Tables where
  best :=
    if replaces (kept mean row) (t.best.get? row.targetNoteId) then t.best.set row.targetNoteId (kept mean row)
    else t.best
  hits := t.hits.set row.targetNoteId ((t.hits.get? row.targetNoteId).getD 0 + 1)
  tail := t.tail

def addRest (mean : ℚ) (t : Tables) (row : RelatedEvidence) : Tables :=
  if (t.best.get? row.targetNoteId).isNone && replaces (kept mean row) (t.tail.get? row.targetNoteId) then
    { t with tail := t.tail.set row.targetNoteId (kept mean row) }
  else t

end Tables

/-- `sorted(rows, key=lambda r: (r.distance, r.target_note_id))` -/
def nearestFirst (rows : List RelatedEvidence) : List RelatedEvidence :=
  ranked (fun r => toLex (r.distance, r.targetNoteId)) rows

/-- `r_s` -/
def meanOf (head : List RelatedEvidence) : ℚ := (head.map (·.distance)).sum / head.length

def Tables.addSource (t : Tables) (rows : List RelatedEvidence) : Tables :=
  let sorted := nearestFirst rows
  let head := sorted.take headSize
  (sorted.drop headSize).foldl (addRest (meanOf head)) (head.foldl (addHead (meanOf head)) t)

def sources (evidence : List RelatedEvidence) : List String := insertionOrder (evidence.map (·.sourceChunkId))

def rowsOf (evidence : List RelatedEvidence) (source : String) : List RelatedEvidence :=
  evidence.filter fun r => r.sourceChunkId = source

/-- The dictionaries after the loop over `by_source.values()`. -/
def tables (evidence : List RelatedEvidence) : Tables :=
  ((sources evidence).map (rowsOf evidence)).foldl Tables.addSource .empty

/-- An entry of `best`; the target is in `hits` with it. -/
def headNote (hits : ℕ) (nSources : ℤ) (noteId : String) (k : Kept) : RankedNote where
  noteId := noteId
  sourceChunkId := k.sourceChunkId
  bestChunkId := k.chunkId
  bestDistance := k.distance
  hubMargin := k.margin
  coverage := hits / nSources
  isHead := true
  score := k.margin + coverageWeight * hits / nSources

def tailNote (noteId : String) (k : Kept) : RankedNote where
  noteId := noteId
  sourceChunkId := k.sourceChunkId
  bestChunkId := k.chunkId
  bestDistance := k.distance
  hubMargin := k.margin
  coverage := 0
  isHead := false
  score := k.margin

def Tables.headNotes (t : Tables) (nSources : ℤ) : List RankedNote :=
  t.best.entries.map fun e => headNote ((t.hits.get? e.1).getD 0) nSources e.1 e.2

def Tables.tailNotes (t : Tables) : List RankedNote :=
  (t.tail.entries.filter fun e => (t.best.get? e.1).isNone).map fun e => tailNote e.1 e.2

/-- The larger score first, then the smaller id. -/
def order (n : RankedNote) : ℚ ×ₗ String := toLex (-n.score, n.noteId)

def rankRelated (evidence : List RelatedEvidence) (nSources : ℤ) : List RankedNote :=
  if evidence = [] ∨ nSources ≤ 0 then []
  else ranked order ((tables evidence).headNotes nSources) ++ ranked order (tables evidence).tailNotes

/-! ## the rows that are compared -/

section
variable (evidence : List RelatedEvidence)

/-- The ten nearest targets of a source. -/
def nearest (source : String) : List RelatedEvidence := (nearestFirst (rowsOf evidence source)).take headSize

def farther (source : String) : List RelatedEvidence := (nearestFirst (rowsOf evidence source)).drop headSize

def margin (row : RelatedEvidence) : ℚ := meanOf (nearest evidence row.sourceChunkId) - row.distance

/-- The rows of a target, source by source, among the nearest ones. -/
def headRows (target : String) : List RelatedEvidence :=
  ((sources evidence).flatMap (nearest evidence)).filter fun r => r.targetNoteId = target

def tailRows (target : String) : List RelatedEvidence :=
  ((sources evidence).flatMap (farther evidence)).filter fun r => r.targetNoteId = target

def contenders (target : String) : List RelatedEvidence :=
  if headRows evidence target = [] then tailRows evidence target else headRows evidence target

def winner (target : String) : Option RelatedEvidence := best (margin evidence) (contenders evidence target)

def keptOf (row : RelatedEvidence) : Kept := kept (meanOf (nearest evidence row.sourceChunkId)) row

/-- What the list shows when the row has won. -/
def noteOf (nSources : ℤ) (row : RelatedEvidence) : RankedNote :=
  if headRows evidence row.targetNoteId = [] then tailNote row.targetNoteId (keptOf evidence row)
  else headNote (headRows evidence row.targetNoteId).length nSources row.targetNoteId (keptOf evidence row)

end

/-! ## filling the dictionaries -/

variable {evidence rows : List RelatedEvidence} {t : Tables} {mean : ℚ} {target source : String}

theorem addHead_best (row : RelatedEvidence) : (t.addHead mean row).best.get? target =
    if row.targetNoteId = target then keepBest Kept.margin (t.best.get? target) (kept mean row)
    else t.best.get? target := by
  unfold Tables.addHead keepBest
  by_cases h : row.targetNoteId = target
  · subst h
    rw [if_pos rfl]
    show Dict.get? (if replaces _ _ = true then _ else _) _ = if replaces _ _ = true then _ else _
    split
    · exact Dict.get?_set_self
    · rfl
  · rw [if_neg h]
    dsimp only
    split
    · exact Dict.get?_set_ne (Ne.symm h)
    · rfl

theorem foldl_addHead (rows : List RelatedEvidence) (mean : ℚ) (target : String) (t : Tables) : let t' := rows.foldl (Tables.addHead mean) t
    t'.best.get? target =
        (((rows.filter fun r => r.targetNoteId = target).map (kept mean)).foldl (keepBest Kept.margin)
          (t.best.get? target)) ∧
      (t'.hits.get? target).getD 0 = (t.hits.get? target).getD 0 + (rows.filter fun r => r.targetNoteId = target).length ∧
      t'.tail = t.tail := by
  dsimp only
  induction rows generalizing t with
  | nil => exact ⟨rfl, rfl, rfl⟩
  | cons row rows ih =>
    obtain ⟨hbest, hhits, htail⟩ := ih (t.addHead mean row)
    rw [List.foldl_cons]
    refine ⟨?_, ?_, htail⟩
    · rw [hbest, addHead_best]
      by_cases h : row.targetNoteId = target
      · rw [if_pos h, List.filter_cons_of_pos (by simpa using h)]
        rfl
      · rw [if_neg h, List.filter_cons_of_neg (by simpa using h)]
    · rw [hhits]
      show ((t.hits.set row.targetNoteId _).get? target).getD 0 + _ = _
      rw [Dict.get?_set]
      by_cases h : target = row.targetNoteId
      · rw [if_pos h, List.filter_cons_of_pos (by simpa using h.symm), h, List.length_cons, Option.getD_some]
        omega
      · rw [if_neg h, List.filter_cons_of_neg (by simpa using Ne.symm h)]

theorem addRest_tail (row : RelatedEvidence) (hbest : t.best.get? target = none) :
    (t.addRest mean row).tail.get? target =
      if row.targetNoteId = target then keepBest Kept.margin (t.tail.get? target) (kept mean row)
      else t.tail.get? target := by
  unfold Tables.addRest keepBest
  by_cases h : row.targetNoteId = target
  · subst h
    rw [if_pos rfl, hbest]
    show Dict.get? (Tables.tail (if replaces _ _ = true then _ else _)) _ = if replaces _ _ = true then _ else _
    split
    · exact Dict.get?_set_self
    · rfl
  · rw [if_neg h]
    split
    · exact Dict.get?_set_ne (Ne.symm h)
    · rfl

theorem addRest_rest (t : Tables) (mean : ℚ) (row : RelatedEvidence) :
    (t.addRest mean row).best = t.best ∧ (t.addRest mean row).hits = t.hits := by
  unfold Tables.addRest
  split <;> exact ⟨rfl, rfl⟩

theorem foldl_addRest (rows : List RelatedEvidence) (mean : ℚ) (target : String) (t : Tables) : let t' := rows.foldl (Tables.addRest mean) t
    t'.best = t.best ∧ t'.hits = t.hits ∧ (t.best.get? target = none → t'.tail.get? target =
      ((rows.filter fun r => r.targetNoteId = target).map (kept mean)).foldl (keepBest Kept.margin)
        (t.tail.get? target)) := by
  dsimp only
  induction rows generalizing t with
  | nil => exact ⟨rfl, rfl, fun _ => rfl⟩
  | cons row rows ih =>
    obtain ⟨hbest, hhits, htail⟩ := ih (t.addRest mean row)
    obtain ⟨hbest', hhits'⟩ := addRest_rest t mean row
    rw [List.foldl_cons]
    refine ⟨hbest.trans hbest', hhits.trans hhits', fun hnone => ?_⟩
    rw [htail (hbest' ▸ hnone), addRest_tail row hnone]
    by_cases h : row.targetNoteId = target
    · rw [if_pos h, List.filter_cons_of_pos (by simpa using h)]
      rfl
    · rw [if_neg h, List.filter_cons_of_neg (by simpa using h)]

theorem mem_rowsOf {row : RelatedEvidence} : row ∈ rowsOf evidence source ↔ row ∈ evidence ∧ row.sourceChunkId = source := by
  rw [rowsOf, List.mem_filter, decide_eq_true_iff]

theorem mem_nearest {row : RelatedEvidence} (h : row ∈ nearest evidence source) :
    row ∈ evidence ∧ row.sourceChunkId = source := mem_rowsOf.mp (mem_ranked.mp (List.mem_of_mem_take h))

theorem mem_farther {row : RelatedEvidence} (h : row ∈ farther evidence source) :
    row ∈ evidence ∧ row.sourceChunkId = source := mem_rowsOf.mp (mem_ranked.mp (List.mem_of_mem_drop h))

theorem map_kept {l : List RelatedEvidence} (h : ∀ row ∈ l, row.sourceChunkId = source) :
    (l.filter fun r => r.targetNoteId = target).map (kept (meanOf (nearest evidence source))) =
      (l.filter fun r => r.targetNoteId = target).map (keptOf evidence) :=
  List.map_congr_left fun row hrow => by rw [keptOf, h row (List.mem_of_mem_filter hrow)]

/-- The loop, for some of the sources. -/
theorem foldl_addSource (ss : List String) (target : String) (t : Tables) : let t' := (ss.map (rowsOf evidence)).foldl Tables.addSource t
    t'.best.get? target =
        ((((ss.flatMap (nearest evidence)).filter fun r => r.targetNoteId = target).map (keptOf evidence)).foldl
          (keepBest Kept.margin) (t.best.get? target)) ∧
      (t'.hits.get? target).getD 0 = (t.hits.get? target).getD 0 +
        ((ss.flatMap (nearest evidence)).filter fun r => r.targetNoteId = target).length ∧
      (t.best.get? target = none → ((ss.flatMap (nearest evidence)).filter fun r => r.targetNoteId = target) = [] →
        t'.tail.get? target =
          (((ss.flatMap (farther evidence)).filter fun r => r.targetNoteId = target).map (keptOf evidence)).foldl
            (keepBest Kept.margin) (t.tail.get? target)) := by
  dsimp only
  induction ss generalizing t with
  | nil => exact ⟨rfl, rfl, fun _ _ => rfl⟩
  | cons source ss ih =>
    let t₁ := (nearest evidence source).foldl (Tables.addHead (meanOf (nearest evidence source))) t
    obtain ⟨hbest₁, hhits₁, htail₁⟩ := foldl_addHead (nearest evidence source)
      (meanOf (nearest evidence source)) target t
    obtain ⟨hbest₂, hhits₂, htail₂⟩ := foldl_addRest (farther evidence source)
      (meanOf (nearest evidence source)) target t₁
    have hstep : t.addSource (rowsOf evidence source) =
      (farther evidence source).foldl (Tables.addRest (meanOf (nearest evidence source))) t₁ := rfl
    obtain ⟨hbest, hhits, htail⟩ := ih (t.addSource (rowsOf evidence source))
    rw [map_kept fun row hrow => (mem_nearest hrow).2] at hbest₁
    rw [map_kept fun row hrow => (mem_farther hrow).2] at htail₂
    rw [List.map_cons, List.foldl_cons, List.flatMap_cons, List.filter_append, List.map_append, List.foldl_append,
      List.length_append]
    refine ⟨?_, ?_, ?_⟩
    · rw [hbest, hstep, hbest₂, hbest₁]
    · rw [hhits, hstep, hhits₂, hhits₁]
      omega
    · intro hnone hheads
      obtain ⟨hhere, hlater⟩ := List.append_eq_nil_iff.mp hheads
      rw [hhere] at hbest₁
      have hnone₁ : t₁.best.get? target = none := hbest₁.trans hnone
      rw [htail (by rw [hstep, hbest₂]; exact hnone₁) hlater, hstep, htail₂ hnone₁, htail₁, List.flatMap_cons,
        List.filter_append, List.map_append, List.foldl_append]

theorem tables_best : (tables evidence).best.get? target =
    (best (margin evidence) (headRows evidence target)).map (keptOf evidence) := by
  rw [tables, (foldl_addSource _ _ _).1]
  exact @foldl_keepBest_map _ _ _ _ Kept.margin (keptOf evidence) _ none

theorem tables_hits : ((tables evidence).hits.get? target).getD 0 = (headRows evidence target).length := by
  rw [tables, (foldl_addSource _ _ _).2.1]
  exact Nat.zero_add _

theorem tables_tail (h : headRows evidence target = []) : (tables evidence).tail.get? target =
    (best (margin evidence) (tailRows evidence target)).map (keptOf evidence) := by
  rw [tables, (foldl_addSource _ _ _).2.2 rfl h]
  exact @foldl_keepBest_map _ _ _ _ Kept.margin (keptOf evidence) _ none

/-! ## the entries of the list -/

theorem mem_headRows {row : RelatedEvidence} (h : row ∈ headRows evidence target) :
    row ∈ evidence ∧ row.targetNoteId = target ∧ row ∈ nearest evidence row.sourceChunkId := by
  obtain ⟨hmem, htarget⟩ := List.mem_filter.mp h
  obtain ⟨source, -, hrow⟩ := List.mem_flatMap.mp hmem
  obtain ⟨hev, rfl⟩ := mem_nearest hrow
  exact ⟨hev, of_decide_eq_true htarget, hrow⟩

theorem mem_contenders {row : RelatedEvidence} (h : row ∈ contenders evidence target) :
    row ∈ evidence ∧ row.targetNoteId = target := by
  unfold contenders at h
  split at h
  · obtain ⟨hmem, htarget⟩ := List.mem_filter.mp h
    obtain ⟨source, -, hrow⟩ := List.mem_flatMap.mp hmem
    exact ⟨(mem_farther hrow).1, of_decide_eq_true htarget⟩
  · obtain ⟨hev, htarget, -⟩ := mem_headRows h
    exact ⟨hev, htarget⟩

theorem best_eq_none {l : List RelatedEvidence} {f : RelatedEvidence → ℚ} : best f l = none ↔ l = [] := by
  constructor
  · intro h
    by_contra hne
    obtain ⟨a, -, ha, -⟩ := exists_best f hne
    rw [h] at ha
    cases ha
  · rintro rfl
    rfl

theorem best_get_eq_none : (tables evidence).best.get? target = none ↔ headRows evidence target = [] := by
  rw [tables_best, Option.map_eq_none_iff, best_eq_none]

theorem winner_mem {row : RelatedEvidence} (h : winner evidence target = some row) :
    row ∈ evidence ∧ row.targetNoteId = target := mem_contenders (best_spec h).1

variable {n : ℤ} {x : RankedNote} {row : RelatedEvidence}

theorem noteOf_noteId : (noteOf evidence n row).noteId = row.targetNoteId := by
  unfold noteOf
  split <;> rfl

theorem noteOf_sourceChunkId : (noteOf evidence n row).sourceChunkId = row.sourceChunkId := by
  unfold noteOf
  split <;> rfl

theorem mem_headNotes : x ∈ (tables evidence).headNotes n ↔ ∃ row, headRows evidence row.targetNoteId ≠ [] ∧
    winner evidence row.targetNoteId = some row ∧ x = noteOf evidence n row := by
  rw [Tables.headNotes, List.mem_map]
  constructor
  · rintro ⟨⟨target, k⟩, hentry, rfl⟩
    have hget := Dict.mem_entries_iff.mp hentry
    rw [tables_best] at hget
    obtain ⟨row, hbest, rfl⟩ := Option.map_eq_some_iff.mp hget
    have hmem := (best_spec hbest).1
    obtain ⟨-, rfl, -⟩ := mem_headRows hmem
    have hne := List.ne_nil_of_mem hmem
    refine ⟨row, hne, ?_, ?_⟩
    · rw [winner, contenders, if_neg hne, hbest]
    · rw [noteOf, if_neg hne, tables_hits]
  · rintro ⟨row, hne, hwinner, rfl⟩
    rw [winner, contenders, if_neg hne] at hwinner
    refine ⟨(row.targetNoteId, keptOf evidence row), Dict.mem_entries_iff.mpr ?_, ?_⟩
    · rw [tables_best, hwinner]
      rfl
    · rw [noteOf, if_neg hne, tables_hits]

theorem mem_tailNotes : x ∈ (tables evidence).tailNotes ↔ ∃ row, headRows evidence row.targetNoteId = [] ∧
    winner evidence row.targetNoteId = some row ∧ x = noteOf evidence n row := by
  rw [Tables.tailNotes, List.mem_map]
  constructor
  · rintro ⟨⟨target, k⟩, hentry, rfl⟩
    obtain ⟨hentry, hnone⟩ := List.mem_filter.mp hentry
    have hheads := best_get_eq_none.mp (Option.isNone_iff_eq_none.mp hnone)
    have hget := Dict.mem_entries_iff.mp hentry
    rw [tables_tail hheads] at hget
    obtain ⟨row, hbest, rfl⟩ := Option.map_eq_some_iff.mp hget
    have hwinner : winner evidence target = some row := by rw [winner, contenders, if_pos hheads, hbest]
    obtain ⟨-, rfl⟩ := winner_mem hwinner
    exact ⟨row, hheads, hwinner, by rw [noteOf, if_pos hheads]⟩
  · rintro ⟨row, hheads, hwinner, rfl⟩
    refine ⟨(row.targetNoteId, keptOf evidence row), List.mem_filter.mpr ⟨Dict.mem_entries_iff.mpr ?_, ?_⟩, ?_⟩
    · rw [winner, contenders, if_pos hheads] at hwinner
      rw [tables_tail hheads, hwinner]
      rfl
    · exact Option.isNone_iff_eq_none.mpr (best_get_eq_none.mpr hheads)
    · rw [noteOf, if_pos hheads]

/-- The entries are the notes of the winners. -/
theorem mem_rankRelated (hn : 0 < n) : x ∈ rankRelated evidence n ↔
    ∃ row, winner evidence row.targetNoteId = some row ∧ x = noteOf evidence n row := by
  unfold rankRelated
  split
  · rename_i h
    obtain rfl := h.resolve_right (not_le.mpr hn)
    refine ⟨fun hx => (nomatch hx), ?_⟩
    rintro ⟨row, hwinner, -⟩
    exact absurd (winner_mem hwinner).1 List.not_mem_nil
  · rw [List.mem_append, mem_ranked, mem_ranked, mem_headNotes, mem_tailNotes (n := n)]
    constructor
    · rintro (⟨row, -, h⟩ | ⟨row, -, h⟩)
      · exact ⟨row, h⟩
      · exact ⟨row, h⟩
    · rintro ⟨row, h⟩
      by_cases hheads : headRows evidence row.targetNoteId = []
      · exact .inr ⟨row, hheads, h⟩
      · exact .inl ⟨row, hheads, h⟩

theorem mem_sources : source ∈ sources evidence ↔ ∃ row ∈ evidence, row.sourceChunkId = source := by
  rw [sources, mem_insertionOrder, List.mem_map]

theorem exists_winner (hrow : row ∈ evidence) : ∃ w, winner evidence row.targetNoteId = some w := by
  have hsource : row.sourceChunkId ∈ sources evidence := mem_sources.mpr ⟨row, hrow, rfl⟩
  have hsorted : row ∈ nearestFirst (rowsOf evidence row.sourceChunkId) := mem_ranked.mpr (mem_rowsOf.mpr ⟨hrow, rfl⟩)
  have hne : contenders evidence row.targetNoteId ≠ [] := by
    unfold contenders
    split
    · rename_i hheads
      rw [← List.take_append_drop headSize (nearestFirst (rowsOf evidence row.sourceChunkId)), List.mem_append] at hsorted
      rcases hsorted with hnear | hfar
      · have hmem : row ∈ headRows evidence row.targetNoteId :=
          List.mem_filter.mpr ⟨List.mem_flatMap.mpr ⟨_, hsource, hnear⟩, decide_eq_true rfl⟩
        rw [hheads] at hmem
        cases hmem
      · exact List.ne_nil_of_mem
          (List.mem_filter.mpr ⟨List.mem_flatMap.mpr ⟨_, hsource, hfar⟩, decide_eq_true rfl⟩)
    · assumption
  obtain ⟨w, -, hw, -⟩ := exists_best (margin evidence) hne
  exact ⟨w, hw⟩

/-! ## each target once -/

theorem headNotes_nodup : (((tables evidence).headNotes n).map (·.noteId)).Nodup := by
  rw [Tables.headNotes, List.map_map]
  exact (tables evidence).best.nodup

theorem tailNotes_nodup : ((tables evidence).tailNotes.map (·.noteId)).Nodup := by
  rw [Tables.tailNotes, List.map_map]
  exact (tables evidence).tail.nodup.sublist (List.filter_sublist.map _)

theorem rankRelated_nodup : ((rankRelated evidence n).map (·.noteId)).Nodup := by
  unfold rankRelated
  split
  · exact List.nodup_nil
  · rw [List.map_append, List.nodup_append]
    refine ⟨((ranked_perm order _).map _).nodup_iff.mpr headNotes_nodup,
      ((ranked_perm order _).map _).nodup_iff.mpr tailNotes_nodup, ?_⟩
    intro a ha b hb hab
    obtain ⟨x, hx, rfl⟩ := List.mem_map.mp ha
    obtain ⟨y, hy, rfl⟩ := List.mem_map.mp hb
    obtain ⟨row, hheads, -, rfl⟩ := mem_headNotes.mp (mem_ranked.mp hx)
    obtain ⟨row', hheads', -, rfl⟩ := (mem_tailNotes (n := n)).mp (mem_ranked.mp hy)
    rw [noteOf_noteId, noteOf_noteId] at hab
    rw [hab] at hheads
    exact hheads hheads'

theorem rankRelated_targets (hn : 0 < n) :
    ((rankRelated evidence n).map (·.noteId)).Perm (evidence.map (·.targetNoteId)).dedup := by
  refine (List.perm_ext_iff_of_nodup rankRelated_nodup (List.nodup_dedup _)).mpr fun target => ?_
  rw [List.mem_dedup, List.mem_map, List.mem_map]
  constructor
  · rintro ⟨x, hx, rfl⟩
    obtain ⟨row, hwinner, rfl⟩ := (mem_rankRelated hn).mp hx
    exact ⟨row, (winner_mem hwinner).1, noteOf_noteId.symm⟩
  · rintro ⟨row, hrow, rfl⟩
    obtain ⟨w, hw⟩ := exists_winner hrow
    have htarget := (winner_mem hw).2
    rw [← htarget] at hw
    exact ⟨noteOf evidence n w, (mem_rankRelated hn).mpr ⟨w, hw, rfl⟩, noteOf_noteId.trans htarget⟩

/-! ## the order of the rows -/

/-- One of the ten nearest of its source. -/
def Near (evidence : List RelatedEvidence) (row : RelatedEvidence) : Prop := row ∈ nearest evidence row.sourceChunkId

/-- A near row, or any row when none of the target is near. -/
def Contends (evidence : List RelatedEvidence) (row : RelatedEvidence) : Prop :=
  row ∈ evidence ∧ (Near evidence row ∨ ∀ r ∈ evidence, r.targetNoteId = row.targetNoteId → ¬ Near evidence r)

/-- Of the largest margin. -/
def Wins (evidence : List RelatedEvidence) (row : RelatedEvidence) : Prop :=
  Contends evidence row ∧ ∀ r, Contends evidence r → r.targetNoteId = row.targetNoteId →
    margin evidence r ≤ margin evidence row

def NoTies (evidence : List RelatedEvidence) : Prop :=
  ∀ a b, Wins evidence a → Wins evidence b → a.targetNoteId = b.targetNoteId → a = b

/-- The rows of the query: one for each chunk and target. -/
structure Evidence where
  rows : List RelatedEvidence
  once : Keyed (fun r : RelatedEvidence => (r.sourceChunkId, r.targetNoteId)) rows

theorem mem_headRows_iff : row ∈ headRows evidence target ↔
    row ∈ evidence ∧ row.targetNoteId = target ∧ Near evidence row := by
  refine ⟨mem_headRows, ?_⟩
  rintro ⟨hrow, htarget, hnear⟩
  exact List.mem_filter.mpr ⟨List.mem_flatMap.mpr ⟨_, mem_sources.mpr ⟨row, hrow, rfl⟩, hnear⟩,
    decide_eq_true htarget⟩

theorem near_or_farther (hrow : row ∈ evidence) : Near evidence row ∨ row ∈ farther evidence row.sourceChunkId := by
  have hsorted : row ∈ nearestFirst (rowsOf evidence row.sourceChunkId) := mem_ranked.mpr (mem_rowsOf.mpr ⟨hrow, rfl⟩)
  rwa [← List.take_append_drop headSize (nearestFirst (rowsOf evidence row.sourceChunkId)), List.mem_append] at hsorted

theorem mem_contenders_iff : row ∈ contenders evidence target ↔ Contends evidence row ∧ row.targetNoteId = target := by
  constructor
  · intro h
    obtain ⟨hrow, htarget⟩ := mem_contenders h
    refine ⟨⟨hrow, ?_⟩, htarget⟩
    unfold contenders at h
    split at h
    · rename_i hheads
      refine .inr fun r hr hsame hnear => ?_
      have hmem := mem_headRows_iff.mpr ⟨hr, hsame.trans htarget, hnear⟩
      rw [hheads] at hmem
      cases hmem
    · exact .inl (mem_headRows_iff.mp h).2.2
  · rintro ⟨⟨hrow, hcontends⟩, rfl⟩
    unfold contenders
    split
    · rename_i hheads
      have hfar : ¬ Near evidence row := fun hnear => by
        have hmem := mem_headRows_iff.mpr ⟨hrow, rfl, hnear⟩
        rw [hheads] at hmem
        cases hmem
      exact List.mem_filter.mpr ⟨List.mem_flatMap.mpr ⟨_, mem_sources.mpr ⟨row, hrow, rfl⟩,
        (near_or_farther hrow).resolve_left hfar⟩, decide_eq_true rfl⟩
    · rename_i hheads
      obtain ⟨r, hr⟩ := List.exists_mem_of_ne_nil _ hheads
      obtain ⟨hrmem, hrtarget, hrnear⟩ := mem_headRows_iff.mp hr
      exact mem_headRows_iff.mpr ⟨hrow, rfl, hcontends.resolve_right fun hnone => hnone r hrmem hrtarget hrnear⟩

theorem nil_iff_of_perm {α : Type} {l l' : List α} (h : l'.Perm l) : l' = [] ↔ l = [] :=
  ⟨fun hnil => List.Perm.eq_nil (hnil ▸ h.symm), fun hnil => List.Perm.eq_nil (hnil ▸ h)⟩

section
variable {ev ev' : Evidence} (h : ev'.rows.Perm ev.rows)
include h

theorem nearestFirst_perm (source : String) :
    nearestFirst (rowsOf ev'.rows source) = nearestFirst (rowsOf ev.rows source) := by
  refine ranked_eq_ranked (h.filter _) fun a ha b hb hab => ?_
  obtain ⟨ha, hsource⟩ := mem_rowsOf.mp ha
  obtain ⟨hb, hsource'⟩ := mem_rowsOf.mp hb
  exact ev'.once.eq ha hb (Prod.ext (hsource.trans hsource'.symm) (Prod.mk.inj hab).2)

theorem nearest_perm : nearest ev'.rows = nearest ev.rows :=
  funext fun source => congrArg (List.take headSize) (nearestFirst_perm h source)

theorem farther_perm : farther ev'.rows = farther ev.rows :=
  funext fun source => congrArg (List.drop headSize) (nearestFirst_perm h source)

theorem margin_perm : margin ev'.rows = margin ev.rows := by
  funext row
  rw [margin, margin, nearest_perm h]

theorem sources_perm : (sources ev'.rows).Perm (sources ev.rows) := by
  refine (List.perm_ext_iff_of_nodup (insertionOrder_nodup _) (insertionOrder_nodup _)).mpr fun source => ?_
  show source ∈ sources _ ↔ source ∈ sources _
  rw [mem_sources, mem_sources]
  exact exists_congr fun row => and_congr_left fun _ => h.mem_iff

theorem headRows_perm (target : String) : (headRows ev'.rows target).Perm (headRows ev.rows target) := by
  rw [headRows, nearest_perm h]
  exact ((sources_perm h).flatMap_right _).filter _

theorem tailRows_perm (target : String) : (tailRows ev'.rows target).Perm (tailRows ev.rows target) := by
  rw [tailRows, farther_perm h]
  exact ((sources_perm h).flatMap_right _).filter _

theorem contenders_perm (target : String) : (contenders ev'.rows target).Perm (contenders ev.rows target) := by
  have hheads := headRows_perm h target
  unfold contenders
  by_cases hnil : headRows ev.rows target = []
  · rw [if_pos hnil, if_pos ((nil_iff_of_perm hheads).mpr hnil)]
    exact tailRows_perm h target
  · rw [if_neg hnil, if_neg (mt (nil_iff_of_perm hheads).mp hnil)]
    exact hheads

theorem noteOf_perm {n : ℤ} {row : RelatedEvidence} : noteOf ev'.rows n row = noteOf ev.rows n row := by
  have hheads := headRows_perm h row.targetNoteId
  have hkept : keptOf ev'.rows row = keptOf ev.rows row := by rw [keptOf, keptOf, nearest_perm h]
  unfold noteOf
  rw [hheads.length_eq, hkept]
  by_cases hnil : headRows ev.rows row.targetNoteId = []
  · rw [if_pos hnil, if_pos ((nil_iff_of_perm hheads).mpr hnil)]
  · rw [if_neg hnil, if_neg (mt (nil_iff_of_perm hheads).mp hnil)]

/-- Without ties the winners are the same. -/
theorem winner_perm (hties : NoTies ev.rows) (target : String) : winner ev'.rows target = winner ev.rows target := by
  rw [winner, winner, margin_perm h]
  have hperm := contenders_perm h target
  refine best_eq_best hperm fun a ha b hb hamax hbmax => ?_
  obtain ⟨hacont, hatarget⟩ := mem_contenders_iff.mp (hperm.mem_iff.mp ha)
  obtain ⟨hbcont, hbtarget⟩ := mem_contenders_iff.mp (hperm.mem_iff.mp hb)
  refine hties a b ⟨hacont, fun r hr hsame => ?_⟩ ⟨hbcont, fun r hr hsame => ?_⟩ (hatarget.trans hbtarget.symm)
  · exact hamax r (hperm.mem_iff.mpr (mem_contenders_iff.mpr ⟨hr, hsame.trans hatarget⟩))
  · exact hbmax r (hperm.mem_iff.mpr (mem_contenders_iff.mpr ⟨hr, hsame.trans hbtarget⟩))

theorem headNotes_perm (hties : NoTies ev.rows) :
    ((tables ev'.rows).headNotes n).Perm ((tables ev.rows).headNotes n) := by
  refine (List.perm_ext_iff_of_nodup headNotes_nodup.of_map headNotes_nodup.of_map).mpr fun x => ?_
  rw [mem_headNotes, mem_headNotes]
  refine exists_congr fun row => ?_
  rw [winner_perm h hties, noteOf_perm h, Ne, nil_iff_of_perm (headRows_perm h row.targetNoteId)]

theorem tailNotes_perm (hties : NoTies ev.rows) : (tables ev'.rows).tailNotes.Perm (tables ev.rows).tailNotes := by
  refine (List.perm_ext_iff_of_nodup tailNotes_nodup.of_map tailNotes_nodup.of_map).mpr fun x => ?_
  rw [mem_tailNotes (n := 0), mem_tailNotes (n := 0)]
  refine exists_congr fun row => ?_
  rw [winner_perm h hties, noteOf_perm h, nil_iff_of_perm (headRows_perm h row.targetNoteId)]

/-- Without ties the list is the same. -/
theorem rankRelated_perm (hties : NoTies ev.rows) : rankRelated ev'.rows n = rankRelated ev.rows n := by
  have hempty : ev'.rows = [] ↔ ev.rows = [] := nil_iff_of_perm h
  have hid : ∀ {l : List RankedNote}, (l.map (·.noteId)).Nodup → ∀ a ∈ l, ∀ b ∈ l, order a = order b → a = b :=
    fun hnodup a ha b hb hab => List.inj_on_of_nodup_map hnodup ha hb (Prod.mk.inj hab).2
  unfold rankRelated
  by_cases hnone : ev.rows = [] ∨ n ≤ 0
  · rw [if_pos hnone, if_pos (hnone.imp_left hempty.mpr)]
  · rw [if_neg hnone, if_neg (mt (Or.imp_left hempty.mp) hnone),
      ranked_eq_ranked (headNotes_perm h hties) (hid headNotes_nodup),
      ranked_eq_ranked (tailNotes_perm h hties) (hid tailNotes_nodup)]

end

/-! ## ties -/

theorem filter_eq_singleton {l : List RelatedEvidence} {p : RelatedEvidence → Bool} {a : RelatedEvidence}
    (hl : l.Nodup) (ha : a ∈ l) (hp : p a = true) (hone : ∀ b ∈ l, p b = true → b = a) : l.filter p = [a] := by
  refine List.perm_singleton.mp ((List.perm_ext_iff_of_nodup (hl.filter p) (List.nodup_singleton a)).mpr fun b => ?_)
  rw [List.mem_filter, List.mem_singleton]
  constructor
  · rintro ⟨hb, hpb⟩
    exact hone b hb hpb
  · rintro rfl
    exact ⟨ha, hp⟩

theorem Evidence.nodup (ev : Evidence) : ev.rows.Nodup := (keyed_iff_nodup.mp ev.once).of_map

theorem nearestFirst_nodup (ev : Evidence) (source : String) : (nearestFirst (rowsOf ev.rows source)).Nodup :=
  (ranked_perm _ _).nodup_iff.mpr (ev.nodup.filter _)

/-- The rows of a target among some of the rows of its source. -/
theorem filter_target {ev : Evidence} {l : List RelatedEvidence}
    (hl : l.Sublist (nearestFirst (rowsOf ev.rows row.sourceChunkId))) (hrow : row ∈ l) :
    (l.filter fun r => r.targetNoteId = row.targetNoteId) = [row] := by
  have hmem : ∀ b ∈ l, b ∈ ev.rows ∧ b.sourceChunkId = row.sourceChunkId := fun b hb =>
    mem_rowsOf.mp (mem_ranked.mp (hl.subset hb))
  refine filter_eq_singleton ((nearestFirst_nodup ev _).sublist hl) hrow (decide_eq_true rfl) fun b hb htarget => ?_
  exact ev.once.eq (hmem b hb).1 (hmem row hrow).1 (Prod.ext (hmem b hb).2 (of_decide_eq_true htarget))

/-- The rows of the first source are compared first. -/
theorem contenders_cons {ev : Evidence} {rest : List RelatedEvidence} (hfirst : ev.rows = row :: rest)
    (hrow : Contends ev.rows row) : ∃ later, contenders ev.rows row.targetNoteId = row :: later := by
  obtain ⟨ss, hss⟩ := insertionOrder_cons row.sourceChunkId (rest.map (·.sourceChunkId))
  have hsources : sources ev.rows = row.sourceChunkId :: ss := by rw [sources, hfirst, ← hss]; rfl
  unfold contenders
  split
  · rename_i hheads
    have hfar : row ∈ farther ev.rows row.sourceChunkId := (near_or_farther hrow.1).resolve_left fun hnear => by
      have hmem := mem_headRows_iff.mpr ⟨hrow.1, rfl, hnear⟩
      rw [hheads] at hmem
      cases hmem
    have hone : (farther ev.rows row.sourceChunkId).filter (fun r => r.targetNoteId = row.targetNoteId) = [row] :=
      filter_target (List.drop_sublist headSize _) hfar
    rw [tailRows, hsources, List.flatMap_cons, List.filter_append, hone]
    exact ⟨_, rfl⟩
  · rename_i hheads
    obtain ⟨r, hr⟩ := List.exists_mem_of_ne_nil _ hheads
    obtain ⟨hrmem, hrtarget, hrnear⟩ := mem_headRows_iff.mp hr
    have hnear : Near ev.rows row := hrow.2.resolve_right fun hnone => hnone r hrmem hrtarget hrnear
    have hone : (nearest ev.rows row.sourceChunkId).filter (fun r => r.targetNoteId = row.targetNoteId) = [row] :=
      filter_target (List.take_sublist headSize _) hnear
    rw [headRows, hsources, List.flatMap_cons, List.filter_append, hone]
    exact ⟨_, rfl⟩

/-- The evidence with one of its rows in front. -/
def Evidence.front (ev : Evidence) (row : RelatedEvidence) (h : row ∈ ev.rows) : Evidence where
  rows := row :: ev.rows.erase row
  once := keyed_iff_nodup.mpr (((List.perm_cons_erase h).map _).nodup_iff.mp (keyed_iff_nodup.mp ev.once))

theorem front_perm {ev : Evidence} (hrow : row ∈ ev.rows) : (ev.front row hrow).rows.Perm ev.rows :=
  (List.perm_cons_erase hrow).symm

theorem winner_front {ev : Evidence} (hwins : Wins ev.rows row) :
    winner (ev.front row hwins.1.1).rows row.targetNoteId = some row := by
  have hperm := front_perm hwins.1.1
  have hcontends : ∀ r, Contends (ev.front row hwins.1.1).rows r ↔ Contends ev.rows r := fun r => by
    have hc := (contenders_perm hperm r.targetNoteId).mem_iff (a := r)
    rwa [mem_contenders_iff, mem_contenders_iff, and_iff_left rfl, and_iff_left rfl] at hc
  obtain ⟨later, hlater⟩ := contenders_cons rfl ((hcontends row).mpr hwins.1)
  rw [winner, hlater, margin_perm hperm]
  refine best_cons fun b hb => ?_
  obtain ⟨hb, htarget⟩ := mem_contenders_iff.mp (hlater ▸ List.mem_cons_of_mem row hb)
  exact hwins.2 b ((hcontends b).mp hb) htarget

/-- What the ranking of some evidence should be like. -/
structure Ranking (ev : Evidence) (n : ℤ) : Prop where
  anyOrder : ∀ ev' : Evidence, ev'.rows.Perm ev.rows → rankRelated ev'.rows n = rankRelated ev.rows n
  once : ((rankRelated ev.rows n).map (·.noteId)).Perm (ev.rows.map (·.targetNoteId)).dedup
  headsFirst : ∃ heads others, rankRelated ev.rows n = heads ++ others ∧
    (∀ x ∈ heads, ∃ row ∈ ev.rows, row.targetNoteId = x.noteId ∧ Near ev.rows row) ∧
    (∀ x ∈ others, ∀ row ∈ ev.rows, row.targetNoteId = x.noteId → ¬ Near ev.rows row) ∧
    heads.Pairwise (fun x y => x.score > y.score ∨ x.score = y.score ∧ x.noteId ≤ y.noteId) ∧
    others.Pairwise (fun x y => x.score > y.score ∨ x.score = y.score ∧ x.noteId ≤ y.noteId)

theorem ranked_order (l : List RankedNote) : (ranked order l).Pairwise fun x y =>
    x.score > y.score ∨ x.score = y.score ∧ x.noteId ≤ y.noteId := by
  refine (ranked_pairwise order l).imp fun {x y} hle => ?_
  rcases Prod.Lex.toLex_le_toLex.mp hle with hlt | ⟨heq, hid⟩
  · exact .inl (neg_lt_neg_iff.mp hlt)
  · exact .inr ⟨neg_inj.mp heq, hid⟩

theorem headsFirst (ev : Evidence) (n : ℤ) : ∃ heads others, rankRelated ev.rows n = heads ++ others ∧
    (∀ x ∈ heads, ∃ row ∈ ev.rows, row.targetNoteId = x.noteId ∧ Near ev.rows row) ∧
    (∀ x ∈ others, ∀ row ∈ ev.rows, row.targetNoteId = x.noteId → ¬ Near ev.rows row) ∧
    heads.Pairwise (fun x y => x.score > y.score ∨ x.score = y.score ∧ x.noteId ≤ y.noteId) ∧
    others.Pairwise (fun x y => x.score > y.score ∨ x.score = y.score ∧ x.noteId ≤ y.noteId) := by
  unfold rankRelated
  split
  · exact ⟨[], [], rfl, fun _ hx => (nomatch hx), fun _ hx => (nomatch hx), .nil, .nil⟩
  · refine ⟨_, _, rfl, fun x hx => ?_, fun x hx r hr hsame hnear => ?_, ranked_order _, ranked_order _⟩
    · obtain ⟨row, hheads, -, rfl⟩ := mem_headNotes.mp (mem_ranked.mp hx)
      obtain ⟨r, hr⟩ := List.exists_mem_of_ne_nil _ hheads
      obtain ⟨hrmem, hrtarget, hrnear⟩ := mem_headRows_iff.mp hr
      exact ⟨r, hrmem, hrtarget.trans noteOf_noteId.symm, hrnear⟩
    · obtain ⟨row, hheads, -, rfl⟩ := (mem_tailNotes (n := n)).mp (mem_ranked.mp hx)
      have hmem := mem_headRows_iff.mpr ⟨hr, hsame.trans noteOf_noteId, hnear⟩
      rw [hheads] at hmem
      cases hmem

/-- Each of two winners is shown when its row comes first. -/
theorem noTies_of_anyOrder {ev : Evidence} (hn : 0 < n)
    (h : ∀ ev' : Evidence, ev'.rows.Perm ev.rows → rankRelated ev'.rows n = rankRelated ev.rows n) :
    NoTies ev.rows := by
  intro a b ha hb htarget
  have hshown : noteOf (ev.front a ha.1.1).rows n a ∈ rankRelated (ev.front b hb.1.1).rows n := by
    rw [h _ (front_perm hb.1.1), ← h _ (front_perm ha.1.1)]
    exact (mem_rankRelated hn).mpr ⟨a, winner_front ha, rfl⟩
  obtain ⟨row, hrow, hnote⟩ := (mem_rankRelated hn).mp hshown
  have hrowtarget : a.targetNoteId = row.targetNoteId := by
    have hids := congrArg RankedNote.noteId hnote
    rwa [noteOf_noteId, noteOf_noteId] at hids
  rw [← hrowtarget, htarget, winner_front hb] at hrow
  cases hrow
  refine ev.once.eq ha.1.1 hb.1.1 (Prod.ext ?_ htarget)
  have hsources := congrArg RankedNote.sourceChunkId hnote
  rwa [noteOf_sourceChunkId, noteOf_sourceChunkId] at hsources

/-- **The ranking does not depend on the order of the rows** exactly when no two rows of a target tie. -/
theorem rankRelated_iff {ev : Evidence} (hn : 0 < n) : Ranking ev n ↔ NoTies ev.rows := by
  constructor
  · intro h
    exact noTies_of_anyOrder hn h.anyOrder
  · intro hties
    exact ⟨fun ev' hperm => rankRelated_perm hperm hties, rankRelated_targets hn, headsFirst ev n⟩

/-- Two chunks of the note, each as far from "t" as from the other target. -/
def tiedRows : List RelatedEvidence :=
  [⟨"s1", "t", "c1", 1⟩, ⟨"s1", "u", "c2", 1⟩, ⟨"s2", "t", "c3", 1⟩, ⟨"s2", "v", "c4", 1⟩]

/-- The row that comes first is shown. -/
theorem rankRelated_tied : Keyed (fun r : RelatedEvidence => (r.sourceChunkId, r.targetNoteId)) tiedRows ∧
    tiedRows.reverse.Perm tiedRows ∧
    ((rankRelated tiedRows 2).map fun x => (x.noteId, x.bestChunkId)) = [("t", "c1"), ("u", "c2"), ("v", "c4")] ∧
    ((rankRelated tiedRows.reverse 2).map fun x => (x.noteId, x.bestChunkId)) =
      [("t", "c3"), ("u", "c2"), ("v", "c4")] := by
  refine ⟨keyed_iff_nodup.mpr (by decide +kernel), List.reverse_perm _, by decide +kernel, by decide +kernel⟩

/-- Two targets of one chunk do not tie. -/
theorem rankRelated_iff_single : ∃ ev : Evidence, ev.rows = [⟨"s1", "u", "c2", 1⟩, ⟨"s1", "t", "c1", 1⟩] ∧
    ((rankRelated ev.rows 1).map (·.noteId)) = ["t", "u"] ∧ Ranking ev 1 := by
  refine ⟨⟨[⟨"s1", "u", "c2", 1⟩, ⟨"s1", "t", "c1", 1⟩], keyed_iff_nodup.mpr (by decide +kernel)⟩, rfl,
    by decide +kernel, (rankRelated_iff (by decide)).mpr fun a b ha hb htarget => ?_⟩
  rcases List.mem_pair.mp ha.1.1 with rfl | rfl <;> rcases List.mem_pair.mp hb.1.1 with rfl | rfl <;>
    first | rfl | exact absurd htarget (by decide)

end Kajet.Related
