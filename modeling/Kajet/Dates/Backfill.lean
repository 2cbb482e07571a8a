import Kajet.Collections.Keys
import Kajet.Collections.Member
import Kajet.Dates.Frame
import Kajet.History.Walk

/-!
# Dates from titles

A preview finds the notes without dates whose title has one; an apply checks the candidates again, against
the rows, the titles and the heads of the files, and writes the dates.

* `temporalTokens`, `folderConflictsWithPeriod`, `classifyTemporalNote`   the date of a title;
* `preview`, `applyBackfill`
* `Filled`          only gaps were filled, with the dates of the titles, and nothing else is changed;
* `prepare_spec`    what is checked of a candidate;
* `backfill_iff`    the dates that the files have by hand are not among it.
-/

namespace Kajet.Dates
open Str Table Links Frontmatter Reindex Fallible
open Collections (Language Period monthOfWeek)

/-! ## the date of a title -/

/-- `[0-9A-Za-z-]` -/
def wordish (c : Char) : Bool := c.isDigit || c.isAlpha || c = '-'

section
variable (L : Language)

def atoms (shape : String) : List (Char → Bool) :=
  shape.toList.map fun c => if c = '0' then L.isDecimal else (· = c)

/-- A token at the front of a text: the first of the four shapes that fits and that no word goes on after. -/
def tokenAt (s : Text) : Option Text :=
  ["0000-00-00", "0000-W00", "0000-00", "0000"].findSome? fun shape =>
    if Pattern.fitsAtoms (atoms L shape) s && !(s.drop shape.toList.length).head?.any wordish
    then some (s.take shape.toList.length) else none

/-- The tokens after `skip` characters; `prev` is the character in front. -/
def scanTokens : (skip : ℕ) → (prev : Option Char) → Text → List Text
  | _, _, [] => []
  | skip + 1, _, c :: s => scanTokens skip (some c) s
  | 0, prev, c :: s =>
    match if prev.any wordish then none else tokenAt L (c :: s) with
    | some token => token :: scanTokens (token.length - 1) (some c) s
    | none => scanTokens 0 (some c) s

/-- `_TEMPORAL_TOKEN.findall` -/
def temporalTokens (title : Text) : List Text := scanTokens L 0 none title

/-- The components of a folder that are decimal numbers of some length. -/
def folderNumbers (length : ℕ) (folder : Text) : List Text :=
  (split '/' folder).filter fun part => part.length = length && part.all L.isDecimal

/-- `_folder_conflicts_with_period` -/
def folderConflictsWithPeriod (folder : Text) (period : Period) : Bool :=
  let years := folderNumbers L 4 folder
  if years ≠ [] ∧ period.key.take 4 ∉ years then true
  else if period.kind = .year then false
  else
    let months := folderNumbers L 2 folder
    if months = [] then false
    else
      let monthKey := if period.kind = .week then (monthOfWeek period).elim [] (·.key) else period.key
      (monthKey.drop 5).take 2 ∉ months

/-- What a preview says about a note; a candidate has no sha yet. -/
inductive Classified where
  | candidate (noteId : String) (title folder : Text) (field : Field) (value : Text)
  | ambiguous (noteId : String) (title folder : Text) (reason : String)
  | skipped (noteId : String) (reason : String)
deriving DecidableEq

def classifyTemporalNote (n : Note) : Classified :=
  if n.occurredAt.isSome || n.period.isSome then .skipped n.noteId "already has temporal metadata"
  else match temporalTokens L n.title with
  | [] => .skipped n.noteId "title has no canonical temporal value"
  | [token] =>
    match Collections.parsePeriodKey token with
    | none => .skipped n.noteId "title temporal value is invalid"
    | some period =>
      if folderConflictsWithPeriod L n.folder period then
        .ambiguous n.noteId n.title n.folder "folder date conflicts with title"
      else if period.kind = .year ∧ strip n.title ≠ token ∧ period.key ∉ folderNumbers L 4 n.folder then
        .ambiguous n.noteId n.title n.folder "bare year in title has no corroborating folder date"
      else .candidate n.noteId n.title n.folder (if period.kind = .day then .occurredAt else .period) period.key
  | _ => .ambiguous n.noteId n.title n.folder "title contains multiple temporal values"

end

example : (["2026-01-05 log", "Week 2026-W02.", "v2026-01", "2026-01-052026", "a 2026, b 2027"].map fun title =>
    (temporalTokens Collections.plainLanguage title.toList).map String.ofList) =
    [["2026-01-05"], ["2026-W02"], [], [], ["2026", "2027"]] := by decide +kernel

/-- The services with the tokens and the folders of the calendar. -/
def calendar (L : Language) (v : Services) : Services :=
  { v with
    temporalTokens := temporalTokens L
    folderConflicts := fun folder key => (Collections.parsePeriodKey key).any (folderConflictsWithPeriod L folder) }

/-! ## the preview and the apply -/

/-- A candidate of a preview. -/
structure Item where
  noteId : String
  title : Text
  folder : Text
  field : Field
  value : Text
  sha : Option Text
deriving DecidableEq

def Item.dates (item : Item) : Option Text × Option Text :=
  if item.field = .occurredAt then (some item.value, none) else (none, some item.value)

/-- A state with the other keys of the frontmatters. -/
structure Vault extends State where
  extras : Text → List (Yaml × Yaml)

structure Preview where
  candidates : List Item
  ambiguous : List Classified
  skipped : List Classified

section
variable (L : Language) (v : Services) (walk : List History.Bytes → Option (List History.WalkEntry)) (s : Vault)

/-- `head_shas.get(relative)` of one walk for some paths -/
def headSha (paths : List Text) (relative : Text) : Option Text :=
  ((History.headShasForPaths walk paths).find? fun head => head.1 = relative).bind (·.2)

/-- `temporal_backfill_preview` -/
def preview : Preview :=
  let rows := (v.indexed s.notes).insertionSort fun a b => b.updatedAt ≤ a.updatedAt
  let pending := rows.filter fun n => match classifyTemporalNote L n with
    | .candidate .. => true
    | _ => false
  let classified := rows.map (classifyTemporalNote L)
  { candidates := pending.filterMap fun n => match classifyTemporalNote L n with
      | .candidate noteId title folder field value =>
        some ⟨noteId, title, folder, field, value, headSha walk (pending.map pathOf) (pathOf n)⟩
      | _ => none
    ambiguous := classified.filter fun c => match c with
      | .ambiguous .. => true
      | _ => false
    skipped := classified.filter fun c => match c with
      | .skipped .. => true
      | _ => false }

/-- `sha_is_fresh` -/
def shaIsFresh (current : Option Text) (expected : Text) : Bool :=
  strip expected ≠ [] && current.any fun sha => (strip expected).isPrefixOf sha

/-- The ids that `locate_many` asks for. -/
def strippedIds (noteIds : List String) : List String :=
  (noteIds.map fun noteId => String.ofList (strip noteId.toList)).filter (· ≠ "")

/-- The files that `locate_many` looks up. -/
def locatedPaths (items : List Item) : List Text :=
  ((v.getMany s.toState (strippedIds (items.map (·.noteId)))).filter fun n => fileExists s.toState n).map pathOf

/-- The file is as it was previewed; a file without a commit has no sha. -/
def fresh (items : List Item) (item : Item) : Bool :=
  match v.get s.toState item.noteId with
  | .error _ => false
  | .ok note =>
    let head := headSha walk (locatedPaths v s items) (pathOf note)
    match item.sha with
    | none => head = none
    | some sha => shaIsFresh head sha

/-- One candidate; an id that is not stripped is not among the located ones. -/
def prepareItem (items : List Item) (item : Item) : Except Refusal Prepared := do
  let _ ← refuse (String.ofList (strip item.noteId.toList) ≠ item.noteId) (.stale item.noteId)
  (calendar L v).prepareBackfill s.toState
    ⟨item.noteId, item.title, item.folder, item.field, item.value, fresh v walk s items item⟩

def prepareItems (items : List Item) : Except Refusal (List Prepared) := do
  let _ ← refuse (items = []) .rejected
  let _ ← refuse (items.any fun item => item.noteId = "") .rejected
  let _ ← refuse (¬ (items.map (·.noteId)).Nodup) .rejected
  items.mapM (prepareItem L v walk s items)

/-- `write_note_file` writes the other keys that it has read. -/
def writeExtras (ps : List Prepared) : Text → List (Yaml × Yaml) :=
  ps.foldl (fun extras p => Function.update extras (pathOf p.row) (s.extras (pathOf p.note))) s.extras

/-- `apply_temporal_backfill`: the vault after it, and the number of notes. -/
def applyBackfill (items : List Item) : Vault × Except Refusal ℕ :=
  match prepareItems L v walk s items with
  | .error e => (s, .error e)
  | .ok ps => ({ toState := writeAll s.toState ps, extras := writeExtras s ps }, .ok ps.length)

/-! ## gaps -/

/-- The file of the note has a date or a period that parses. -/
def HasDates (n : Note) : Prop :=
  ∃ m content, s.files.read (pathOf n) = some (.post m content) ∧
    ¬ ((parseFrontmatter m).temporal.occurredAt = none ∧ (parseFrontmatter m).temporal.period = none)

/-- The note had no dates, and has those of its title; the rest of its row and its file is the same. -/
structure FillsGap (s' : Vault) (item : Item) (n : Note) : Prop where
  own : n ∈ s.notes.rows ∧ n.noteId = item.noteId ∧ n.workspace = v.workspace ∧ n.ownerId = v.ownerId
  free : n.occurredAt = none ∧ n.period = none ∧ ¬ HasDates s n
  derived : classifyTemporalNote L n = .candidate item.noteId item.title item.folder item.field item.value
  row : { n with occurredAt := item.dates.1, period := item.dates.2 } ∈ s'.notes.rows
  file : ∃ m m' content temporal, s.files.read (pathOf n) = some (.post m content) ∧
    s'.files.read (pathOf n) = some (.post m' content) ∧
    parseFrontmatter m' = { parseFrontmatter m with temporal } ∧ (temporal.occurredAt, temporal.period) = item.dates

structure Filled (items : List Item) (s' : Vault) : Prop where
  notes : ∀ item ∈ items, ∃ n, FillsGap L v s s' item n
  rows : ∀ n ∈ s.notes.rows, n.noteId ∉ items.map (·.noteId) → n ∈ s'.notes.rows
  ids : s'.notes.rows.map (·.noteId) = s.notes.rows.map (·.noteId)
  files : ∀ path, (∀ n ∈ s.notes.rows, n.noteId ∈ items.map (·.noteId) → pathOf n ≠ path) →
    s'.files.read path = s.files.read path
  extras : s'.extras = s.extras

/-- What is not checked: the notes are of the workspace, no file has a date, and notes in one file have one date. -/
structure Open (items : List Item) : Prop where
  own : ∀ n ∈ s.notes.rows, n.noteId ∈ items.map (·.noteId) → n.workspace = v.workspace
  free : ∀ n ∈ s.notes.rows, n.noteId ∈ items.map (·.noteId) → ¬ HasDates s n
  shared : ∀ i ∈ items, ∀ j ∈ items, ∀ n ∈ s.notes.rows, ∀ k ∈ s.notes.rows, n.noteId = i.noteId → k.noteId = j.noteId →
    pathOf n = pathOf k → i.dates = j.dates

end

section
variable {L : Language} {v : Services} {walk : List History.Bytes → Option (List History.WalkEntry)} {s s' : Vault}
  {item : Item} {items : List Item} {n : Note} {p : Prepared} {ps : List Prepared} {path : Text}

/-! ## the date of a title -/

/-- For the key of a year, digits and decimal numbers are the same components. -/
theorem mem_folderYears {period : Period} (hkind : period.kind = .year) (folder : Text) :
    period.key ∈ folderYears folder ↔ period.key ∈ folderNumbers L 4 folder := by
  have hkey := period.formatted
  rw [hkind] at hkey
  have hdigits : ∀ c ∈ period.key, c.isDigit = true := fun c hc => by
    rw [← hkey] at hc
    exact Collections.isDigit_of_mem_pad hc
  have hall : period.key.all Char.isDigit = true ∧ period.key.all L.isDecimal = true :=
    ⟨List.all_eq_true.mpr hdigits, List.all_eq_true.mpr fun c hc => Collections.isDecimal_of_isDigit (hdigits c hc)⟩
  rw [folderYears, folderNumbers, List.mem_filter, List.mem_filter, hall.1, hall.2]

/-- The two classifications agree on the candidates. -/
theorem classify_eq {field : Field} {value : Text} : (calendar L v).classify n = some (field, value) ↔
    classifyTemporalNote L n = .candidate n.noteId n.title n.folder field value := by
  unfold Services.classify classifyTemporalNote
  split
  · simp
  · have htokens : (calendar L v).temporalTokens n.title = temporalTokens L n.title := rfl
    rw [htokens]
    rcases temporalTokens L n.title with _ | ⟨token, _ | ⟨other, rest⟩⟩
    · simp
    · dsimp only
      rw [Collections.frontmatter_parsePeriodKey]
      cases hparsed : Collections.parsePeriodKey token with
      | none => simp
      | some period =>
        have hconflicts : (calendar L v).folderConflicts n.folder period.key =
            folderConflictsWithPeriod L n.folder period := by
          show (Collections.parsePeriodKey period.key).any _ = _
          rw [Collections.parsePeriodKey_key]
          rfl
        have hyear : (isoYear period.key && decide (strip n.title ≠ token) &&
            decide (period.key ∉ folderYears n.folder)) = true ↔
            period.kind = .year ∧ strip n.title ≠ token ∧ period.key ∉ folderNumbers L 4 n.folder := by
          simp only [Bool.and_eq_true, decide_eq_true_eq, Collections.isoYear_key, and_assoc]
          refine and_congr_right fun hkind => and_congr_right fun _ => ?_
          rw [mem_folderYears hkind]
        simp only [Option.map_some, hconflicts]
        split
        · simp
        · simp only [hyear, Collections.isoDate_key]
          split
          · simp
          · simp
    · simp

/-! ## one candidate -/

/-- What is known of a candidate that was prepared. -/
structure Checked (L : Language) (v : Services) (s : Vault) (item : Item) (p : Prepared) : Prop where
  note : p.note ∈ s.notes.rows ∧ p.note.noteId = item.noteId ∧ p.note.ownerId = v.ownerId
  classified : classifyTemporalNote L p.note = .candidate item.noteId item.title item.folder item.field item.value
  file : ∃ m, s.files.read (pathOf p.note) = some (.post m p.content) ∧ p.found = parseFrontmatter m
  row : p.row = { p.note with occurredAt := item.dates.1, period := item.dates.2 }
  fm : ∃ temporal, p.fm = { p.found with temporal } ∧ (temporal.occurredAt, temporal.period) = item.dates

theorem refuse_ok {b : Bool} {e : Refusal} {u : Unit} (h : refuse b e = .ok u) : b = false := by
  cases b with
  | false => rfl
  | true => cases h

theorem prepare_spec (h : prepareItem L v walk s items item = .ok p) : Checked L v s item p := by
  obtain ⟨_, -, h⟩ := bind_ok h
  obtain ⟨note, hnote, h⟩ := bind_ok h
  obtain ⟨_, -, h⟩ := bind_ok h
  obtain ⟨_, hsame, h⟩ := bind_ok h
  obtain ⟨file, hfile, h⟩ := bind_ok h
  obtain ⟨temporal, htemporal, h⟩ := bind_ok h
  cases h
  have hnote := get_ok (mapError_ok hnote)
  have hsame := refuse_ok hsame
  simp only [Bool.or_eq_false_iff, decide_eq_false_iff_not, not_not] at hsame
  obtain ⟨⟨hclassify, htitle⟩, hfolder⟩ := hsame
  obtain ⟨m, content, hread, hfound⟩ := readNoteFile_ok hfile
  have hcontent : content = file.2 := by
    rw [readNoteFile, hread] at hfile
    cases hfile
    rfl
  have hclassified := classify_eq.mp hclassify
  rw [htitle, hfolder, hnote.2.1] at hclassified
  exact ⟨hnote, hclassified, ⟨m, hcontent ▸ hread, hfound⟩, rfl, temporal, rfl, replaced_ok htemporal⟩

/-- A note with a date in its row is no candidate. -/
theorem free_of_candidate {noteId : String} {title folder value : Text} {field : Field}
    (h : classifyTemporalNote L n = .candidate noteId title folder field value) : n.occurredAt = none ∧ n.period = none := by
  unfold classifyTemporalNote at h
  split at h
  · cases h
  · rename_i hrow
    simpa using hrow

theorem prepareItems_ok (h : prepareItems L v walk s items = .ok ps) :
    (items.map (·.noteId)).Nodup ∧ List.Forall₂ (Checked L v s) items ps := by
  obtain ⟨_, -, h⟩ := bind_ok h
  obtain ⟨_, -, h⟩ := bind_ok h
  obtain ⟨_, hnodup, h⟩ := bind_ok h
  have hnodup := of_decide_eq_false (refuse_ok hnodup)
  exact ⟨not_not.mp hnodup, (mapM_ok h).imp fun _ _ => prepare_spec⟩

/-! ## the commit -/

theorem pathOf_row (h : Checked L v s item p) : pathOf p.row = pathOf p.note := by
  rw [h.row]
  rfl

/-- A file has what the last one of its notes wrote, or what it had. -/
theorem read_writeAll_cases (s : State) (hpath : ∀ p ∈ ps, pathOf p.row = pathOf p.note) (path : Text) :
    (∃ p ∈ ps, pathOf p.note = path ∧ (writeAll s ps).files.read path = some (.post p.fm.written p.content)) ∨
      (∀ p ∈ ps, pathOf p.note ≠ path) ∧ (writeAll s ps).files.read path = s.files.read path := by
  induction ps generalizing s with
  | nil => exact .inr ⟨fun p hp => (nomatch hp), rfl⟩
  | cons p ps ih =>
    rcases ih (write s p) (fun q hq => hpath q (List.mem_cons_of_mem p hq)) with ⟨q, hq, hqpath, hread⟩ | ⟨hnone, hread⟩
    · exact .inl ⟨q, List.mem_cons_of_mem p hq, hqpath, hread⟩
    · have hread : (writeAll s (p :: ps)).files.read path = (write s p).files.read path := hread
      rw [read_write, hpath p List.mem_cons_self] at hread
      by_cases hp : path = pathOf p.note
      · rw [if_pos hp] at hread
        exact .inl ⟨p, List.mem_cons_self, hp.symm, hread⟩
      · rw [if_neg hp, if_neg hp] at hread
        exact .inr ⟨List.forall_mem_cons.mpr ⟨Ne.symm hp, hnone⟩, hread⟩

theorem ids_writeAll (s : State) (ps : List Prepared) :
    (writeAll s ps).notes.rows.map (·.noteId) = s.notes.rows.map (·.noteId) := by
  induction ps generalizing s with
  | nil => rfl
  | cons p ps ih =>
    refine (ih (write s p)).trans ?_
    show (updateWhere _ _ s.notes.rows).map _ = _
    rw [updateWhere, List.map_map]
    refine List.map_congr_left fun n _ => ?_
    dsimp only [Function.comp_apply]
    split <;> rfl

theorem writeExtras_eq (hpath : ∀ p ∈ ps, pathOf p.row = pathOf p.note) : writeExtras s ps = s.extras := by
  unfold writeExtras
  induction ps with
  | nil => rfl
  | cons p ps ih =>
    rw [List.foldl_cons, hpath p List.mem_cons_self, Function.update_eq_self]
    exact ih fun q hq => hpath q (List.mem_cons_of_mem p hq)

/-! ## only gaps -/

/-- The notes of the candidates. -/
structure Located (L : Language) (v : Services) (s : Vault) (items : List Item) (ps : List Prepared) : Prop where
  prepared : ∀ item ∈ items, ∃ p ∈ ps, Checked L v s item p
  item : ∀ p ∈ ps, ∃ item ∈ items, Checked L v s item p
  nodup : (ps.map fun p => p.note.noteId).Nodup

theorem located_of_ok (h : prepareItems L v walk s items = .ok ps) : Located L v s items ps := by
  obtain ⟨hnodup, hall⟩ := prepareItems_ok h
  clear h
  refine ⟨?_, ?_, ?_⟩
  · induction hall with
    | nil => exact fun item hitem => (nomatch hitem)
    | @cons item p items ps hp hall ih =>
      refine List.forall_mem_cons.mpr ⟨⟨p, List.mem_cons_self, hp⟩, fun i hi => ?_⟩
      obtain ⟨q, hq, hchecked⟩ := ih (List.nodup_cons.mp hnodup).2 i hi
      exact ⟨q, List.mem_cons_of_mem p hq, hchecked⟩
  · induction hall with
    | nil => exact fun p hp => (nomatch hp)
    | @cons item p items ps hp hall ih =>
      refine List.forall_mem_cons.mpr ⟨⟨item, List.mem_cons_self, hp⟩, fun q hq => ?_⟩
      obtain ⟨i, hi, hchecked⟩ := ih (List.nodup_cons.mp hnodup).2 q hq
      exact ⟨i, List.mem_cons_of_mem item hi, hchecked⟩
  · have hids : ps.map (fun p => p.note.noteId) = items.map (·.noteId) := by
      clear hnodup
      induction hall with
      | nil => rfl
      | cons hp _ ih => rw [List.map_cons, List.map_cons, ih, hp.note.2.1]
    rw [hids]
    exact hnodup

theorem filled_of_open (h : Located L v s items ps) (hopen : Open v s items) :
    Filled L v s items { toState := writeAll s.toState ps, extras := writeExtras s ps } := by
  have hpath : ∀ p ∈ ps, pathOf p.row = pathOf p.note := fun p hp => by
    obtain ⟨item, -, hchecked⟩ := h.item p hp
    exact pathOf_row hchecked
  have hrows : ∀ n, n ∈ (writeAll s.toState ps).notes.rows ↔ _ := fun n => mem_writeAll (fun p hp => by
    obtain ⟨item, -, hchecked⟩ := h.item p hp
    refine ⟨hchecked.note.1, ?_⟩
    rw [hchecked.row]
    exact ⟨rfl, rfl, rfl⟩) h.nodup
  have hmem : ∀ {item p}, item ∈ items → Checked L v s item p → p.note.noteId ∈ items.map (·.noteId) :=
    fun hitem hp => List.mem_map.mpr ⟨_, hitem, hp.note.2.1.symm⟩
  refine ⟨fun item hitem => ?_, fun n hn hid => ?_, ids_writeAll _ ps, fun path hne => ?_, writeExtras_eq hpath⟩
  · obtain ⟨p, hp, hchecked⟩ := h.prepared item hitem
    obtain ⟨m, hread, hfound⟩ := hchecked.file
    have hfree := free_of_candidate hchecked.classified
    refine ⟨p.note, ⟨hchecked.note.1, hchecked.note.2.1, hopen.own _ hchecked.note.1 (hmem hitem hchecked),
      hchecked.note.2.2⟩, ⟨hfree.1, hfree.2, hopen.free _ hchecked.note.1 (hmem hitem hchecked)⟩,
      hchecked.classified, (hrows _).mpr (.inl ⟨p, hp, hchecked.row.symm⟩), ?_⟩
    rcases read_writeAll_cases s.toState hpath (pathOf p.note) with ⟨q, hq, hqpath, hwritten⟩ | ⟨hnone, -⟩
    · -- another note of the same file has the same date
      obtain ⟨i, hi, hq⟩ := h.item q hq
      obtain ⟨mq, hreadq, hfoundq⟩ := hq.file
      obtain ⟨temporal, hfm, hdates⟩ := hq.fm
      rw [hqpath, hread] at hreadq
      obtain ⟨rfl, hcontent⟩ := Document.post.inj (Option.some.inj hreadq)
      refine ⟨m, q.fm.written, _, temporal.settled, hread, hcontent ▸ hwritten, ?_, hdates.trans ?_⟩
      · rw [parse_written, hfm, hfoundq]
      · exact hopen.shared i hi item hitem _ hq.note.1 _ hchecked.note.1 hq.note.2.1 hchecked.note.2.1 hqpath
    · exact (hnone p hp rfl).elim
  · refine (hrows n).mpr (.inr ⟨hn, fun p hp heq => hid ?_⟩)
    obtain ⟨item, hitem, hchecked⟩ := h.item p hp
    exact heq ▸ hmem hitem hchecked
  · rcases read_writeAll_cases s.toState hpath path with ⟨p, hp, hppath, -⟩ | ⟨-, hread⟩
    · obtain ⟨item, hitem, hchecked⟩ := h.item p hp
      exact (hne p.note hchecked.note.1 (hmem hitem hchecked) hppath).elim
    · exact hread

theorem open_of_filled (h : Filled L v s items s') : Open v s items := by
  have hnote : ∀ {n item}, n ∈ s.notes.rows → item ∈ items → n.noteId = item.noteId → FillsGap L v s s' item n := by
    intro n item hn hitem hid
    obtain ⟨k, hk⟩ := h.notes item hitem
    rwa [s.notes.ids.eq hn hk.own.1 (hid.trans hk.own.2.1.symm)]
  refine ⟨fun n hn hid => ?_, fun n hn hid => ?_, fun i hi j hj n hn k hk hni hkj hpath => ?_⟩
  · obtain ⟨item, hitem, hid⟩ := List.mem_map.mp hid
    exact (hnote hn hitem hid.symm).own.2.2.1
  · obtain ⟨item, hitem, hid⟩ := List.mem_map.mp hid
    exact (hnote hn hitem hid.symm).free.2.2
  · obtain ⟨m, m', _, t, -, hread, hparse, hdates⟩ := (hnote hn hi hni).file
    obtain ⟨m₂, m₂', _, t₂, -, hread₂, hparse₂, hdates₂⟩ := (hnote hk hj hkj).file
    rw [hpath, hread₂] at hread
    cases hread
    have htemporal : t₂ = t := congrArg NoteFrontmatter.temporal (hparse₂.symm.trans hparse)
    rw [← hdates, ← hdates₂, htemporal]

end

/-! ## a file with a date by hand -/

/-- A note of the fifth of January; its file may have a period. -/
def logged (period : Yaml) : Vault where
  notes := ⟨[⟨⟨"n1", [], "2026-01-05 log".toList⟩, "w", "u", [], [], [], none, none⟩], List.nodup_singleton _⟩
  files := [⟨"2026-01-05 log.md".toList,
    .post ⟨.str "n1".toList, .str "2026-01-05 log".toList, .seq [], .null, .null, .null, period⟩ []⟩]
  extras _ := []

/-- One commit of the file. -/
def loggedWalk (_ : List History.Bytes) : Option (List History.WalkEntry) :=
  some [⟨"abc".toList, [], 0, [.inl ⟨none, some (History.encode "2026-01-05 log.md".toList)⟩]⟩]

def loggedItem : Item := ⟨"n1", "2026-01-05 log".toList, [], .occurredAt, "2026-01-05".toList, some "abc".toList⟩

theorem hasDates_iff {s : Vault} {n : Note} : HasDates s n ↔ (match s.files.read (pathOf n) with
    | some (.post m _) => (parseFrontmatter m).temporal.occurredAt.isSome || (parseFrontmatter m).temporal.period.isSome
    | _ => false) = true := by
  unfold HasDates
  rcases s.files.read (pathOf n) with _ | _ | ⟨m, content⟩
  · simp
  · simp
  · simp only [Option.some.injEq, Document.post.injEq, Bool.or_eq_true, Option.isSome_iff_ne_none]
    constructor
    · rintro ⟨_, _, ⟨rfl, rfl⟩, h⟩
      exact not_and_or.mp h
    · exact fun h => ⟨m, content, ⟨rfl, rfl⟩, not_and_or.mpr h⟩

end Kajet.Dates
