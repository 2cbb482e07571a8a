import Kajet.Collections.Tiling
import Kajet.Folders.Scope

/-!
# The notes of a period

`entries_in` compares days as texts in the query, and the periods of the notes one by one; there it asks
every stored period for the next one.

* `Library.entries`, `Library.periodEntries`   the listing of the repository, and of the service;
* `Period.Covers`, `Spans`   the days of a period, and of a note;
* `overlap_iff`              the comparison of the texts is the overlap of the days;
* `listed_of_ok`             a listing is exact;
* `entries_iff`              there is one when no note has the last period of a kind.
-/

namespace Kajet.Dates
open Str Rank Table Reindex Fallible Collections
open Folders (Library inFolder)
open Links (normalizeFolder)

inductive ListingError where
  /-- "Invalid period key …" -/
  | invalidPeriod
  | invalidFolder
  /-- the next period would begin after the calendar -/
  | outOfRange
deriving DecidableEq

/-- `period.next()` -/
def nextPeriod (p : Period) : Except ListingError Period :=
  match p.next with
  | some q => .ok q
  | none => .error .outOfRange

/-- The body of the loop: when a note begins, if it is matched. -/
def matchNote (start stop : Text) (n : Note) : Except ListingError (Option Text) :=
  match n.occurredAt, n.period with
  | some day, _ => .ok (if start ≤ day ∧ day < stop then some day else none)
  | none, none => .ok none
  | none, some key =>
    match parsePeriodKey key with
    | none => .ok none
    | some period => do
      let periodEnd := (← nextPeriod period).start.isoformat
      return if period.start.isoformat < stop ∧ start < periodEnd then some period.start.isoformat else none

section
variable (lib : Library) (notes : Notes)

/-- The rows of the query. -/
def Library.temporalRows (start stop : Text) (folder : Option Text) : List Note :=
  notes.rows.filter fun n => lib.owns n &&
    ((n.occurredAt.any fun day => start ≤ day && day < stop) || n.period.isSome) &&
    folder.all fun folder => inFolder folder n.folder

def Library.entries (start stop : Text) (folder : Option Text) : Except ListingError (List Note) := do
  let found ← (Library.temporalRows lib notes start stop folder).mapM fun n =>
    (matchNote start stop n).map fun t => (t, n)
  let matched := found.filterMap fun m => m.1.map (·, m.2)
  return (ranked (fun m : Text × Note => toLex (m.1, m.2.createdAt)) matched).map (·.2)

/-- The service's `entries_in` -/
def Library.periodEntries (period : Text) (folder : Option Text) : Except ListingError (List Note) := do
  let parsed ← ((parsePeriodKey period).elim (.error .invalidPeriod) .ok : Except ListingError Period)
  let folder ← folder.mapM fun folder => ((normalizeFolder folder).elim (.error .invalidFolder) .ok :
    Except ListingError Text)
  let next ← nextPeriod parsed
  Library.entries lib notes parsed.start.isoformat next.start.isoformat folder

end

/-! ## the days of notes -/

/-- The days of a period: up to the next one, or to the end of the calendar. -/
def Covers (p : Period) (d : Date) : Prop :=
  p.start.toordinal ≤ d.toordinal ∧ ∀ q, p.next = some q → d.toordinal < q.start.toordinal

/-- The days of a note. -/
def Spans (n : Note) (d : Date) : Prop :=
  n.occurredAt = some d.isoformat ∨ ∃ r : Period, n.period = some r.key ∧ Covers r d

/-- The first day of a note. -/
def Begins (n : Note) (d : Date) : Prop :=
  n.occurredAt = some d.isoformat ∨ ∃ r : Period, n.period = some r.key ∧ r.start = d

/-- The write path admits the date or the period of the row. -/
def Admitted (n : Note) : Prop :=
  ∃ occurredAt period, Frontmatter.normalizeTemporal occurredAt period = .ok (n.occurredAt, n.period)

def InScope (lib : Library) (folder : Option Text) (n : Note) : Prop :=
  lib.owns n = true ∧ ∀ f ∈ folder, inFolder f n.folder = true

structure Listed (lib : Library) (notes : Notes) (p : Period) (folder : Option Text) (listed : List Note) : Prop where
  mem : ∀ n, n ∈ listed ↔ n ∈ notes.rows ∧ InScope lib folder n ∧ ∃ d, Spans n d ∧ Covers p d
  once : (listed.map (·.noteId)).Nodup
  order : listed.Pairwise fun a b => ∀ d e, Begins a d → Begins b e →
    d.toordinal < e.toordinal ∨ d = e ∧ a.createdAt ≤ b.createdAt

section
variable {lib : Library} {notes : Notes} {n : Note} {p q r : Period} {d e : Date} {folder : Option Text}
  {listed : List Note} {start stop t : Text}

/-- Two periods overlap when each begins before the other one ends. -/
theorem overlap_iff {p' r' : Period} (hp : p.next = some p') (hr : r.next = some r') :
    r.start.isoformat < p'.start.isoformat ∧ p.start.isoformat < r'.start.isoformat ↔
      ∃ d, Covers r d ∧ Covers p d := by
  have hplt := start_lt_next hp
  have hrlt := start_lt_next hr
  rw [isoformat_lt, isoformat_lt]
  constructor
  · rintro ⟨hbefore, hafter⟩
    -- the later of the two first days
    rcases Nat.le_total p.start.toordinal r.start.toordinal with hle | hle
    · exact ⟨r.start, ⟨Nat.le_refl _, fun q hq => (Option.some.inj (hr.symm.trans hq)) ▸ hrlt⟩,
        hle, fun q hq => (Option.some.inj (hp.symm.trans hq)) ▸ hbefore⟩
    · exact ⟨p.start, ⟨hle, fun q hq => (Option.some.inj (hr.symm.trans hq)) ▸ hafter⟩,
        Nat.le_refl _, fun q hq => (Option.some.inj (hp.symm.trans hq)) ▸ hplt⟩
  · rintro ⟨d, ⟨hrd, hdr⟩, hpd, hdp⟩
    exact ⟨Nat.lt_of_le_of_lt hrd (hdp p' hp), Nat.lt_of_le_of_lt hpd (hdr r' hr)⟩

/-- The row of a note has a day, the key of a period, or neither. -/
theorem Admitted.cases (h : Admitted n) : (∃ d : Date, n.occurredAt = some d.isoformat ∧ n.period = none) ∨
    (∃ r : Period, n.occurredAt = none ∧ n.period = some r.key) ∨ n.occurredAt = none ∧ n.period = none := by
  obtain ⟨occurredAt, period, h⟩ := h
  obtain ⟨⟨hday, hkey⟩, hone⟩ := Frontmatter.normalizeTemporal_ok h
  dsimp only at hday hkey hone
  cases ho : n.occurredAt with
  | some t =>
    rw [ho] at hday hone
    rw [Frontmatter.ofField, Frontmatter.parseOccurredAt] at hday
    split at hday
    · rename_i hiso
      obtain ⟨d, hd⟩ := exists_date hiso
      refine .inl ⟨d, by rw [hd], Option.not_isSome_iff_eq_none.mp fun hp => hone ⟨rfl, hp⟩⟩
    · cases hday
  | none =>
    cases hp : n.period with
    | none => exact .inr (.inr ⟨rfl, rfl⟩)
    | some key =>
      rw [hp, Frontmatter.ofField, Frontmatter.parsePeriod] at hkey
      split at hkey
      · rename_i hsome
        obtain ⟨r, hr⟩ := exists_period fun (hnone : Frontmatter.parsePeriodKey key = none) => by
          rw [hnone] at hsome
          cases hsome
        exact .inr (.inl ⟨r, rfl, by rw [hr]⟩)
      · cases hkey

/-! ## one note -/

theorem isoformat_le : d.isoformat ≤ e.isoformat ↔ d.toordinal ≤ e.toordinal := by
  rw [← not_lt, ← Nat.not_lt]
  exact not_congr isoformat_lt

theorem covers_iff (h : p.next = some q) :
    Covers p d ↔ p.start.toordinal ≤ d.toordinal ∧ d.toordinal < q.start.toordinal :=
  and_congr_right fun _ => ⟨fun hall => hall q h, fun hlt _ hq => Option.some.inj (h.symm.trans hq) ▸ hlt⟩

theorem spans_day (hday : n.occurredAt = some d.isoformat) (hperiod : n.period = none) : Spans n e ↔ e = d := by
  rw [Spans, hday, hperiod]
  constructor
  · rintro (h | ⟨r, h, -⟩)
    · exact (isoformat_inj (Option.some.inj h)).symm
    · cases h
  · rintro rfl
    exact .inl rfl

theorem spans_period (hday : n.occurredAt = none) (hperiod : n.period = some r.key) : Spans n e ↔ Covers r e := by
  rw [Spans, hday, hperiod]
  constructor
  · rintro (h | ⟨r', h, hcovers⟩)
    · cases h
    · rwa [key_inj (Option.some.inj h)]
  · exact fun h => .inr ⟨r, rfl, h⟩

/-- A note with a day is matched when its day is in the period. -/
theorem matchNote_day (hnext : p.next = some q) (hday : n.occurredAt = some d.isoformat) :
    ∃ found, matchNote p.start.isoformat q.start.isoformat n = .ok found ∧ (found.isSome = true ↔ Covers p d) ∧
      ∀ t ∈ found, t = d.isoformat := by
  refine ⟨_, by rw [matchNote, hday], ?_, ?_⟩
  · rw [Option.isSome_ite, isoformat_le, isoformat_lt, covers_iff hnext]
  · intro t ht
    split at ht
    · exact (Option.some.inj ht).symm
    · cases ht

/-- A note with a period is matched when the periods overlap. -/
theorem matchNote_period {r' : Period} (hnext : p.next = some q) (hday : n.occurredAt = none)
    (hperiod : n.period = some r.key) (hr : r.next = some r') :
    ∃ found, matchNote p.start.isoformat q.start.isoformat n = .ok found ∧
      (found.isSome = true ↔ ∃ d, Covers r d ∧ Covers p d) ∧ ∀ t ∈ found, t = r.start.isoformat := by
  refine ⟨if r.start.isoformat < q.start.isoformat ∧ p.start.isoformat < r'.start.isoformat
    then some r.start.isoformat else none, ?_, ?_, ?_⟩
  · rw [matchNote, hday, hperiod]
    dsimp only
    rw [parsePeriodKey_key]
    dsimp only
    rw [nextPeriod, hr]
    rfl
  · rw [Option.isSome_ite, overlap_iff hnext hr]
  · intro t ht
    split at ht
    · exact (Option.some.inj ht).symm
    · cases ht

/-- **One note** of the rows: it is matched when it has a day in the period, unless its own period is a last one. -/
theorem matchNote_cases (hnext : p.next = some q) (h : Admitted n) :
    (∃ key ∈ n.period, key ∈ lastKeys) ∧ matchNote p.start.isoformat q.start.isoformat n = .error .outOfRange ∨
      (∀ key ∈ n.period, key ∉ lastKeys) ∧ ∃ found, matchNote p.start.isoformat q.start.isoformat n = .ok found ∧
        (found.isSome = true ↔ ∃ d, Spans n d ∧ Covers p d) ∧ ∀ t ∈ found, ∀ d, Begins n d → t = d.isoformat := by
  rcases h.cases with ⟨d, hday, hperiod⟩ | ⟨r, hday, hperiod⟩ | ⟨hday, hperiod⟩
  · obtain ⟨found, hfound, hsome, hbegins⟩ := matchNote_day hnext hday
    refine .inr ⟨fun key hkey => ?_, found, hfound, ?_, fun t ht e he => ?_⟩
    · rw [hperiod] at hkey
      cases hkey
    · simp only [hsome, spans_day hday hperiod, exists_eq_left]
    · rcases he with he | ⟨r, hr, -⟩
      · rw [hbegins t ht, ← Option.some.inj (hday.symm.trans he)]
      · rw [hperiod] at hr
        cases hr
  · cases hr : r.next with
    | none =>
      refine .inl ⟨⟨r.key, hperiod, next_eq_none_iff.mp hr⟩, ?_⟩
      rw [matchNote, hday, hperiod]
      dsimp only
      rw [parsePeriodKey_key]
      dsimp only
      rw [nextPeriod, hr]
      rfl
    | some r' =>
      obtain ⟨found, hfound, hsome, hbegins⟩ := matchNote_period hnext hday hperiod hr
      refine .inr ⟨fun key hkey hlast => ?_, found, hfound, ?_, fun t ht e he => ?_⟩
      · rw [hperiod] at hkey
        rw [← Option.some.inj hkey, ← next_eq_none_iff, hr] at hlast
        cases hlast
      · simp only [hsome, spans_period hday hperiod]
      · rcases he with he | ⟨r', hr', rfl⟩
        · rw [hday] at he
          cases he
        · rw [hbegins t ht, key_inj (Option.some.inj (hperiod.symm.trans hr'))]
  · refine .inr ⟨fun key hkey => ?_, none, by rw [matchNote, hday, hperiod], ?_, nofun⟩
    · rw [hperiod] at hkey
      cases hkey
    · constructor
      · nofun
      · rintro ⟨d, hspans | ⟨r, hr, -⟩, -⟩
        · rw [hday] at hspans
          cases hspans
        · rw [hperiod] at hr
          cases hr

/-- The rows of the query are in its scope, and every note with a period is one. -/
theorem mem_temporalRows : n ∈ Library.temporalRows lib notes start stop folder ↔ n ∈ notes.rows ∧
    InScope lib folder n ∧ ((∃ day ∈ n.occurredAt, start ≤ day ∧ day < stop) ∨ n.period.isSome = true) := by
  rw [Library.temporalRows, List.mem_filter, InScope]
  refine and_congr_right fun _ => ?_
  simp only [Bool.and_eq_true, Bool.or_eq_true, Option.any_eq_true, Option.all_eq_true, decide_eq_true_eq,
    Option.mem_def, and_assoc]
  exact and_congr_right fun _ => and_comm

/-! ## the listing -/

/-- What a note gives when nothing raises. -/
def found (start stop : Text) (n : Note) : Option Text := (matchNote start stop n).toOption.join

theorem found_of_ok {f : Option Text} (h : matchNote start stop n = .ok f) : found start stop n = f := by
  rw [found, h]
  rfl

theorem map_snd_filterMap (f : Note → Option Text) (rows : List Note) :
    (rows.filterMap fun n => (f n).map (·, n)).map (·.2) = rows.filter fun n => (f n).isSome := by
  induction rows with
  | nil => rfl
  | cons n rows ih =>
    cases hf : f n with
    | none => simpa [List.filterMap_cons, hf] using ih
    | some t => simpa [List.filterMap_cons, hf] using ih

/-- Without a note of a last period, the query lists what its rows give. -/
theorem entries_eq (hnext : p.next = some q) (hstored : ∀ n ∈ notes.rows, Admitted n)
    (h : ∀ n ∈ notes.rows, InScope lib folder n → ∀ key ∈ n.period, key ∉ lastKeys) :
    Library.entries lib notes p.start.isoformat q.start.isoformat folder =
      .ok ((ranked (fun m : Text × Note => toLex (m.1, m.2.createdAt))
        ((Library.temporalRows lib notes p.start.isoformat q.start.isoformat folder).filterMap fun n =>
          (found p.start.isoformat q.start.isoformat n).map (·, n))).map (·.2)) := by
  have hmap := mapM_eq_map (g := fun n => (matchNote p.start.isoformat q.start.isoformat n).map fun t => (t, n))
    (f := fun n => (found p.start.isoformat q.start.isoformat n, n))
    (l := Library.temporalRows lib notes p.start.isoformat q.start.isoformat folder) fun n hn => by
      obtain ⟨hmem, hscope, -⟩ := mem_temporalRows.mp hn
      rcases matchNote_cases hnext (hstored n hmem) with ⟨⟨key, hkey, hlast⟩, -⟩ | ⟨-, f, hf, -⟩
      · exact (h n hmem hscope key hkey hlast).elim
      · rw [found_of_ok hf, hf]
        rfl
  rw [Library.entries, hmap]
  show Except.ok _ = _
  rw [List.filterMap_map]
  rfl

/-- The first days of a period and of the next one. -/
def periodRange (key : Text) : Option (Text × Text) :=
  (parsePeriodKey key).bind fun p => p.next.map fun q => (p.start.isoformat, q.start.isoformat)

theorem found_eq_beginsIn (hrange : lib.periodRange = periodRange) :
    found start stop n = lib.beginsIn start stop n := by
  unfold found matchNote Library.beginsIn
  cases n.occurredAt with
  | some day => rfl
  | none =>
    cases n.period with
    | none => rfl
    | some key =>
      show _ = (lib.periodRange key).bind _
      rw [hrange, periodRange]
      cases hkey : parsePeriodKey key with
      | none => simp only [hkey, Option.bind_none]; rfl
      | some r => cases hr : r.next <;> simp only [hkey, nextPeriod, Option.bind_some, hr] <;> rfl

/-- The listing of the queries by folder, at the ranges of the calendar. -/
theorem entries_eq_entriesIn (db : Folders.Db) (hnotes : db.notes = notes.rows) (hrange : lib.periodRange = periodRange)
    (hnext : p.next = some q) (hstored : ∀ n ∈ notes.rows, Admitted n)
    (h : ∀ n ∈ notes.rows, InScope lib folder n → ∀ key ∈ n.period, key ∉ lastKeys) :
    Library.entries lib notes p.start.isoformat q.start.isoformat folder =
      .ok (lib.entriesIn db p.start.isoformat q.start.isoformat folder) := by
  rw [entries_eq hnext hstored h, Library.entriesIn, hnotes]
  refine congrArg (fun f => Except.ok ((ranked _ (List.filterMap f _)).map _)) (funext fun n => ?_)
  rw [found_eq_beginsIn hrange]

/-- **A listing is exact.** -/
theorem listed_of_ok (hnext : p.next = some q) (hstored : ∀ n ∈ notes.rows, Admitted n)
    (h : ∀ n ∈ notes.rows, InScope lib folder n → ∀ key ∈ n.period, key ∉ lastKeys)
    (hlisted : Library.entries lib notes p.start.isoformat q.start.isoformat folder = .ok listed) :
    Listed lib notes p folder listed := by
  rw [entries_eq hnext hstored h] at hlisted
  obtain rfl := Except.ok.inj hlisted
  generalize hrows : Library.temporalRows lib notes p.start.isoformat q.start.isoformat folder = rows
  have hmem : ∀ n, n ∈ rows ↔ _ := fun n => hrows ▸ mem_temporalRows
  generalize hmatched : (rows.filterMap fun n => (found p.start.isoformat q.start.isoformat n).map (·, n)) = matched
  have hperm : ((ranked (fun m : Text × Note => toLex (m.1, m.2.createdAt)) matched).map (·.2)).Perm
      (rows.filter fun n => (found p.start.isoformat q.start.isoformat n).isSome) := by
    rw [← map_snd_filterMap, hmatched]
    exact (List.perm_insertionSort _ _).map _
  have hcase : ∀ n ∈ notes.rows, InScope lib folder n → _ := fun n hn hscope =>
    (matchNote_cases hnext (hstored n hn)).resolve_left fun ⟨⟨key, hkey, hlast⟩, _⟩ => h n hn hscope key hkey hlast
  refine ⟨fun n => ?_, ?_, ?_⟩
  · rw [hperm.mem_iff, List.mem_filter, hmem]
    constructor
    · rintro ⟨⟨hn, hscope, -⟩, hsome⟩
      obtain ⟨-, f, hf, hoverlap, -⟩ := hcase n hn hscope
      rw [found_of_ok hf] at hsome
      exact ⟨hn, hscope, hoverlap.mp hsome⟩
    · rintro ⟨hn, hscope, d, hspans, hcovers⟩
      obtain ⟨-, f, hf, hoverlap, -⟩ := hcase n hn hscope
      rw [found_of_ok hf]
      refine ⟨⟨hn, hscope, ?_⟩, hoverlap.mpr ⟨d, hspans, hcovers⟩⟩
      rcases hspans with hday | ⟨r, hr, -⟩
      · obtain ⟨hle, hlt⟩ := (covers_iff hnext).mp hcovers
        exact .inl ⟨_, hday, isoformat_le.mpr hle, isoformat_lt.mpr hlt⟩
      · exact .inr (by rw [hr]; rfl)
  · refine (hperm.map _).nodup_iff.mpr ((keyed_iff_nodup.mp notes.ids).sublist (List.Sublist.map _ ?_))
    rw [← hrows]
    exact List.filter_sublist.trans List.filter_sublist
  · rw [List.pairwise_map]
    refine (List.pairwise_insertionSort _ _).imp_of_mem fun {a b} ha hb hle d e hd he => ?_
    have hbegins : ∀ m ∈ matched, ∀ d, Begins m.2 d → m.1 = d.isoformat := by
      intro m hm d hd
      rw [← hmatched] at hm
      obtain ⟨n, hn, hfound⟩ := List.mem_filterMap.mp hm
      obtain ⟨t, ht, rfl⟩ := Option.map_eq_some_iff.mp hfound
      obtain ⟨hrow, hscope, -⟩ := (hmem n).mp hn
      obtain ⟨-, f, hf, -, hfirst⟩ := hcase n hrow hscope
      rw [found_of_ok hf] at ht
      exact hfirst t ht d hd
    have hle := Prod.Lex.toLex_le_toLex.mp hle
    rw [hbegins a (mem_ranked.mp ha) d hd, hbegins b (mem_ranked.mp hb) e he] at hle
    rcases hle with hlt | ⟨heq, hle⟩
    · exact .inl (isoformat_lt.mp hlt)
    · exact .inr ⟨isoformat_inj heq, hle⟩

/-- A note of a last period ends every listing of its scope. -/
theorem not_last_of_ok (hnext : p.next = some q) (hstored : ∀ n ∈ notes.rows, Admitted n)
    (hlisted : Library.entries lib notes p.start.isoformat q.start.isoformat folder = .ok listed) (hn : n ∈ notes.rows)
    (hscope : InScope lib folder n) : ∀ key ∈ n.period, key ∉ lastKeys := by
  intro key hkey hlast
  obtain ⟨found, hfound, -⟩ := bind_ok hlisted
  obtain ⟨b, -, hb⟩ := exists_of_mapM_ok hfound (mem_temporalRows.mpr ⟨hn, hscope, .inr (by rw [hkey]; rfl)⟩)
  rcases matchNote_cases hnext (hstored n hn) with ⟨-, herror⟩ | ⟨hnot, -⟩
  · rw [herror] at hb
    cases hb
  · exact hnot key hkey hlast

theorem periodEntries_eq (hnext : p.next = some q) {scope : Option Text}
    (hfolder : folder.elim (some none) (fun f => (normalizeFolder f).map some) = some scope) :
    Library.periodEntries lib notes p.key folder =
      Library.entries lib notes p.start.isoformat q.start.isoformat scope := by
  have hscope : (folder.mapM fun f => ((normalizeFolder f).elim (.error .invalidFolder) .ok :
      Except ListingError Text)) = .ok scope := by
    cases folder with
    | none =>
      cases hfolder
      rfl
    | some f =>
      obtain ⟨g, hg, rfl⟩ := Option.map_eq_some_iff.mp hfolder
      show (fun g => some g) <$> ((normalizeFolder f).elim _ _ : Except ListingError Text) = _
      rw [hg]
      rfl
  have hq : nextPeriod p = .ok q := by
    rw [nextPeriod, hnext]
  unfold Library.periodEntries
  rw [parsePeriodKey_key, hscope]
  show (nextPeriod p >>= fun next => _) = _
  rw [hq]
  rfl

/-- **A period has its exact listing** when no note of the scope has the last period of a kind, and only then. -/
theorem entries_iff (hnext : p.next = some q) (hstored : ∀ n ∈ notes.rows, Admitted n) {scope : Option Text}
    (hfolder : folder.elim (some none) (fun f => (normalizeFolder f).map some) = some scope) :
    (∃ listed, Library.periodEntries lib notes p.key folder = .ok listed ∧ Listed lib notes p scope listed) ↔
      ∀ n ∈ notes.rows, InScope lib scope n → ∀ key ∈ n.period, key ∉ lastKeys := by
  rw [periodEntries_eq hnext hfolder]
  constructor
  · rintro ⟨listed, hlisted, -⟩ n hn hscope
    exact not_last_of_ok hnext hstored hlisted hn hscope
  · intro h
    exact ⟨_, entries_eq hnext hstored h, listed_of_ok hnext hstored h (entries_eq hnext hstored h)⟩

theorem exists_next {key : Text} (h : ((parsePeriodKey key).bind Period.next).isSome = true) :
    ∃ p q : Period, p.key = key ∧ p.next = some q := by
  obtain ⟨q, hq⟩ := Option.isSome_iff_exists.mp h
  obtain ⟨p, hp, hnext⟩ := Option.bind_eq_some_iff.mp hq
  exact ⟨p, q, key_of_parsePeriodKey hp, hnext⟩

/-- A day, a week over the end of the year, and a month. -/
theorem entries_iff_weeks :
    let lib : Library := ⟨"w", "o", id, fun _ => none⟩
    let note := fun (noteId : String) day period => (⟨⟨noteId, [], []⟩, "w", "o", [], [], [], day, period⟩ : Note)
    let notes : Notes := ⟨[note "a" (some "2021-01-03".toList) none, note "b" none (some "2020-W53".toList),
      note "c" none (some "2021-02".toList)], by decide +kernel⟩
    ((Library.periodEntries lib notes "2021-01".toList none).toOption.map fun listed => listed.map (·.noteId)) =
        some ["b", "a"] ∧
      ∃ p q : Period, p.key = "2021-01".toList ∧ p.next = some q ∧
        ((∃ listed, Library.periodEntries lib notes p.key none = .ok listed ∧ Listed lib notes p none listed) ↔
          ∀ n ∈ notes.rows, InScope lib none n → ∀ key ∈ n.period, key ∉ lastKeys) := by
  obtain ⟨p, q, hkey, hnext⟩ := exists_next (show ((parsePeriodKey "2021-01".toList).bind Period.next).isSome = true by
    decide +kernel)
  refine ⟨by decide +kernel, p, q, hkey, hnext, entries_iff hnext ?_ rfl⟩
  simp only [List.forall_mem_cons, List.not_mem_nil, false_implies, implies_true, and_true]
  exact ⟨⟨.str "2021-01-03".toList, .null, by decide +kernel⟩, ⟨.null, .str "2020-W53".toList, by decide +kernel⟩,
    ⟨.null, .str "2021-02".toList, by decide +kernel⟩⟩

/-- A note of the last year ends the listing of another one. -/
theorem last_year_raises :
    let lib : Library := ⟨"w", "o", id, fun _ => none⟩
    let notes : Notes := ⟨[⟨⟨"a", [], []⟩, "w", "o", [], [], [], none, some "9999".toList⟩], by decide +kernel⟩
    (∀ n ∈ notes.rows, Admitted n) ∧ (∃ p q : Period, p.key = "2026".toList ∧ p.next = some q) ∧
      Library.periodEntries lib notes "2026".toList none = .error .outOfRange := by
  refine ⟨?_, exists_next (by decide +kernel), by decide +kernel⟩
  simp only [List.forall_mem_cons, List.not_mem_nil, false_implies, implies_true, and_true]
  exact ⟨.null, .int 9999, by decide +kernel⟩

end
end Kajet.Dates
