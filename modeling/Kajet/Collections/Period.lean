import Kajet.Collections.Calendar
import Mathlib.Algebra.Group.Nat.Defs

/-!
# Days, ISO weeks, months and years

* `Period`, `Period.make`   a kind and its canonical key; the constructor parses the key and compares;
* `containing_spec`          every date is in a period of each kind, whose key is the date's own;
* `Period.index`, `next_index`   the periods of a kind one after the other;
* `thursday_isSome`          the Thursday of a week is a date.
-/

namespace Kajet.Collections
open Str
open Frontmatter (digits daysInMonth)

inductive PeriodKind where
  | day | week | month | year
deriving DecidableEq

/-! ## keys -/

/-- The last `w` decimal digits. -/
def pad : ℕ → ℕ → Text
  | 0, _ => []
  | w + 1, n => pad w (n / 10) ++ [Nat.digitChar (n % 10)]

def Date.isoformat (d : Date) : Text := pad 4 d.year ++ '-' :: (pad 2 d.month ++ '-' :: pad 2 d.day)

/-- `date.fromisoformat` of a text of ten characters with hyphens -/
def fromisoformat : Text → Option Date
  | [a, b, c, d, '-', e, f, '-', g, h] => do date (← digits [a, b, c, d]) (← digits [e, f]) (← digits [g, h])
  | _ => none

/-- `_parse_key`: what `int` takes besides digits is not canonical. -/
def parseKey : PeriodKind → Text → Option Date
  | .day, key => fromisoformat key
  | .week, [a, b, c, d, '-', 'W', e, f] => do fromisocalendar (← digits [a, b, c, d]) (← digits [e, f])
  | .month, [a, b, c, d, '-', e, f] => do date (← digits [a, b, c, d]) (← digits [e, f]) 1
  | .year, key => do date (← digits key) 1 1
  | _, _ => none

/-- `_format_key` -/
def formatKey (d : Date) : PeriodKind → Text
  | .day => d.isoformat
  | .week => pad 4 d.isocalendar.1 ++ '-' :: 'W' :: pad 2 d.isocalendar.2
  | .month => pad 4 d.year ++ '-' :: pad 2 d.month
  | .year => pad 4 d.year

/-! ## periods -/

structure Period where
  kind : PeriodKind
  key : Text
  start : Date
  parsed : parseKey kind key = some start
  formatted : formatKey start kind = key
deriving DecidableEq

namespace Period

/-- `Period(kind, key)` -/
def make (kind : PeriodKind) (key : Text) : Option Period :=
  match h : parseKey kind key with
  | none => none
  | some start => if hkey : formatKey start kind = key then some ⟨kind, key, start, h, hkey⟩ else none

def containing (d : Date) (kind : PeriodKind) : Option Period := make kind (formatKey d kind)

def next (p : Period) : Option Period :=
  match p.kind with
  | .day => p.start.tomorrow.bind fun d => containing d .day
  | .week => (p.start.addDays 7).bind fun d => containing d .week
  | .month =>
    if p.start.month = 12 then make .month (pad 4 (p.start.year + 1) ++ '-' :: pad 2 1)
    else make .month (pad 4 p.start.year ++ '-' :: pad 2 (p.start.month + 1))
  | .year => make .year (pad 4 (p.start.year + 1))

end Period

/-- `month_of_week` of a week: the month of its Thursday -/
def monthOfWeek (w : Period) : Option Period := (w.start.addDays 3).bind fun d => Period.containing d .month

example : (["2026-W01", "2026-W53", "2026-06", "2026"].map fun key =>
    ((Period.make .week key.toList).bind fun p => (monthOfWeek p).map (·.key)).map String.ofList) =
    [some "2026-01", some "2026-12", none, none] := by decide +kernel

variable {d e : Date} {kind : PeriodKind} {p q : Period} {w n m : ℕ} {key : Text}

/-! ## digits -/

theorem digitChar_spec : ∀ k < 10, (Nat.digitChar k).isDigit = true ∧ (Nat.digitChar k).toNat - '0'.toNat = k := by
  decide

theorem length_pad (w n : ℕ) : (pad w n).length = w := by
  induction w generalizing n with
  | zero => rfl
  | succ w ih => rw [pad, List.length_append, ih, List.length_singleton]

theorem isDigit_of_mem_pad {c : Char} (h : c ∈ pad w n) : c.isDigit = true := by
  induction w generalizing n with
  | zero => cases h
  | succ w ih =>
    rcases List.mem_append.mp h with hmem | hmem
    · exact ih hmem
    · rw [List.mem_singleton.mp hmem]
      exact (digitChar_spec _ (Nat.mod_lt n (by decide))).1

theorem digits_pad (hw : w ≠ 0) (hn : n < 10 ^ w) : digits (pad w n) = some n := by
  have hfold (w n : ℕ) : (pad w n).foldl (fun n c => 10 * n + (c.toNat - '0'.toNat)) 0 = n % 10 ^ w := by
    induction w generalizing n with
    | zero => simp [pad, Nat.mod_one]
    | succ w ih =>
      rw [pad, List.foldl_append, ih, List.foldl_cons, List.foldl_nil,
        (digitChar_spec _ (Nat.mod_lt n (by decide))).2, Nat.pow_succ, Nat.mul_comm (10 ^ w) 10, Nat.mod_mul]
      omega
  have hne : pad w n ≠ [] := by
    intro hnil
    have hlen := length_pad w n
    rw [hnil] at hlen
    exact hw hlen.symm
  unfold digits
  rw [if_pos ⟨hne, List.all_eq_true.mpr fun c hc => isDigit_of_mem_pad hc⟩, hfold, Nat.mod_eq_of_lt hn]

theorem pad_inj (hn : n < 10 ^ w) (hm : m < 10 ^ w) (h : pad w n = pad w m) : n = m := by
  by_cases hw : w = 0
  · subst hw
    omega
  · have hdigits := digits_pad hw hn
    rw [h, digits_pad hw hm] at hdigits
    exact (Option.some.inj hdigits).symm

/-! ## parsing a key that was formatted -/

theorem year_lt (d : Date) : d.year < 10 ^ 4 := Nat.lt_of_le_of_lt d.valid.1.2 (by decide)

theorem month_lt (d : Date) : d.month < 10 ^ 2 := Nat.lt_of_le_of_lt d.valid.2.1.2 (by decide)

theorem day_lt (d : Date) : d.day < 10 ^ 2 := by
  have hday := d.valid.2.2.2
  have hmonth : daysInMonth d.year d.month ≤ 31 := by
    unfold daysInMonth
    split <;> split <;> omega
  omega

theorem isoweek_lt (d : Date) : d.isocalendar.1 < 10 ^ 4 ∧ d.isocalendar.2 < 10 ^ 2 := by
  have hyear := isocalendar_year_le d
  have hweek := isocalendar_week_le d
  omega

theorem fromisoformat_isoformat (d : Date) : fromisoformat d.isoformat = some d := by
  show (do date (← digits (pad 4 d.year)) (← digits (pad 2 d.month)) (← digits (pad 2 d.day))) = some d
  rw [digits_pad (by decide) (year_lt d), digits_pad (by decide) (month_lt d), digits_pad (by decide) (day_lt d)]
  exact date_eq_some.mpr ⟨rfl, rfl, rfl⟩

/-- `s` is the first day of the period of `d`. -/
def Starts (d s : Date) : PeriodKind → Prop
  | .day => s = d
  | .week => s.toordinal = isoweek1monday d.isocalendar.1 + 7 * (d.isocalendar.2 - 1) ∧ s.isocalendar = d.isocalendar
  | .month => s.year = d.year ∧ s.month = d.month ∧ s.day = 1
  | .year => s.year = d.year ∧ s.month = 1 ∧ s.day = 1

theorem parseKey_formatKey (d : Date) (kind : PeriodKind) :
    ∃ s, parseKey kind (formatKey d kind) = some s ∧ Starts d s kind := by
  obtain ⟨hyear, hmonth, -⟩ := d.valid
  cases kind with
  | day => exact ⟨d, fromisoformat_isoformat d, rfl⟩
  | week =>
    obtain ⟨m, hm, hord, hweek⟩ := fromisocalendar_isocalendar d
    refine ⟨m, ?_, hord, hweek⟩
    show (do fromisocalendar (← digits (pad 4 d.isocalendar.1)) (← digits (pad 2 d.isocalendar.2))) = some m
    rw [digits_pad (by decide) (isoweek_lt d).1, digits_pad (by decide) (isoweek_lt d).2]
    exact hm
  | month =>
    refine ⟨⟨d.year, d.month, 1, hyear, hmonth, Nat.le_refl 1, daysInMonth_pos _ _⟩, ?_, rfl, rfl, rfl⟩
    show (do date (← digits (pad 4 d.year)) (← digits (pad 2 d.month)) 1) = _
    rw [digits_pad (by decide) (year_lt d), digits_pad (by decide) (month_lt d)]
    exact date_eq_some.mpr ⟨rfl, rfl, rfl⟩
  | year =>
    refine ⟨⟨d.year, 1, 1, hyear, by decide, Nat.le_refl 1, daysInMonth_pos _ _⟩, ?_, rfl, rfl, rfl⟩
    show (do date (← digits (pad 4 d.year)) 1 1) = _
    rw [digits_pad (by decide) (year_lt d)]
    exact date_eq_some.mpr ⟨rfl, rfl, rfl⟩

theorem Starts.formatKey {s : Date} (h : Starts d s kind) : formatKey s kind = formatKey d kind := by
  cases kind with
  | day => rw [show s = d from h]
  | week => simp only [Collections.formatKey, h.2]
  | month => simp only [Collections.formatKey, h.1, h.2.1]
  | year => simp only [Collections.formatKey, h.1]

/-! ## the period of a date -/

theorem make_eq_some : Period.make kind key = some p ↔ p.kind = kind ∧ p.key = key := by
  unfold Period.make
  split
  · rename_i hnone
    constructor
    · nofun
    · rintro ⟨rfl, rfl⟩
      rw [p.parsed] at hnone
      cases hnone
  · rename_i start hstart
    constructor
    · intro h
      split at h
      · cases h
        exact ⟨rfl, rfl⟩
      · cases h
    · rintro ⟨rfl, rfl⟩
      rw [p.parsed] at hstart
      cases hstart
      rw [dif_pos p.formatted]

theorem containing_spec (d : Date) (kind : PeriodKind) :
    ∃ p, Period.containing d kind = some p ∧ p.kind = kind ∧ p.key = formatKey d kind ∧ Starts d p.start kind := by
  obtain ⟨s, hs, hstarts⟩ := parseKey_formatKey d kind
  exact ⟨⟨kind, formatKey d kind, s, hs, hstarts.formatKey⟩, make_eq_some.mpr ⟨rfl, rfl⟩, rfl, rfl, hstarts⟩

theorem containing_eq_some (h : Period.containing d kind = some p) :
    p.kind = kind ∧ p.key = formatKey d kind ∧ Starts d p.start kind := by
  obtain ⟨q, hq, hspec⟩ := containing_spec d kind
  rw [h] at hq
  cases hq
  exact hspec

/-- A period begins with its first day. -/
theorem Period.starts (p : Period) : Starts p.start p.start p.kind := by
  obtain ⟨s, hs, hstarts⟩ := parseKey_formatKey p.start p.kind
  rw [p.formatted, p.parsed] at hs
  cases hs
  exact hstarts

/-! ## the order of the periods -/

/-- The number of the period of a date among those of its kind. -/
def Date.index (d : Date) : PeriodKind → ℕ
  | .day => d.toordinal
  | .week => (d.toordinal - 1) / 7
  | .month => 12 * d.year + d.month
  | .year => d.year

def Period.index (p : Period) : ℕ := p.start.index p.kind

theorem index_mono (kind : PeriodKind) (h : d.toordinal ≤ e.toordinal) : d.index kind ≤ e.index kind := by
  obtain ⟨hlow, hhigh⟩ := toordinal_bounds d
  obtain ⟨hlow', hhigh'⟩ := toordinal_bounds e
  obtain ⟨-, ⟨hmonth, hmonths⟩, hday, -⟩ := d.valid
  obtain ⟨-, ⟨hmonth', hmonths'⟩, hday', -⟩ := e.valid
  have hyear : d.year ≤ e.year := by
    by_contra hlt
    have := daysBeforeYear_mono (Nat.le_add_left 1 e.year) (show e.year + 1 ≤ d.year by omega)
    omega
  cases kind with
  | day => exact h
  | week => exact Nat.div_le_div_right (by omega)
  | year => exact hyear
  | month =>
    show 12 * d.year + d.month ≤ 12 * e.year + e.month
    rcases Nat.lt_or_eq_of_le hyear with hlt | heq
    · omega
    · have hle := (dayOfYear_le e).2
      by_contra hlt
      have hmonth := @daysThrough_mono e.year _ _ (show e.month ≤ d.month - 1 by omega)
      rw [Date.toordinal, Date.toordinal, heq] at h
      omega

theorem Starts.index {s : Date} (h : Starts d s kind) : s.index kind = d.index kind := by
  cases kind with
  | day => rw [show s = d from h]
  | week =>
    have hspec := isocalendar_spec d
    have hmonday := (isoweek1monday_near d.isocalendar.1).1
    have := hspec.low
    have := hspec.high
    have hord := h.1
    show (s.toordinal - 1) / 7 = (d.toordinal - 1) / 7
    omega
  | month =>
    show 12 * s.year + s.month = 12 * d.year + d.month
    rw [h.1, h.2.1]
  | year => exact h.1

/-- The first days of two periods of one number are the same. -/
theorem start_eq {s t : Date} (hs : Starts s s kind) (ht : Starts t t kind) (h : s.index kind = t.index kind) : s = t := by
  cases kind with
  | day => exact toordinal_inj h
  | week =>
    have hmonday := (isoweek1monday_near s.isocalendar.1).1
    have hmonday' := (isoweek1monday_near t.isocalendar.1).1
    have hs := hs.1
    have ht := ht.1
    have h : (s.toordinal - 1) / 7 = (t.toordinal - 1) / 7 := h
    exact toordinal_inj (by omega)
  | month =>
    have h : 12 * s.year + s.month = 12 * t.year + t.month := h
    have hmonth := s.valid.2.1
    have hmonth' := t.valid.2.1
    exact Date.ext (by omega) (by omega) (hs.2.2.trans ht.2.2.symm)
  | year => exact Date.ext h (hs.2.1.trans ht.2.1.symm) (hs.2.2.trans ht.2.2.symm)

theorem Period.eq_of_index (hkind : p.kind = q.kind) (h : p.index = q.index) : p = q := by
  have hstart : p.start = q.start := start_eq p.starts (hkind ▸ q.starts) (by rw [← Period.index, h, Period.index, hkind])
  have hkey : p.key = q.key := by rw [← p.formatted, ← q.formatted, hstart, hkind]
  cases p
  cases q
  cases hkind
  cases hkey
  cases hstart
  rfl

theorem containing_index (h : Period.containing d kind = some p) : p.index = d.index kind := by
  obtain ⟨hkind, -, hstarts⟩ := containing_eq_some h
  rw [Period.index, hkind, hstarts.index]

/-- Either there is a next period, or no date is later. -/
theorem next_cases (p : Period) :
    (∃ e, p.next = Period.containing e p.kind ∧ e.index p.kind = p.index + 1) ∨
      p.next = none ∧ ∀ d : Date, d.index p.kind ≤ p.index := by
  have hstarts := p.starts
  unfold Period.next Period.index
  generalize p.kind = kind at hstarts ⊢
  generalize p.start = s at hstarts ⊢
  cases kind with
  | day =>
    rcases tomorrow_cases s with ⟨e, he, hord⟩ | ⟨hnone, hlast⟩
    · exact .inl ⟨e, by rw [he]; rfl, hord⟩
    · refine .inr ⟨by rw [hnone]; rfl, fun d => ?_⟩
      show d.toordinal ≤ s.toordinal
      rw [hlast]
      exact (toordinal_le d).2
  | week =>
    have hmonday := (isoweek1monday_near s.isocalendar.1).1
    have hord := hstarts.1
    cases hdays : s.addDays 7 with
    | some e =>
      have hseven := addDays_toordinal hdays
      refine .inl ⟨e, rfl, ?_⟩
      show (e.toordinal - 1) / 7 = (s.toordinal - 1) / 7 + 1
      omega
    | none =>
      refine .inr ⟨rfl, fun d => ?_⟩
      have hlast : ¬ s.toordinal + 7 ≤ lastOrdinal := fun hle => by
        have hsome := addDays_isSome hle
        rw [hdays] at hsome
        cases hsome
      have hle := (toordinal_le d).2
      show (d.toordinal - 1) / 7 ≤ (s.toordinal - 1) / 7
      omega
  | month =>
    obtain ⟨⟨hyear, hyears⟩, ⟨hmonth, hmonths⟩, -⟩ := s.valid
    dsimp only
    split
    · rename_i hdec
      by_cases hlast : s.year < 9999
      · refine .inl ⟨⟨s.year + 1, 1, 1, by omega, by decide, Nat.le_refl 1, daysInMonth_pos _ _⟩, rfl, ?_⟩
        show 12 * (s.year + 1) + 1 = 12 * s.year + s.month + 1
        omega
      · refine .inr ⟨?_, fun d => ?_⟩
        · rw [show s.year = 9999 by omega]
          decide +kernel
        · have hyear := d.valid.1
          have hmonth := d.valid.2.1
          show 12 * d.year + d.month ≤ 12 * s.year + s.month
          omega
    · refine .inl ⟨⟨s.year, s.month + 1, 1, ⟨hyear, hyears⟩, by omega, Nat.le_refl 1, daysInMonth_pos _ _⟩, rfl, ?_⟩
      show 12 * s.year + (s.month + 1) = 12 * s.year + s.month + 1
      omega
  | year =>
    obtain ⟨⟨hyear, hyears⟩, -⟩ := s.valid
    by_cases hlast : s.year < 9999
    · exact .inl ⟨⟨s.year + 1, 1, 1, by omega, by decide, Nat.le_refl 1, daysInMonth_pos _ _⟩, rfl, rfl⟩
    · refine .inr ⟨?_, fun d => ?_⟩
      · show Period.make .year (pad 4 (s.year + 1)) = none
        rw [show s.year = 9999 by omega]
        decide +kernel
      · have hyear := d.valid.1
        show d.year ≤ s.year
        omega

/-- **The next period** of a kind. -/
theorem next_index (h : p.next = some q) : q.kind = p.kind ∧ q.index = p.index + 1 := by
  rcases next_cases p with ⟨e, he, hindex⟩ | ⟨hnone, -⟩
  · have hq := he.symm.trans h
    exact ⟨(containing_eq_some hq).1, (containing_index hq).trans hindex⟩
  · rw [h] at hnone
    cases hnone

theorem next_isSome (hkind : q.kind = p.kind) (h : p.index < q.index) : p.next.isSome = true := by
  rcases next_cases p with ⟨e, he, -⟩ | ⟨-, hlast⟩
  · obtain ⟨r, hr, -⟩ := containing_spec e p.kind
    rw [he, hr]
    rfl
  · have hle := hlast q.start
    rw [← hkind] at hle
    exact absurd h (Nat.not_lt.mpr hle)

/-- The Thursday of a week is a date. -/
theorem monthOfWeek_isSome (hkind : p.kind = .week) : (monthOfWeek p).isSome = true := by
  have hstarts := p.starts
  rw [hkind] at hstarts
  have hmonday := (isoweek1monday_near p.start.isocalendar.1).1
  have hord := hstarts.1
  have hle := (toordinal_le p.start).2
  have hmax : lastOrdinal = 3652059 := rfl
  obtain ⟨d, hd⟩ := Option.isSome_iff_exists.mp
    (addDays_isSome (show p.start.toordinal + 3 ≤ lastOrdinal by omega))
  obtain ⟨q, hq, -⟩ := containing_spec d .month
  rw [monthOfWeek, hd, Option.bind_some, hq]
  rfl

end Kajet.Collections
