import Kajet.Frontmatter.Yaml

/-!
# Dates, their ordinals and their ISO weeks

* `Date`, `date`             a date of the years 1 to 9999, and the constructor that refuses others;
* `Date.toordinal`           the number of the day, the first of January of the year 1 being 1;
* `ofOrdinal_toordinal`      dates and ordinals up to `lastOrdinal` are the same thing;
* `isocalendar_spec`         the ISO year and week of a date, by the Mondays of the first weeks;
* `fromisocalendar_isocalendar`   the Monday of the week of a date, and that it has the same week.
-/

namespace Kajet.Collections
open Frontmatter (isLeap daysInMonth)

/-! ## dates -/

def ValidDate (year month day : ℕ) : Prop :=
  (1 ≤ year ∧ year ≤ 9999) ∧ (1 ≤ month ∧ month ≤ 12) ∧ 1 ≤ day ∧ day ≤ daysInMonth year month

instance (year month day : ℕ) : Decidable (ValidDate year month day) := inferInstanceAs (Decidable (_ ∧ _ ∧ _ ∧ _))

structure Date where
  year : ℕ
  month : ℕ
  day : ℕ
  valid : ValidDate year month day
deriving DecidableEq

/-- `date(year, month, day)` -/
def date (year month day : ℕ) : Option Date :=
  if h : ValidDate year month day then some ⟨year, month, day, h⟩ else none

/-- The days of the first `month` months. -/
def daysThrough (year : ℕ) : ℕ → ℕ
  | 0 => 0
  | month + 1 => daysThrough year month + daysInMonth year (month + 1)

def daysBeforeYear (year : ℕ) : ℕ := (year - 1) * 365 + (year - 1) / 4 - (year - 1) / 100 + (year - 1) / 400

def lastOrdinal : ℕ := 3652059

namespace Date

def toordinal (d : Date) : ℕ := daysBeforeYear d.year + daysThrough d.year (d.month - 1) + d.day

/-- `d + timedelta(days=1)` -/
def tomorrow (d : Date) : Option Date :=
  date d.year d.month (d.day + 1) <|> date d.year (d.month + 1) 1 <|> date (d.year + 1) 1 1

/-- `d + timedelta(days=n)` -/
def addDays : ℕ → Date → Option Date
  | 0, d => some d
  | n + 1, d => d.tomorrow.bind (addDays n)

end Date

/-- `date.fromordinal`: the days are counted from a first of January before. -/
def ofOrdinal (n : ℕ) : Option Date := do
  let first ← date 1 1 1
  let near := ((date (n * 400 / 146097) 1 1).filter (·.toordinal ≤ n)).getD first
  near.addDays (n - near.toordinal)

/-! ## ISO weeks -/

/-- The Monday of the week with the first Thursday. -/
def isoweek1monday (year : ℕ) : ℕ :=
  let firstday := daysBeforeYear year + 1
  let firstweekday := (firstday + 6) % 7
  if 3 < firstweekday then firstday - firstweekday + 7 else firstday - firstweekday

/-- The ISO year and the week. -/
def Date.isocalendar (d : Date) : ℕ × ℕ :=
  let week1monday := isoweek1monday d.year
  if d.toordinal < week1monday then
    (d.year - 1, (d.toordinal - isoweek1monday (d.year - 1)) / 7 + 1)
  else if 52 ≤ (d.toordinal - week1monday) / 7 ∧ isoweek1monday (d.year + 1) ≤ d.toordinal then (d.year + 1, 1)
  else (d.year, (d.toordinal - week1monday) / 7 + 1)

/-- A year with 53 weeks begins on a Thursday, or on a Wednesday if it is a leap year. -/
def longYear (year : ℕ) : Bool :=
  (daysBeforeYear year + 1) % 7 = 4 || ((daysBeforeYear year + 1) % 7 = 3 && isLeap year)

/-- `date.fromisocalendar(year, week, 1)` -/
def fromisocalendar (year week : ℕ) : Option Date :=
  if (1 ≤ year ∧ year ≤ 9999) ∧ 1 ≤ week ∧ (week < 53 ∨ week = 53 ∧ longYear year) then
    ofOrdinal (isoweek1monday year + 7 * (week - 1))
  else none

variable {d e : Date} {year month day n k : ℕ}

/-! ## ordinals -/

theorem date_eq_some : date year month day = some d ↔ d.year = year ∧ d.month = month ∧ d.day = day := by
  unfold date
  split
  · rename_i h
    rw [Option.some_inj]
    constructor
    · rintro rfl
      exact ⟨rfl, rfl, rfl⟩
    · rintro ⟨rfl, rfl, rfl⟩
      rfl
  · rename_i h
    constructor
    · nofun
    · rintro ⟨rfl, rfl, rfl⟩
      exact (h d.valid).elim

theorem Date.ext (hyear : d.year = e.year) (hmonth : d.month = e.month) (hday : d.day = e.day) : d = e :=
  Option.some.inj ((date_eq_some.mpr ⟨rfl, rfl, rfl⟩).symm.trans (date_eq_some.mpr ⟨hyear.symm, hmonth.symm, hday.symm⟩))

theorem daysInMonth_pos (year month : ℕ) : 1 ≤ daysInMonth year month := by
  unfold daysInMonth
  split <;> split <;> omega

theorem daysThrough_mono {m m' : ℕ} (h : m ≤ m') : daysThrough year m ≤ daysThrough year m' := by
  induction h with
  | refl => exact Nat.le_refl _
  | step _ ih => exact ih.trans (Nat.le_add_right _ _)

theorem daysThrough_twelve (year : ℕ) : daysThrough year 12 = if isLeap year then 366 else 365 := by
  simp only [daysThrough, daysInMonth]
  cases isLeap year <;> rfl

theorem daysBeforeYear_succ (h : 1 ≤ year) :
    daysBeforeYear (year + 1) = daysBeforeYear year + if isLeap year then 366 else 365 := by
  obtain ⟨y, rfl⟩ := Nat.exists_eq_add_of_le' h
  have hle : y / 100 ≤ y / 4 := by omega
  have hcentury : (y + 1) % 100 = 0 → (y + 1) % 4 = 0 := by omega
  have hfour : (y + 1) % 400 = 0 → (y + 1) % 100 = 0 := by omega
  simp only [daysBeforeYear, Nat.add_sub_cancel, Nat.succ_div, Nat.dvd_iff_mod_eq_zero]
  generalize y / 4 = a at hle ⊢
  generalize y / 100 = b at hle ⊢
  generalize y / 400 = c
  by_cases h4 : (y + 1) % 4 = 0
  · by_cases h100 : (y + 1) % 100 = 0
    · by_cases h400 : (y + 1) % 400 = 0
      · simp [isLeap, h4, h100, h400]
        omega
      · simp [isLeap, h4, h100, h400]
        omega
    · have h400 : ¬ (y + 1) % 400 = 0 := fun h => h100 (hfour h)
      simp [isLeap, h4, h100, h400]
      omega
  · have h100 : ¬ (y + 1) % 100 = 0 := fun h => h4 (hcentury h)
    have h400 : ¬ (y + 1) % 400 = 0 := fun h => h100 (hfour h)
    simp [isLeap, h4, h100, h400]
    omega

theorem daysBeforeYear_mono {y y' : ℕ} (h1 : 1 ≤ y) (h : y ≤ y') : daysBeforeYear y ≤ daysBeforeYear y' := by
  induction h with
  | refl => exact Nat.le_refl _
  | step hle ih => exact ih.trans (by rw [Nat.succ_eq_add_one, daysBeforeYear_succ (h1.trans hle)]; exact Nat.le_add_right _ _)

/-- The day within the year. -/
theorem dayOfYear_le (d : Date) : d.month - 1 + 1 = d.month ∧
    daysThrough d.year (d.month - 1) + d.day ≤ daysThrough d.year d.month := by
  obtain ⟨-, ⟨hmonth, -⟩, -, hday⟩ := d.valid
  have hsucc : d.month - 1 + 1 = d.month := by omega
  refine ⟨hsucc, ?_⟩
  rw [← hsucc, daysThrough, Nat.add_sub_cancel, hsucc]
  omega

theorem toordinal_bounds (d : Date) :
    daysBeforeYear d.year < d.toordinal ∧ d.toordinal ≤ daysBeforeYear (d.year + 1) := by
  obtain ⟨⟨hyear, -⟩, ⟨-, hmonth⟩, hday, -⟩ := d.valid
  have hle := (dayOfYear_le d).2.trans (daysThrough_mono hmonth)
  rw [daysThrough_twelve] at hle
  rw [daysBeforeYear_succ hyear, Date.toordinal]
  omega

theorem toordinal_le (d : Date) : 1 ≤ d.toordinal ∧ d.toordinal ≤ lastOrdinal := by
  obtain ⟨hlow, hhigh⟩ := toordinal_bounds d
  obtain ⟨⟨hyear, hlast⟩, -⟩ := d.valid
  have hmax := daysBeforeYear_mono (Nat.le_add_left 1 d.year) (show d.year + 1 ≤ 10000 by omega)
  have hvalue : daysBeforeYear 10000 = lastOrdinal := by decide
  omega

theorem toordinal_year (h : d.toordinal = e.toordinal) : d.year = e.year := by
  obtain ⟨hlow, hhigh⟩ := toordinal_bounds d
  obtain ⟨hlow', hhigh'⟩ := toordinal_bounds e
  rcases Nat.lt_trichotomy d.year e.year with hlt | heq | hlt
  · have := daysBeforeYear_mono (Nat.le_add_left 1 d.year) hlt
    omega
  · exact heq
  · have := daysBeforeYear_mono (Nat.le_add_left 1 e.year) hlt
    omega

theorem toordinal_inj (h : d.toordinal = e.toordinal) : d = e := by
  have hyear := toordinal_year h
  obtain ⟨-, ⟨hmonth, -⟩, hday, -⟩ := d.valid
  obtain ⟨-, ⟨hmonth', -⟩, hday', -⟩ := e.valid
  have hle := dayOfYear_le d
  have hle' := dayOfYear_le e
  rw [Date.toordinal, Date.toordinal, hyear] at h
  rw [hyear] at hle
  have hmonths : d.month = e.month := by
    rcases Nat.lt_trichotomy d.month e.month with hlt | heq | hlt
    · have := @daysThrough_mono e.year _ _ (show d.month ≤ e.month - 1 by omega)
      omega
    · exact heq
    · have := @daysThrough_mono e.year _ _ (show e.month ≤ d.month - 1 by omega)
      omega
  rw [hmonths] at h
  exact Date.ext hyear hmonths (by omega)

/-- The three ways to go on. -/
theorem tomorrow_cases (d : Date) :
    (∃ e, d.tomorrow = some e ∧ e.toordinal = d.toordinal + 1) ∨ d.tomorrow = none ∧ d.toordinal = lastOrdinal := by
  obtain ⟨⟨hyear, hlast⟩, ⟨hmonth, hmonths⟩, hday, hdays⟩ := d.valid
  have hsucc := (dayOfYear_le d).1
  by_cases hend : d.day < daysInMonth d.year d.month
  · have hnext : ValidDate d.year d.month (d.day + 1) := ⟨⟨hyear, hlast⟩, ⟨hmonth, hmonths⟩, by omega, hend⟩
    refine .inl ⟨⟨_, _, _, hnext⟩, ?_, rfl⟩
    rw [Date.tomorrow, date, dif_pos hnext]
    rfl
  · have hno : ¬ ValidDate d.year d.month (d.day + 1) := fun h => hend (by have := h.2.2.2; omega)
    have hthrough : daysThrough d.year d.month = daysThrough d.year (d.month - 1) + d.day := by
      rw [← hsucc, daysThrough, Nat.add_sub_cancel, hsucc]
      omega
    rw [Date.tomorrow, date, dif_neg hno]
    by_cases hdec : d.month < 12
    · have hnext : ValidDate d.year (d.month + 1) 1 :=
        ⟨⟨hyear, hlast⟩, by omega, Nat.le_refl 1, daysInMonth_pos _ _⟩
      refine .inl ⟨⟨_, _, _, hnext⟩, ?_, ?_⟩
      · rw [date, dif_pos hnext]
        rfl
      · show daysBeforeYear d.year + daysThrough d.year d.month + 1 = _
        rw [hthrough, Date.toordinal]
        omega
    · have hno : ¬ ValidDate d.year (d.month + 1) 1 := fun h => hdec (by have := h.2.1.2; omega)
      rw [date, dif_neg hno]
      have htotal : daysBeforeYear (d.year + 1) = d.toordinal := by
        rw [daysBeforeYear_succ hyear, ← daysThrough_twelve, Date.toordinal, show 12 = d.month by omega, hthrough]
        omega
      by_cases hfinal : d.year < 9999
      · have hnext : ValidDate (d.year + 1) 1 1 := ⟨by omega, by omega, Nat.le_refl 1, daysInMonth_pos _ _⟩
        refine .inl ⟨⟨_, _, _, hnext⟩, ?_, ?_⟩
        · rw [date, dif_pos hnext]
          rfl
        · show daysBeforeYear (d.year + 1) + 0 + 1 = _
          rw [htotal]
      · have hno : ¬ ValidDate (d.year + 1) 1 1 := fun h => hfinal (by have := h.1.2; omega)
        refine .inr ⟨?_, ?_⟩
        · rw [date, dif_neg hno]
          rfl
        · rw [← htotal, show d.year = 9999 by omega]
          decide

theorem tomorrow_toordinal (h : d.tomorrow = some e) : e.toordinal = d.toordinal + 1 := by
  rcases tomorrow_cases d with ⟨e', he', hord⟩ | ⟨hnone, -⟩
  · rw [h] at he'
    rwa [Option.some.inj he']
  · rw [h] at hnone
    cases hnone

theorem tomorrow_isSome (h : d.toordinal < lastOrdinal) : d.tomorrow.isSome = true := by
  rcases tomorrow_cases d with ⟨e, he, -⟩ | ⟨-, hlast⟩
  · rw [he]
    rfl
  · omega

theorem addDays_toordinal (h : d.addDays n = some e) : e.toordinal = d.toordinal + n := by
  induction n generalizing d with
  | zero =>
    cases h
    rfl
  | succ n ih =>
    obtain ⟨next, hnext, hrest⟩ := Option.bind_eq_some_iff.mp h
    rw [ih hrest, tomorrow_toordinal hnext]
    omega

theorem addDays_isSome (h : d.toordinal + n ≤ lastOrdinal) : (d.addDays n).isSome = true := by
  induction n generalizing d with
  | zero => rfl
  | succ n ih =>
    obtain ⟨next, hnext⟩ := Option.isSome_iff_exists.mp (tomorrow_isSome (show d.toordinal < lastOrdinal by omega))
    have hord := tomorrow_toordinal hnext
    rw [Date.addDays, hnext, Option.bind_some]
    exact ih (by omega)

theorem ofOrdinal_spec (h1 : 1 ≤ n) (h : n ≤ lastOrdinal) : ∃ d, ofOrdinal n = some d ∧ d.toordinal = n := by
  have hfirst : date 1 1 1 = some ⟨1, 1, 1, by decide⟩ := by decide
  unfold ofOrdinal
  rw [hfirst, Option.bind_eq_bind, Option.bind_some]
  generalize hnear : ((date (n * 400 / 146097) 1 1).filter (·.toordinal ≤ n)).getD ⟨1, 1, 1, by decide⟩ = near
  have hle : near.toordinal ≤ n := by
    rw [← hnear]
    cases hfilter : (date (n * 400 / 146097) 1 1).filter (·.toordinal ≤ n) with
    | none => exact h1
    | some d => exact of_decide_eq_true (Option.filter_eq_some_iff.mp hfilter).2
  obtain ⟨d, hd⟩ := Option.isSome_iff_exists.mp
    (addDays_isSome (show near.toordinal + (n - near.toordinal) ≤ lastOrdinal by omega))
  refine ⟨d, hd, ?_⟩
  rw [addDays_toordinal hd]
  omega

theorem ofOrdinal_toordinal (d : Date) : ofOrdinal d.toordinal = some d := by
  obtain ⟨e, he, hord⟩ := ofOrdinal_spec (toordinal_le d).1 (toordinal_le d).2
  rw [he, toordinal_inj hord]

/-! ## weeks -/

/-- A Monday, at most three days from the first of January. -/
theorem isoweek1monday_near (year : ℕ) : isoweek1monday year % 7 = 1 ∧
    daysBeforeYear year + 1 ≤ isoweek1monday year + 3 ∧ isoweek1monday year ≤ daysBeforeYear year + 4 := by
  unfold isoweek1monday
  dsimp only
  split <;> omega

/-- A year has 52 weeks or 53. -/
theorem isoweek1monday_succ (h : 1 ≤ year) :
    isoweek1monday (year + 1) = isoweek1monday year + if longYear year then 371 else 364 := by
  have hsucc := daysBeforeYear_succ h
  have hlong : longYear year = true ↔ (daysBeforeYear year + 1) % 7 = 4 ∨
      (daysBeforeYear year + 1) % 7 = 3 ∧ isLeap year = true := by
    unfold longYear
    rw [Bool.or_eq_true, Bool.and_eq_true, decide_eq_true_iff, decide_eq_true_iff]
  unfold isoweek1monday
  rw [hsucc]
  generalize daysBeforeYear year = f at hlong ⊢
  cases hleap : isLeap year with
  | true =>
    rw [hleap] at hlong
    simp only [and_true] at hlong
    by_cases hl : longYear year = true
    · have := hlong.mp hl
      simp only [hl, if_true]
      split <;> split <;> omega
    · have := mt hlong.mpr hl
      simp only [hl, if_true, Bool.false_eq_true, if_false]
      split <;> split <;> omega
  | false =>
    rw [hleap] at hlong
    simp only [Bool.false_eq_true, and_false, or_false] at hlong
    by_cases hl : longYear year = true
    · have := hlong.mp hl
      simp only [hl, if_true, Bool.false_eq_true, if_false]
      split <;> split <;> omega
    · have := mt hlong.mpr hl
      simp only [hl, Bool.false_eq_true, if_false]
      split <;> split <;> omega

theorem isoweek1monday_mono {y y' : ℕ} (h1 : 1 ≤ y) (h : y ≤ y') : isoweek1monday y ≤ isoweek1monday y' := by
  induction h with
  | refl => exact Nat.le_refl _
  | step hle ih =>
    rw [Nat.succ_eq_add_one, isoweek1monday_succ (h1.trans hle)]
    exact ih.trans (Nat.le_add_right _ _)

/-- The day is in the week of the year. -/
structure InWeek (ordinal year week : ℕ) : Prop where
  yearPos : 1 ≤ year
  weekPos : 1 ≤ week
  low : isoweek1monday year + 7 * (week - 1) ≤ ordinal
  high : ordinal < isoweek1monday year + 7 * week
  next : ordinal < isoweek1monday (year + 1)

theorem isocalendar_spec (d : Date) : InWeek d.toordinal d.isocalendar.1 d.isocalendar.2 := by
  obtain ⟨hlow, hhigh⟩ := toordinal_bounds d
  obtain ⟨⟨hyear, -⟩, -⟩ := d.valid
  have hnear := isoweek1monday_near d.year
  have hnear' := isoweek1monday_near (d.year + 1)
  have hsucc := isoweek1monday_succ hyear
  unfold Date.isocalendar
  dsimp only
  split
  · rename_i hbefore
    -- the year 1 begins on a Monday
    have hnot : d.year ≠ 1 := by
      intro hone
      rw [hone] at hbefore
      have hmonday : isoweek1monday 1 = 1 := by decide
      omega
    have hprev := isoweek1monday_near (d.year - 1)
    have hyears := daysBeforeYear_succ (show 1 ≤ d.year - 1 by omega)
    rw [show d.year - 1 + 1 = d.year by omega] at hyears
    refine ⟨by omega, by omega, ?_, ?_, ?_⟩
    · show isoweek1monday (d.year - 1) + 7 * ((d.toordinal - isoweek1monday (d.year - 1)) / 7 + 1 - 1) ≤ _
      split at hyears <;> omega
    · show _ < isoweek1monday (d.year - 1) + 7 * ((d.toordinal - isoweek1monday (d.year - 1)) / 7 + 1)
      omega
    · rw [show d.year - 1 + 1 = d.year by omega]
      exact hbefore
  · rename_i hbefore
    have hafter := isoweek1monday_succ (Nat.le_add_left 1 d.year)
    split
    · rename_i hnext
      refine ⟨Nat.le_add_left 1 _, Nat.le_refl 1, by simpa using hnext.2, ?_, ?_⟩
      · show d.toordinal < isoweek1monday (d.year + 1) + 7 * 1
        omega
      · show d.toordinal < isoweek1monday (d.year + 1 + 1)
        split at hafter <;> omega
    · rename_i hnext
      refine ⟨hyear, by omega, ?_, ?_, ?_⟩
      · show isoweek1monday d.year + 7 * ((d.toordinal - isoweek1monday d.year) / 7 + 1 - 1) ≤ d.toordinal
        omega
      · show d.toordinal < isoweek1monday d.year + 7 * ((d.toordinal - isoweek1monday d.year) / 7 + 1)
        omega
      · show d.toordinal < isoweek1monday (d.year + 1)
        by_contra hge
        refine hnext ⟨?_, by omega⟩
        split at hsucc <;> omega

/-- A day is in one week. -/
theorem InWeek.unique {o y w y' w' : ℕ} (h : InWeek o y w) (h' : InWeek o y' w') : y = y' ∧ w = w' := by
  have hlow := h.low
  have hlow' := h'.low
  have hyear : y = y' := by
    rcases Nat.lt_trichotomy y y' with hlt | heq | hlt
    · have := isoweek1monday_mono (Nat.le_add_left 1 y) hlt
      have := h.next
      omega
    · exact heq
    · have := isoweek1monday_mono (Nat.le_add_left 1 y') hlt
      have := h'.next
      omega
  subst hyear
  have := h.high
  have := h'.high
  have := h.weekPos
  have := h'.weekPos
  exact ⟨rfl, by omega⟩

theorem isocalendar_eq (h : InWeek d.toordinal year n) : d.isocalendar = (year, n) := by
  obtain ⟨hyear, hweek⟩ := (isocalendar_spec d).unique h
  exact Prod.ext hyear hweek

/-- The years of the weeks are those of the dates. -/
theorem isocalendar_year_le (d : Date) : d.isocalendar.1 ≤ 9999 := by
  by_contra hlt
  have hspec := isocalendar_spec d
  have := isoweek1monday_mono (by decide : 1 ≤ 10000) (show 10000 ≤ d.isocalendar.1 by omega)
  have hvalue : isoweek1monday 10000 = lastOrdinal + 3 := by decide
  have := (toordinal_le d).2
  have := hspec.low
  omega

theorem isocalendar_week_le (d : Date) : d.isocalendar.2 < 53 ∨ d.isocalendar.2 = 53 ∧ longYear d.isocalendar.1 = true := by
  have hspec := isocalendar_spec d
  have hsucc := isoweek1monday_succ hspec.yearPos
  have := hspec.low
  have := hspec.next
  cases hl : longYear d.isocalendar.1 with
  | true =>
    rw [hl, if_pos rfl] at hsucc
    by_cases h : d.isocalendar.2 < 53
    · exact .inl h
    · exact .inr ⟨by omega, rfl⟩
  | false =>
    rw [hl, if_neg Bool.false_ne_true] at hsucc
    exact .inl (by omega)

/-- **The Monday of the week of a date** is a date of the same week. -/
theorem fromisocalendar_isocalendar (d : Date) : ∃ m, fromisocalendar d.isocalendar.1 d.isocalendar.2 = some m ∧
    m.toordinal = isoweek1monday d.isocalendar.1 + 7 * (d.isocalendar.2 - 1) ∧ m.isocalendar = d.isocalendar := by
  have hspec := isocalendar_spec d
  have hlow := hspec.low
  have hmonday : 1 ≤ isoweek1monday d.isocalendar.1 := by
    have := (isoweek1monday_near d.isocalendar.1).1
    omega
  obtain ⟨m, hm, hord⟩ := ofOrdinal_spec (n := isoweek1monday d.isocalendar.1 + 7 * (d.isocalendar.2 - 1)) (by omega)
    (hlow.trans (toordinal_le d).2)
  have hweek : InWeek m.toordinal d.isocalendar.1 d.isocalendar.2 := by
    have := hspec.weekPos
    have := hspec.next
    exact ⟨hspec.yearPos, hspec.weekPos, by omega, by omega, by omega⟩
  refine ⟨m, ?_, hord, isocalendar_eq hweek⟩
  rw [fromisocalendar, if_pos ⟨⟨hspec.yearPos, isocalendar_year_le d⟩, hspec.weekPos, isocalendar_week_le d⟩]
  exact hm

end Kajet.Collections
