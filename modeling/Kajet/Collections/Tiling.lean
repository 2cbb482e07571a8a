import Kajet.Collections.Keys

/-!
# Periods tile the calendar

* `Period.prev`, `Period.contains`   the rest of the arithmetic of periods;
* `prev_next`                the period before the next one;
* `containing_iff`           a period has the dates from its first day up to the next period;
* `key_lt_key`               keys of one kind order as the first days do;
* `contains_smaller`         what a period contains of smaller kinds;
* `period_tiles`             all of this, for a period that is not the last of its kind.
-/

namespace Kajet.Collections
open Str

/-- `d - timedelta(days=n)` -/
def Date.subDays (n : ℕ) (d : Date) : Option Date := if n < d.toordinal then ofOrdinal (d.toordinal - n) else none

/-- From the smallest to the largest. -/
def PeriodKind.rank : PeriodKind → ℕ
  | .day => 0
  | .week => 1
  | .month => 2
  | .year => 3

def noContainingMonth : Text := "A week has no containing month; use month_of_week().".toList

namespace Period

def prev (p : Period) : Option Period :=
  match p.kind with
  | .day => (p.start.subDays 1).bind fun d => containing d .day
  | .week => (p.start.subDays 7).bind fun d => containing d .week
  | .month =>
    if p.start.month = 1 then make .month (pad 4 (p.start.year - 1) ++ '-' :: pad 2 12)
    else make .month (pad 4 p.start.year ++ '-' :: pad 2 (p.start.month - 1))
  | .year => make .year (pad 4 (p.start.year - 1))

def contains (p other : Period) : Except Text Bool :=
  match p.kind with
  | .day => .ok (other.kind = .day ∧ p = other)
  | .week =>
    .ok (if other.kind = .week then p = other else other.kind = .day ∧ some p = containing other.start .week)
  | .month =>
    if other.kind = .week then .error noContainingMonth
    else if other.kind = .month then .ok (p = other)
    else .ok (other.kind = .day ∧ p.key = other.key.take 7)
  | .year =>
    if other.kind = .year then .ok (p = other)
    -- weeks, months and days alike
    else .ok (p.key = other.key.take 4)

end Period

variable {d e : Date} {kind : PeriodKind} {p q r s : Period} {n : ℕ}

/-! ## the period before -/

theorem subDays_spec (h : n < d.toordinal) : ∃ e, d.subDays n = some e ∧ e.toordinal + n = d.toordinal := by
  have hle := (toordinal_le d).2
  obtain ⟨e, he, hord⟩ := ofOrdinal_spec (show 1 ≤ d.toordinal - n by omega) (by omega)
  refine ⟨e, ?_, by omega⟩
  rw [Date.subDays, if_pos h, he]

/-- The period before is that of a date whose number is one less. -/
theorem prev_eq_containing (h : p.next = some q) :
    ∃ e, q.prev = Period.containing e p.kind ∧ e.index p.kind = p.index := by
  obtain ⟨hkind, hindex⟩ := next_index h
  have hq := q.starts
  have hp := p.starts
  rw [Period.index, Period.index, hkind] at hindex
  rw [hkind] at hq
  unfold Period.prev
  rw [hkind]
  unfold Period.index
  generalize p.kind = kind at hp hq hindex ⊢
  generalize p.start = s at hp hindex ⊢
  generalize q.start = t at hq hindex ⊢
  cases kind with
  | day =>
    have hindex : t.toordinal = s.toordinal + 1 := hindex
    have hpos := (toordinal_le s).1
    obtain ⟨e, he, hord⟩ := subDays_spec (d := t) (n := 1) (by omega)
    refine ⟨e, by rw [he]; rfl, ?_⟩
    show e.toordinal = s.toordinal
    omega
  | week =>
    have hindex : (t.toordinal - 1) / 7 = (s.toordinal - 1) / 7 + 1 := hindex
    obtain ⟨e, he, hord⟩ := subDays_spec (d := t) (n := 7) (by omega)
    refine ⟨e, by rw [he]; rfl, ?_⟩
    show (e.toordinal - 1) / 7 = (s.toordinal - 1) / 7
    omega
  | month =>
    have hindex : 12 * t.year + t.month = 12 * s.year + s.month + 1 := hindex
    obtain ⟨⟨hyear, hyears⟩, ⟨hmonth, hmonths⟩, -⟩ := s.valid
    obtain ⟨⟨hyear', hyears'⟩, ⟨hmonth', hmonths'⟩, -⟩ := t.valid
    dsimp only
    split
    · refine ⟨⟨t.year - 1, 12, 1, by omega, by decide, Nat.le_refl 1, daysInMonth_pos _ _⟩, rfl, ?_⟩
      show 12 * (t.year - 1) + 12 = 12 * s.year + s.month
      omega
    · refine ⟨⟨t.year, t.month - 1, 1, ⟨hyear', hyears'⟩, by omega, Nat.le_refl 1, daysInMonth_pos _ _⟩, rfl, ?_⟩
      show 12 * t.year + (t.month - 1) = 12 * s.year + s.month
      omega
  | year =>
    have hindex : t.year = s.year + 1 := hindex
    obtain ⟨⟨hyear, hyears⟩, -⟩ := s.valid
    refine ⟨⟨t.year - 1, 1, 1, by omega, by decide, Nat.le_refl 1, daysInMonth_pos _ _⟩, rfl, ?_⟩
    show t.year - 1 = s.year
    omega

theorem prev_next (h : p.next = some q) : q.prev = some p := by
  obtain ⟨e, he, hindex⟩ := prev_eq_containing h
  obtain ⟨r, hr, hkind, -⟩ := containing_spec e p.kind
  rw [he, hr, Period.eq_of_index hkind ((containing_index hr).trans hindex)]

/-! ## the dates of a period -/

theorem start_lt_next (h : p.next = some q) : p.start.toordinal < q.start.toordinal := by
  obtain ⟨hkind, hindex⟩ := next_index h
  by_contra hle
  have hmono := index_mono q.kind (Nat.not_lt.mp hle)
  rw [Period.index, Period.index, hkind] at hindex
  rw [hkind] at hmono
  omega

/-- The first day of a period is not after the others. -/
theorem Starts.le {s : Date} (h : Starts d s kind) : s.toordinal ≤ d.toordinal := by
  cases kind with
  | day => rw [show s = d from h]
  | week =>
    rw [h.1]
    exact (isocalendar_spec d).low
  | month =>
    have hday := d.valid.2.2.1
    rw [Date.toordinal, Date.toordinal, h.1, h.2.1, h.2.2]
    omega
  | year =>
    have hlow := (toordinal_bounds d).1
    have hnone : daysThrough d.year 0 = 0 := rfl
    rw [Date.toordinal, h.1, h.2.1, h.2.2, Nat.sub_self]
    omega

/-- **The dates of a period** go from its first day to the day before the next period. -/
theorem containing_iff (h : p.next = some q) :
    Period.containing d p.kind = some p ↔ p.start.toordinal ≤ d.toordinal ∧ d.toordinal < q.start.toordinal := by
  obtain ⟨hkind, hindex⟩ := next_index h
  obtain ⟨r, hr, hrkind, -, hstarts⟩ := containing_spec d p.kind
  have hrindex := containing_index hr
  have hle := hstarts.le
  constructor
  · intro hp
    rw [hr] at hp
    cases hp
    refine ⟨hle, ?_⟩
    by_contra hlate
    have hmono : q.index ≤ d.index p.kind := by
      rw [Period.index, hkind]
      exact index_mono p.kind (Nat.not_lt.mp hlate)
    omega
  · rintro ⟨hlow, hhigh⟩
    have hge : p.index ≤ d.index p.kind := index_mono p.kind hlow
    have hupto : r.index ≤ q.index := by
      rw [Period.index, Period.index, hrkind, hkind]
      exact index_mono p.kind (by omega)
    have hnot : r.index ≠ q.index := fun hsame => by
      rw [Period.eq_of_index (hrkind.trans hkind.symm) hsame] at hle
      omega
    rw [hr, Period.eq_of_index hrkind (show r.index = p.index by omega)]

/-! ## the order of the keys -/

theorem key_lt_of_start (hkind : p.kind = q.kind) (h : p.start.toordinal < q.start.toordinal) : p.key < q.key := by
  have hp := p.starts
  have hq := q.starts
  rw [← hkind] at hq
  rw [← p.formatted, ← q.formatted, ← hkind]
  generalize p.kind = kind at hp hq ⊢
  generalize p.start = s at hp h ⊢
  generalize q.start = t at hq h ⊢
  have hlex := toordinal_lt.mp h
  cases kind with
  | day => exact isoformat_lt.mpr h
  | week =>
    have hweek := isocalendar_spec s
    have hweek' := isocalendar_spec t
    have hyear : s.isocalendar.1 ≤ t.isocalendar.1 := by
      by_contra hlt
      have hmono := isoweek1monday_mono (Nat.le_add_left 1 _) (show t.isocalendar.1 + 1 ≤ s.isocalendar.1 by omega)
      have hlow := hweek.low
      have hnext := hweek'.next
      omega
    refine (pad_append_lt (isoweek_lt s).1 (isoweek_lt t).1).mpr ?_
    rcases Nat.lt_or_eq_of_le hyear with hlt | heq
    · exact .inl hlt
    · have hord := hp.1
      have hord' := hq.1
      rw [heq] at hord
      have hless := pad_append_lt (s := []) (t := []) (isoweek_lt s).2 (isoweek_lt t).2
      rw [List.append_nil, List.append_nil] at hless
      refine .inr ⟨heq, ?_⟩
      rw [List.cons_lt_cons_iff, List.cons_lt_cons_iff, hless]
      exact .inr ⟨rfl, .inr ⟨rfl, .inl (by omega)⟩⟩
  | month =>
    refine (pad_append_lt (year_lt s) (year_lt t)).mpr ?_
    rcases hlex with hlt | ⟨heq, hlt | ⟨-, hday⟩⟩
    · exact .inl hlt
    · have hless := pad_append_lt (s := []) (t := []) (month_lt s) (month_lt t)
      rw [List.append_nil, List.append_nil] at hless
      refine .inr ⟨heq, ?_⟩
      rw [List.cons_lt_cons_iff, hless]
      exact .inr ⟨rfl, .inl hlt⟩
    · exact absurd hday (by rw [hp.2.2, hq.2.2]; exact Nat.lt_irrefl 1)
  | year =>
    have hless := pad_append_lt (s := []) (t := []) (year_lt s) (year_lt t)
    rw [List.append_nil, List.append_nil] at hless
    refine hless.mpr ?_
    rcases hlex with hlt | ⟨-, hrest⟩
    · exact .inl hlt
    · rw [hp.2.1, hq.2.1, hp.2.2, hq.2.2] at hrest
      omega

/-- **Keys of one kind** order as the first days of the periods. -/
theorem key_lt_key (hkind : p.kind = q.kind) : p.key < q.key ↔ p.start.toordinal < q.start.toordinal := by
  refine ⟨fun hlt => ?_, key_lt_of_start hkind⟩
  by_contra hnot
  rcases Nat.lt_or_eq_of_le (Nat.not_lt.mp hnot) with hback | hsame
  · exact List.lt_asymm hlt (key_lt_of_start hkind.symm hback)
  · have hkeys : p.key = q.key := by rw [← p.formatted, ← q.formatted, toordinal_inj hsame, hkind]
    rw [hkeys] at hlt
    exact List.lt_irrefl _ hlt

/-! ## what a period contains -/

theorem containing_eq_some_iff : Period.containing d p.kind = some p ↔ p.key = formatKey d p.kind :=
  make_eq_some.trans (and_iff_right rfl)

/-- The part of the key of a smaller period that is compared. -/
theorem key_take (hkind : q.kind = .day ∨ q.kind = .month) : q.key.take 4 = formatKey q.start .year := by
  rw [← q.formatted]
  rcases hkind with h | h
  all_goals
    rw [h]
    exact List.take_left' (length_pad 4 _)

theorem day_key_take (hkind : q.kind = .day) : q.key.take 7 = formatKey q.start .month := by
  rw [← q.formatted, hkind]
  show (pad 4 q.start.year ++ '-' :: (pad 2 q.start.month ++ '-' :: pad 2 q.start.day)).take 7 = _
  rw [← List.cons_append, ← List.append_assoc]
  exact List.take_left' (by simp [length_pad])

theorem week_key_take (hkind : q.kind = .week) : q.key.take 4 = pad 4 q.start.isocalendar.1 := by
  rw [← q.formatted, hkind]
  exact List.take_left' (length_pad 4 _)

/-- A period of a smaller kind is contained when its first day is in the period, and a week in its year of weeks. -/
theorem contains_smaller (h : p.next = some q) (hrank : r.kind.rank < p.kind.rank) :
    if p.kind = .month ∧ r.kind = .week then p.contains r = .error noContainingMonth
    else ∃ answer, p.contains r = .ok answer ∧ (answer = true ↔
      if r.kind = .week then r.start.isocalendar.1 = p.start.year
      else p.start.toordinal ≤ r.start.toordinal ∧ r.start.toordinal < q.start.toordinal) := by
  rw [← containing_iff h, containing_eq_some_iff]
  cases hp : p.kind with
  | day =>
    rw [hp] at hrank
    exact absurd hrank (Nat.not_lt_zero _)
  | week =>
    have hr : r.kind = .day := by
      cases hr : r.kind <;> rw [hp, hr] at hrank <;> first | rfl | exact absurd hrank (by decide)
    rw [if_neg (fun hboth => by cases hboth.1), if_neg (by rw [hr]; decide)]
    refine ⟨decide (r.kind = .day ∧ some p = Period.containing r.start .week), ?_, ?_⟩
    · rw [Period.contains, hp]
      simp only [hr, reduceCtorEq, if_false]
    · rw [decide_eq_true_iff, ← hp, eq_comm (a := some p), containing_eq_some_iff]
      exact and_iff_right hr
  | month =>
    by_cases hr : r.kind = .week
    · rw [if_pos ⟨rfl, hr⟩, Period.contains, hp]
      exact if_pos hr
    · have hday : r.kind = .day := by
        cases hr' : r.kind <;> rw [hp, hr'] at hrank <;> first | rfl | exact absurd hrank (by decide) | exact absurd hr' hr
      rw [if_neg (fun hboth => hr hboth.2), if_neg hr]
      refine ⟨decide (r.kind = .day ∧ p.key = r.key.take 7), ?_, ?_⟩
      · rw [Period.contains, hp]
        simp only [hday, if_false, reduceCtorEq]
      · rw [decide_eq_true_iff, day_key_take hday]
        exact and_iff_right hday
  | year =>
    have hnot : r.kind ≠ .year := fun hr => by
      rw [hp, hr] at hrank
      exact absurd hrank (by decide)
    rw [if_neg (fun hboth => by cases hboth.1)]
    refine ⟨decide (p.key = r.key.take 4), ?_, ?_⟩
    · rw [Period.contains, hp]
      exact if_neg hnot
    · rw [decide_eq_true_iff]
      have hkey := p.formatted
      rw [hp] at hkey
      split
      · rename_i hr
        rw [week_key_take hr, ← hkey]
        constructor
        · intro hsame
          exact (pad_inj (year_lt _) (isoweek_lt _).1 hsame).symm
        · intro hsame
          rw [hsame]
          rfl
      · rename_i hr
        rw [key_take (by cases hk : r.kind <;> simp_all)]

/-! ## the periods of a kind -/

theorem period_tiles (h : p.next = some q) :
    q.prev = some p ∧ p.start.toordinal < q.start.toordinal ∧
    (∀ d, Period.containing d p.kind = some p ↔
      p.start.toordinal ≤ d.toordinal ∧ d.toordinal < q.start.toordinal) ∧
    parsePeriodKey p.key = some p ∧
    (∀ r s : Period, r.kind = p.kind → s.kind = p.kind →
      (r.key < s.key ↔ r.start.toordinal < s.start.toordinal)) ∧
    ∀ r : Period, r.kind.rank < p.kind.rank →
      if p.kind = .month ∧ r.kind = .week then p.contains r = .error noContainingMonth
      else ∃ answer, p.contains r = .ok answer ∧ (answer = true ↔
        if r.kind = .week then r.start.isocalendar.1 = p.start.year
        else p.start.toordinal ≤ r.start.toordinal ∧ r.start.toordinal < q.start.toordinal) :=
  ⟨prev_next h, start_lt_next h, fun _ => containing_iff h, parsePeriodKey_key p,
    fun _ _ hr hs => key_lt_key (hr.trans hs.symm), fun _ hrank => contains_smaller h hrank⟩

/-- The month before the last one: it is tiled by its days. -/
theorem period_tiles_november : ∃ p q : Period, p.key = "9999-11".toList ∧ q.key = "9999-12".toList ∧
    q.prev = some p ∧ ∀ d, Period.containing d .month = some p ↔
      p.start.toordinal ≤ d.toordinal ∧ d.toordinal < q.start.toordinal := by
  obtain ⟨p, hp, hnext⟩ := Option.bind_eq_some_iff.mp (show ((parsePeriodKey "9999-11".toList).bind fun p =>
    p.next.map (·.key)) = some "9999-12".toList by decide +kernel)
  obtain ⟨q, hq, hkey⟩ := Option.map_eq_some_iff.mp hnext
  have hkind : p.kind = .month := kind_of_formatKey (d := ⟨9999, 11, 1, by decide⟩)
    ((key_of_parsePeriodKey hp).trans (by decide +kernel))
  obtain ⟨hprev, -, hdates, -⟩ := period_tiles hq
  rw [hkind] at hdates
  exact ⟨p, q, key_of_parsePeriodKey hp, hkey, hprev, hdates⟩

/-- The first week of 2026 begins in 2025, and is not contained in 2025; no month is asked about a week. -/
theorem contains_week_2026 :
    ((parsePeriodKey "2025".toList).bind fun p => (parsePeriodKey "2026-W01".toList).bind fun w =>
      p.next.map fun q => (decide (w.kind.rank < p.kind.rank),
        decide (p.start.toordinal ≤ w.start.toordinal ∧ w.start.toordinal < q.start.toordinal),
        (p.contains w).toOption)) = some (true, true, some false) ∧
    ((parsePeriodKey "2026-01".toList).bind fun p => (parsePeriodKey "2026-W02".toList).bind fun w =>
      p.next.map fun q => (decide (w.kind.rank < p.kind.rank),
        decide (p.start.toordinal ≤ w.start.toordinal ∧ w.start.toordinal < q.start.toordinal),
        (p.contains w).toOption)) = some (true, true, none) := by
  constructor <;> decide +kernel

end Kajet.Collections
