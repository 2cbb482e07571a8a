import Kajet.Collections.Period
import Kajet.Frontmatter.Temporal

/-!
# Keys in the database

Rows store dates and periods as texts.

* `parsePeriodKey`          the period of a key;
* `isoformat_lt`            dates compare as their texts do;
* `exists_date`, `exists_period`   a text that the write path admits is a date, or the key of a period;
* `next_eq_none_iff`        the last period of each kind.
-/

namespace Kajet.Collections
open Str
open Frontmatter (digits isoDate isoWeek isoMonth isoYear daysInMonth weeksInYear lastWeekday isLeap)

/-- `parse_period_key` -/
def parsePeriodKey (key : Text) : Option Period :=
  if key.length = 10 then Period.make .day key
  else if key.length = 8 ∧ (key.drop 4).take 2 = ['-', 'W'] then Period.make .week key
  else if key.length = 7 then Period.make .month key
  else if key.length = 4 then Period.make .year key
  else none

/-- The keys of the periods that end with the calendar. -/
def lastKeys : List Text := ["9999-12-31".toList, "9999-W52".toList, "9999-12".toList, "9999".toList]

variable {d e : Date} {kind : PeriodKind} {p q : Period} {w n m year week : ℕ} {key s t : Text}

/-! ## the order of the texts -/

theorem digitChar_lt : ∀ k < 10, ∀ l < 10, Nat.digitChar k < Nat.digitChar l ↔ k < l := by decide

theorem digitChar_inj : ∀ k < 10, ∀ l < 10, Nat.digitChar k = Nat.digitChar l → k = l := by decide

/-- Numbers of one width compare as their digits do. -/
theorem pad_append_lt (hn : n < 10 ^ w) (hm : m < 10 ^ w) : pad w n ++ s < pad w m ++ t ↔ n < m ∨ n = m ∧ s < t := by
  induction w generalizing n m s t with
  | zero =>
    rw [Nat.lt_one_iff.mp hn, Nat.lt_one_iff.mp hm]
    simp [pad]
  | succ w ih =>
    have hdigit := digitChar_lt (n % 10) (Nat.mod_lt n (by decide)) (m % 10) (Nat.mod_lt m (by decide))
    have hsame : Nat.digitChar (n % 10) = Nat.digitChar (m % 10) ↔ n % 10 = m % 10 :=
      ⟨digitChar_inj _ (Nat.mod_lt n (by decide)) _ (Nat.mod_lt m (by decide)), congrArg Nat.digitChar⟩
    rw [pad, pad, List.append_assoc, List.append_assoc, List.singleton_append, List.singleton_append,
      ih (by omega) (by omega), List.cons_lt_cons_iff, hdigit, hsame]
    by_cases hst : s < t
    · simp only [hst, and_true]
      omega
    · simp only [hst, and_false, or_false]
      omega

/-- Dates compare by year, month and day. -/
theorem toordinal_lt : d.toordinal < e.toordinal ↔
    d.year < e.year ∨ d.year = e.year ∧ (d.month < e.month ∨ d.month = e.month ∧ d.day < e.day) := by
  have hforward : ∀ {d e : Date}, (d.year < e.year ∨ d.year = e.year ∧ (d.month < e.month ∨ d.month = e.month ∧
      d.day < e.day)) → d.toordinal < e.toordinal := by
    intro d e h
    by_contra hle
    have hmonths : 12 * e.year + e.month ≤ 12 * d.year + d.month := index_mono .month (Nat.not_lt.mp hle)
    have hmonth := d.valid.2.1
    have hmonth' := e.valid.2.1
    rcases h with h | ⟨hyear, h | ⟨hsame, hday⟩⟩
    · omega
    · omega
    · rw [Date.toordinal, Date.toordinal, hyear, hsame] at hle
      omega
  constructor
  · intro h
    by_contra hnot
    by_cases heq : d.year = e.year ∧ d.month = e.month ∧ d.day = e.day
    · rw [Date.ext heq.1 heq.2.1 heq.2.2] at h
      exact Nat.lt_irrefl _ h
    · have hback := hforward (d := e) (e := d) (by omega)
      omega
  · exact hforward

theorem isoformat_lt : d.isoformat < e.isoformat ↔ d.toordinal < e.toordinal := by
  rw [toordinal_lt, Date.isoformat, Date.isoformat, pad_append_lt (year_lt d) (year_lt e), List.cons_lt_cons_iff,
    pad_append_lt (month_lt d) (month_lt e), List.cons_lt_cons_iff]
  have hday := pad_append_lt (s := []) (t := []) (day_lt d) (day_lt e)
  rw [List.append_nil, List.append_nil] at hday
  rw [hday]
  simp

theorem isoformat_inj (h : d.isoformat = e.isoformat) : d = e := by
  have hparsed := fromisoformat_isoformat d
  rw [h, fromisoformat_isoformat e] at hparsed
  exact (Option.some.inj hparsed).symm

/-! ## what the write path admits -/

theorem year_le (h : n < 10 ^ 4) : n ≤ 9999 := by omega

/-- Digits are the number that they are read as. -/
theorem pad_digits (h : digits t = some n) (hw : t.length = w) : n < 10 ^ w ∧ pad w n = t := by
  subst hw
  unfold digits at h
  split at h
  · rename_i hdigits
    have hall := List.all_eq_true.mp hdigits.2
    rw [← Option.some.inj h]
    clear h hdigits
    induction t using List.reverseRecOn with
    | nil => exact ⟨by decide, rfl⟩
    | append_singleton t c ih =>
      obtain ⟨hlt, hpad⟩ := ih fun c hc => hall c (List.mem_append_left _ hc)
      have hc : '0'.toNat ≤ c.toNat ∧ c.toNat ≤ '9'.toNat :=
        Char.isDigit_iff_toNat.mp (hall c (List.mem_append_right _ List.mem_cons_self))
      have hzero : '0'.toNat = 48 := rfl
      have hnine : '9'.toNat = 57 := rfl
      rw [List.foldl_append, List.foldl_cons, List.foldl_nil, List.length_append, List.length_singleton, Nat.pow_succ]
      generalize t.foldl (fun n c => 10 * n + (c.toNat - '0'.toNat)) 0 = k at hlt hpad ⊢
      refine ⟨by omega, ?_⟩
      rw [pad, show (10 * k + (c.toNat - '0'.toNat)) / 10 = k by omega, hpad,
        show (10 * k + (c.toNat - '0'.toNat)) % 10 = c.toNat - 48 by omega]
      refine congrArg (fun c => t ++ [c]) ?_
      apply Char.toNat_inj.mp
      rw [Nat.toNat_digitChar_of_lt_ten (by omega)]
      omega
  · cases h

theorem exists_date (h : isoDate t = true) : ∃ d : Date, d.isoformat = t := by
  unfold isoDate at h
  split at h
  · rename_i a b c d e f g k
    split at h
    · rename_i year month day hyear hmonth hday
      simp only [Bool.and_eq_true, decide_eq_true_eq] at h
      obtain ⟨⟨⟨⟨hy, hm⟩, hm'⟩, hd⟩, hd'⟩ := h
      obtain ⟨hlt, hpady⟩ := pad_digits (w := 4) hyear rfl
      obtain ⟨-, hpadm⟩ := pad_digits (w := 2) hmonth rfl
      obtain ⟨-, hpadd⟩ := pad_digits (w := 2) hday rfl
      refine ⟨⟨year, month, day, ⟨hy, year_le hlt⟩, ⟨hm, hm'⟩, hd, hd'⟩, ?_⟩
      show pad 4 year ++ '-' :: (pad 2 month ++ '-' :: pad 2 day) = _
      rw [hpady, hpadm, hpadd]
      rfl
    · cases h
  · cases h

/-- Years begin on a Monday after a Sunday. -/
theorem lastWeekday_eq (year : ℕ) : lastWeekday year = daysBeforeYear (year + 1) % 7 := by
  unfold lastWeekday daysBeforeYear
  rw [Nat.add_sub_cancel]
  omega

/-- The two ways to find the long years agree. -/
theorem weeksInYear_eq (h : 1 ≤ year) : weeksInYear year = if longYear year then 53 else 52 := by
  have hlong : (lastWeekday year = 4 ∨ lastWeekday (year - 1) = 3) ↔ longYear year = true := by
    rw [longYear, Bool.or_eq_true, Bool.and_eq_true, decide_eq_true_eq, decide_eq_true_eq, lastWeekday_eq,
      lastWeekday_eq, Nat.sub_add_cancel h, daysBeforeYear_succ h]
    cases isLeap year <;> simp <;> omega
  unfold weeksInYear
  by_cases hl : longYear year = true
  · rw [if_pos (hlong.mpr hl), if_pos hl]
  · rw [if_neg (mt hlong.mp hl), if_neg hl]

/-- The Monday of each week of a year. -/
theorem exists_monday (hyear : 1 ≤ year ∧ year ≤ 9999) (hweek : 1 ≤ week ∧ week ≤ weeksInYear year) :
    ∃ d : Date, d.isocalendar = (year, week) := by
  rw [weeksInYear_eq hyear.1] at hweek
  have hsucc := isoweek1monday_succ hyear.1
  have hnear := (isoweek1monday_near year).1
  have hmax := isoweek1monday_mono (Nat.le_add_left 1 year) (show year + 1 ≤ 10000 by omega)
  have hvalue : isoweek1monday 10000 = lastOrdinal + 3 := by decide
  have hweeks : week * 7 ≤ if longYear year then 371 else 364 := by
    split at hweek <;> split <;> omega
  obtain ⟨d, -, hd⟩ := ofOrdinal_spec (show 1 ≤ isoweek1monday year + 7 * (week - 1) by omega)
    (show isoweek1monday year + 7 * (week - 1) ≤ lastOrdinal by omega)
  refine ⟨d, isocalendar_eq ⟨hyear.1, hweek.1, ?_, ?_, ?_⟩⟩
  all_goals rw [hd]
  · omega
  · rw [hsucc]
    omega

theorem exists_year (h : isoYear t = true) : ∃ d : Date, formatKey d .year = t := by
  unfold isoYear at h
  split at h
  · split at h
    · rename_i year hnumber
      obtain ⟨hlt, hpad⟩ := pad_digits (w := 4) hnumber rfl
      exact ⟨⟨year, 1, 1, ⟨of_decide_eq_true h, year_le hlt⟩, by decide, Nat.le_refl 1, daysInMonth_pos _ _⟩, hpad⟩
    · cases h
  · cases h

theorem exists_of_formatKey (kind : PeriodKind) (h : formatKey d kind = key) : ∃ r : Period, r.key = key := by
  obtain ⟨r, -, -, hkey, -⟩ := containing_spec d kind
  exact ⟨r, hkey.trans h⟩

theorem exists_period (h : Frontmatter.parsePeriodKey key ≠ none) : ∃ r : Period, r.key = key := by
  unfold Frontmatter.parsePeriodKey at h
  split at h
  · rename_i hkey
    simp only [Bool.or_eq_true] at hkey
    obtain ((hday | hweek) | hmonth) | hyear := hkey
    · obtain ⟨d, hd⟩ := exists_date hday
      exact exists_of_formatKey .day hd
    · unfold isoWeek at hweek
      split at hweek
      · split at hweek
        · rename_i year week hyear hnumber
          simp only [Bool.and_eq_true, decide_eq_true_eq] at hweek
          obtain ⟨hlt, hpady⟩ := pad_digits (w := 4) hyear rfl
          obtain ⟨-, hpadw⟩ := pad_digits (w := 2) hnumber rfl
          obtain ⟨d, hd⟩ := exists_monday ⟨hweek.1.1, year_le hlt⟩ ⟨hweek.1.2, hweek.2⟩
          refine exists_of_formatKey (d := d) .week ?_
          rw [formatKey, hd]
          show pad 4 year ++ '-' :: 'W' :: pad 2 week = _
          rw [hpady, hpadw]
          rfl
        · cases hweek
      · cases hweek
    · unfold isoMonth at hmonth
      split at hmonth
      · split at hmonth
        · rename_i year month hyear hnumber
          simp only [Bool.and_eq_true, decide_eq_true_eq] at hmonth
          obtain ⟨hlt, hpady⟩ := pad_digits (w := 4) hyear rfl
          obtain ⟨-, hpadm⟩ := pad_digits (w := 2) hnumber rfl
          refine exists_of_formatKey .month (d := ⟨year, month, 1, ⟨hmonth.1.1, year_le hlt⟩,
            ⟨hmonth.1.2, hmonth.2⟩, Nat.le_refl 1, daysInMonth_pos _ _⟩) ?_
          show pad 4 year ++ '-' :: pad 2 month = _
          rw [hpady, hpadm]
          rfl
        · cases hmonth
      · cases hmonth
    · obtain ⟨d, hd⟩ := exists_year hyear
      exact exists_of_formatKey .year hd
  · exact absurd rfl h

/-! ## the period of a key -/

/-- A key says of which kind it is. -/
theorem parsePeriodKey_key (p : Period) : parsePeriodKey p.key = some p := by
  have hmake : Period.make p.kind p.key = some p := make_eq_some.mpr ⟨rfl, rfl⟩
  have hkey := p.formatted
  unfold parsePeriodKey
  generalize p.start = s at hkey
  cases hkind : p.kind with
  | day =>
    rw [hkind] at hkey hmake
    rw [if_pos (by rw [← hkey]; simp [formatKey, Date.isoformat, length_pad]), hmake]
  | week =>
    rw [hkind] at hkey hmake
    have hlength : p.key.length = 8 := by
      rw [← hkey]
      simp [formatKey, length_pad]
    have hsep : (p.key.drop 4).take 2 = ['-', 'W'] := by
      rw [← hkey, formatKey, List.drop_left' (length_pad 4 _)]
      rfl
    rw [if_neg (by omega), if_pos ⟨hlength, hsep⟩, hmake]
  | month =>
    rw [hkind] at hkey hmake
    have hlength : p.key.length = 7 := by
      rw [← hkey]
      simp [formatKey, length_pad]
    rw [if_neg (by omega), if_neg (by omega), if_pos hlength, hmake]
  | year =>
    rw [hkind] at hkey hmake
    have hlength : p.key.length = 4 := by
      rw [← hkey]
      simp [formatKey, length_pad]
    rw [if_neg (by omega), if_neg (by omega), if_neg (by omega), if_pos hlength, hmake]

theorem key_of_parsePeriodKey (h : parsePeriodKey key = some p) : p.key = key := by
  unfold parsePeriodKey at h
  split at h
  · exact (make_eq_some.mp h).2
  split at h
  · exact (make_eq_some.mp h).2
  split at h
  · exact (make_eq_some.mp h).2
  split at h
  · exact (make_eq_some.mp h).2
  · cases h

theorem key_inj (h : p.key = q.key) : p = q := by
  have hparsed := parsePeriodKey_key p
  rw [h, parsePeriodKey_key] at hparsed
  exact (Option.some.inj hparsed).symm

theorem kind_of_formatKey (h : p.key = formatKey d kind) : p.kind = kind := by
  obtain ⟨r, -, hkind, hkey, -⟩ := containing_spec d kind
  rw [key_inj (h.trans hkey.symm), hkind]

/-! ## the keys that the frontmatter takes -/

section
variable {a b c d e f g h : Char} {year month week day : ℕ}

theorem isoDate_digits (hyear : digits [a, b, c, d] = some year) (hmonth : digits [e, f] = some month)
    (hday : digits [g, h] = some day) : isoDate [a, b, c, d, '-', e, f, '-', g, h] =
      (1 ≤ year && 1 ≤ month && month ≤ 12 && 1 ≤ day && day ≤ daysInMonth year month) := by
  simp only [isoDate, hyear, hmonth, hday]

theorem isoWeek_digits (hyear : digits [a, b, c, d] = some year) (hweek : digits [e, f] = some week) :
    isoWeek [a, b, c, d, '-', 'W', e, f] = (1 ≤ year && 1 ≤ week && week ≤ weeksInYear year) := by
  simp only [isoWeek, hyear, hweek]

theorem isoMonth_digits (hyear : digits [a, b, c, d] = some year) (hmonth : digits [e, f] = some month) :
    isoMonth [a, b, c, d, '-', e, f] = (1 ≤ year && 1 ≤ month && month ≤ 12) := by
  simp only [isoMonth, hyear, hmonth]

theorem isoYear_digits (hyear : digits [a, b, c, d] = some year) : isoYear [a, b, c, d] = decide (1 ≤ year) := by
  simp only [isoYear, hyear]

end

theorem isoDate_isoformat (d : Date) : isoDate d.isoformat = true := by
  obtain ⟨⟨hyear, -⟩, ⟨hmonth, hmonths⟩, hday, hdays⟩ := d.valid
  have hdigits : isoDate d.isoformat = (1 ≤ d.year && 1 ≤ d.month && d.month ≤ 12 && 1 ≤ d.day &&
      d.day ≤ daysInMonth d.year d.month) :=
    isoDate_digits (digits_pad (by decide) (year_lt d)) (digits_pad (by decide) (month_lt d))
      (digits_pad (by decide) (day_lt d))
  simp [hdigits, hyear, hmonth, hmonths, hday, hdays]

theorem isoWeek_formatKey (d : Date) : isoWeek (formatKey d .week) = true := by
  have hspec := isocalendar_spec d
  have hdigits : isoWeek (formatKey d .week) = (1 ≤ d.isocalendar.1 && 1 ≤ d.isocalendar.2 &&
      d.isocalendar.2 ≤ weeksInYear d.isocalendar.1) :=
    isoWeek_digits (digits_pad (by decide) (isoweek_lt d).1) (digits_pad (by decide) (isoweek_lt d).2)
  have hweek : d.isocalendar.2 ≤ weeksInYear d.isocalendar.1 := by
    rw [weeksInYear_eq hspec.yearPos]
    rcases isocalendar_week_le d with h | ⟨h, hlong⟩
    · split <;> omega
    · rw [hlong, if_pos rfl]
      omega
  simp [hdigits, hspec.yearPos, hspec.weekPos, hweek]

theorem isoMonth_formatKey (d : Date) : isoMonth (formatKey d .month) = true := by
  obtain ⟨⟨hyear, -⟩, ⟨hmonth, hmonths⟩, -⟩ := d.valid
  have hdigits : isoMonth (formatKey d .month) = (1 ≤ d.year && 1 ≤ d.month && d.month ≤ 12) :=
    isoMonth_digits (digits_pad (by decide) (year_lt d)) (digits_pad (by decide) (month_lt d))
  simp [hdigits, hyear, hmonth, hmonths]

theorem isoYear_formatKey (d : Date) : isoYear (formatKey d .year) = true := by
  have hdigits : isoYear (formatKey d .year) = decide (1 ≤ d.year) :=
    isoYear_digits (digits_pad (by decide) (year_lt d))
  simp [hdigits, d.valid.1.1]

/-- The kind of a period, as the shape of its key. -/
theorem isoDate_key : isoDate p.key = true ↔ p.kind = .day := by
  constructor
  · intro h
    obtain ⟨d, hd⟩ := exists_date h
    exact kind_of_formatKey (d := d) hd.symm
  · intro h
    have hkey := p.formatted
    rw [h] at hkey
    rw [← hkey]
    exact isoDate_isoformat p.start

theorem isoYear_key : isoYear p.key = true ↔ p.kind = .year := by
  constructor
  · intro h
    obtain ⟨d, hd⟩ := exists_year h
    exact kind_of_formatKey hd.symm
  · intro h
    have hkey := p.formatted
    rw [h] at hkey
    rw [← hkey]
    exact isoYear_formatKey p.start

theorem frontmatter_key (p : Period) : Frontmatter.parsePeriodKey p.key = some p.key := by
  have hkey : (isoDate p.key || isoWeek p.key || isoMonth p.key || isoYear p.key) = true := by
    rw [← p.formatted]
    cases p.kind with
    | day => rw [show formatKey p.start .day = p.start.isoformat from rfl, isoDate_isoformat]; rfl
    | week => rw [isoWeek_formatKey, Bool.or_true]; rfl
    | month => rw [isoMonth_formatKey, Bool.or_true]; rfl
    | year => rw [isoYear_formatKey, Bool.or_true]
  rw [Frontmatter.parsePeriodKey, if_pos hkey]

/-- The two parsers of a key agree. -/
theorem frontmatter_parsePeriodKey (t : Text) :
    Frontmatter.parsePeriodKey t = (parsePeriodKey t).map Period.key := by
  cases h : parsePeriodKey t with
  | some p => rw [← key_of_parsePeriodKey h, frontmatter_key]; rfl
  | none =>
    refine Option.eq_none_iff_forall_ne_some.mpr fun key hkey => ?_
    obtain ⟨r, rfl⟩ := exists_period (show Frontmatter.parsePeriodKey t ≠ none by rw [hkey]; nofun)
    rw [parsePeriodKey_key] at h
    cases h

/-! ## the last periods -/

theorem lastKeys_next : ∀ key ∈ lastKeys, (parsePeriodKey key).bind Period.next = none := by decide +kernel

/-- **The last period of each kind**, and no other, has no next one. -/
theorem next_eq_none_iff : p.next = none ↔ p.key ∈ lastKeys := by
  constructor
  · intro hnone
    let last : Date := ⟨9999, 12, 31, by decide⟩
    obtain ⟨r, hr, hkind, hkey, -⟩ := containing_spec last p.kind
    have hle : last.index p.kind ≤ p.index := by
      rcases next_cases p with ⟨e, he, -⟩ | ⟨-, hlast⟩
      · obtain ⟨q, hq, -⟩ := containing_spec e p.kind
        rw [he, hq] at hnone
        cases hnone
      · exact hlast last
    have hord : last.toordinal = lastOrdinal := by decide
    have hge : p.index ≤ last.index p.kind := index_mono p.kind ((toordinal_le p.start).2.trans hord.ge)
    have hsame : p = r := Period.eq_of_index hkind.symm ((Nat.le_antisymm hge hle).trans (containing_index hr).symm)
    rw [hsame, hkey]
    cases p.kind <;> decide +kernel
  · intro hkey
    have hnext := lastKeys_next p.key hkey
    rwa [parsePeriodKey_key, Option.bind_some] at hnext

end Kajet.Collections
