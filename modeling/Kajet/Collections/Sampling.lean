import Kajet.Collections.Member

/-!
# The sampled renderings

* `visit_spec`      the walk over the periods from one to another, each of them once;
* `InWindow`, `window_spec`   the periods that are sampled are those of the dates of eleven years;
* `mem_renderSet`   what is rendered for their first days, with the sampled ordinals;
* `Renders`, `Steady`   the templates can be rendered, and give the days of a period the same.
-/

namespace Kajet.Collections
open Str Fallible

/-! ## the window -/

variable {L : Language} {D : CollectionDefinition} {today d s : Date} {p q stop : Period} {pair : Text × Text}

/-- **The walk**: every period between the two. -/
theorem visit_spec {fuel : ℕ} (hkind : p.kind = stop.kind) (hle : p.index ≤ stop.index)
    (hfuel : stop.index - p.index < fuel) :
    ∃ periods, CollectionDefinition.visit stop fuel p = some periods ∧
      ∀ q, q ∈ periods ↔ q.kind = stop.kind ∧ p.index ≤ q.index ∧ q.index ≤ stop.index := by
  induction fuel generalizing p with
  | zero => omega
  | succ fuel ih =>
    unfold CollectionDefinition.visit
    by_cases hp : p = stop
    · rw [if_pos hp]
      refine ⟨[p], rfl, fun q => ?_⟩
      subst hp
      rw [List.mem_singleton]
      constructor
      · rintro rfl
        exact ⟨rfl, le_rfl, le_rfl⟩
      · rintro ⟨hq, hlow, hhigh⟩
        exact Period.eq_of_index hq (Nat.le_antisymm hhigh hlow)
    · rw [if_neg hp]
      have hlt : p.index < stop.index := Nat.lt_of_le_of_ne hle fun h => hp (Period.eq_of_index hkind h)
      obtain ⟨next, hnext⟩ := Option.isSome_iff_exists.mp (next_isSome hkind.symm hlt)
      obtain ⟨hsame, hindex⟩ := next_index hnext
      obtain ⟨rest, hrest, hmem⟩ := ih (hsame.trans hkind) (by omega) (by omega)
      refine ⟨p :: rest, by rw [hnext, Option.bind_eq_bind, Option.bind_some, hrest]; rfl, fun q => ?_⟩
      rw [List.mem_cons, hmem]
      constructor
      · rintro (rfl | ⟨hq, hlow, hhigh⟩)
        · exact ⟨hkind, le_rfl, hle⟩
        · exact ⟨hq, by omega, hhigh⟩
      · rintro ⟨hq, hlow, hhigh⟩
        by_cases heq : q.index = p.index
        · exact .inl (Period.eq_of_index (hq.trans hkind.symm) heq)
        · exact .inr ⟨hq, by omega, hhigh⟩

/-- A date of the years that are sampled. -/
def InWindow (today d : Date) : Prop := today.year ≤ d.year + 5 ∧ d.year ≤ today.year + 5

instance (today d : Date) : Decidable (InWindow today d) := inferInstanceAs (Decidable (_ ∧ _))

/-- The day on which the window is taken is not too near to the ends of the calendar. -/
def Surveys (today : Date) : Prop := 5 < today.year ∧ today.year + 5 ≤ 9999

instance (today : Date) : Decidable (Surveys today) := inferInstanceAs (Decidable (_ ∧ _))

/-- Dates of eleven years are in fewer periods than there is fuel. -/
theorem index_sub_lt {first last : Date} (kind : PeriodKind) (hyear : last.year = first.year + 10) :
    last.index kind - first.index kind < 4100 := by
  have hlow := (toordinal_bounds first).1
  have hhigh := (toordinal_bounds last).2
  have hmonth := last.valid.2.1.2
  have hday : last.toordinal ≤ first.toordinal + 4018 := by
    rw [hyear] at hhigh
    unfold daysBeforeYear at hlow hhigh
    omega
  cases kind with
  | day =>
    show last.toordinal - first.toordinal < 4100
    omega
  | week =>
    show (last.toordinal - 1) / 7 - (first.toordinal - 1) / 7 < 4100
    omega
  | month =>
    show 12 * last.year + last.month - (12 * first.year + first.month) < 4100
    omega
  | year =>
    show last.year - first.year < 4100
    omega

theorem first_le (hyear : s.year ≤ d.year) (hmonth : s.month = 1) (hday : s.day = 1) : s.toordinal ≤ d.toordinal := by
  have hmono := daysBeforeYear_mono s.valid.1.1 hyear
  have hlow := (toordinal_bounds d).1
  have hs : s.toordinal = daysBeforeYear s.year + 0 + 1 := by rw [Date.toordinal, hmonth, hday]; rfl
  omega

theorem le_last (hyear : d.year ≤ s.year) (hmonth : s.month = 12) (hday : s.day = 31) : d.toordinal ≤ s.toordinal := by
  have hmono := daysBeforeYear_mono (show 1 ≤ d.year + 1 by omega) (Nat.add_le_add_right hyear 1)
  have hhigh := (toordinal_bounds d).2
  have hdays : daysThrough s.year 11 + 31 = daysThrough s.year 12 := rfl
  have hs : s.toordinal = daysBeforeYear s.year + daysThrough s.year 11 + 31 := by
    rw [Date.toordinal, hmonth, hday]
  rw [daysBeforeYear_succ s.valid.1.1] at hmono
  rw [daysThrough_twelve] at hdays
  omega

/-- **The window**: the periods of the dates of eleven years. -/
theorem window_spec (D : CollectionDefinition) (h : Surveys today) : ∃ periods, D.window today = some periods ∧
    ∀ d q, InWindow today d → Period.containing d D.grain = some q → q ∈ periods := by
  obtain ⟨hlow, hhigh⟩ := h
  let first : Date := ⟨today.year - 5, 1, 1, by omega, by decide, le_rfl, daysInMonth_pos _ _⟩
  let last : Date := ⟨today.year + 5, 12, 31, by omega, by decide, by decide, le_rfl⟩
  have hfirst : date (today.year - CollectionDefinition.sampleHorizonYears) 1 1 = some first :=
    date_eq_some.mpr ⟨rfl, rfl, rfl⟩
  have hlast : date (today.year + CollectionDefinition.sampleHorizonYears) 12 31 = some last :=
    date_eq_some.mpr ⟨rfl, rfl, rfl⟩
  obtain ⟨start, hstart, hkind, -⟩ := containing_spec first D.grain
  obtain ⟨stop, hstop, hkind', -⟩ := containing_spec last D.grain
  have hindex := containing_index hstart
  have hindex' := containing_index hstop
  have hyears : last.year = first.year + 10 := by
    show today.year + 5 = today.year - 5 + 10
    omega
  have hfuel := index_sub_lt D.grain hyears
  have hle := index_mono D.grain (first_le (show first.year ≤ last.year by omega) rfl rfl)
  obtain ⟨periods, hperiods, hmem⟩ := visit_spec (hkind.trans hkind'.symm) (by omega)
    (show stop.index - start.index < 4100 by omega)
  refine ⟨periods, ?_, fun d q hd hq => (hmem q).mpr ⟨(containing_eq_some hq).1.trans hkind'.symm, ?_, ?_⟩⟩
  · unfold CollectionDefinition.window
    rw [hfirst, Option.bind_eq_bind, Option.bind_some, hlast, Option.bind_eq_bind, Option.bind_some, hstart,
      Option.bind_some, hstop]
    exact hperiods
  · rw [hindex, containing_index hq]
    exact index_mono D.grain (first_le (show today.year - 5 ≤ d.year by have := hd.1; omega) rfl rfl)
  · rw [hindex', containing_index hq]
    exact index_mono D.grain (le_last (show d.year ≤ today.year + 5 from hd.2) rfl rfl)

/-! ## the renderings -/

namespace CollectionDefinition

/-- Formatting never raises. -/
def Renders (L : Language) (D : CollectionDefinition) : Prop := ∀ d n, (D.render L d (some n)).isSome = true

/-- What is rendered for a day is rendered for the first day of its period. -/
def Steady (L : Language) (D : CollectionDefinition) : Prop :=
  ∀ d s n, Starts d s D.grain → D.render L s (some n) = D.render L d (some n)

end CollectionDefinition

/-- No ordinal is the first one. -/
theorem render_getD (ordinal : Option ℕ) : D.render L d ordinal = D.render L d (some (ordinal.getD 1)) := rfl

theorem mem_renderSet {periods : List Period} {rendered : List (Text × Text)} (hw : D.window today = some periods)
    (h : D.renderSet L today = some rendered) :
    pair ∈ rendered ↔ ∃ period ∈ periods, ∃ ordinal ∈ D.ordinals, D.render L period.start ordinal = some pair := by
  unfold CollectionDefinition.renderSet at h
  rw [hw, Option.bind_eq_bind, Option.bind_some] at h
  obtain ⟨lists, hlists, h⟩ := Option.bind_eq_some_iff.mp h
  obtain rfl := Option.some.inj h
  rw [List.mem_flatten]
  constructor
  · rintro ⟨list, hlist, hmem⟩
    obtain ⟨period, hperiod, hpairs⟩ := (mem_mapM hlists).mp hlist
    exact ⟨period, hperiod, (mem_mapM hpairs).mp hmem⟩
  · rintro ⟨period, hperiod, ordinal, hordinal, hrender⟩
    have hall := mapM_eq_some.mp hlists
    obtain ⟨i, hi, rfl⟩ := List.getElem_of_mem hperiod
    have hlen := hall.length_eq ▸ hi
    refine ⟨_, List.getElem_mem hlen, (mem_mapM ?_).mpr ⟨ordinal, hordinal, hrender⟩⟩
    exact (List.forall₂_iff_get.mp hall).2 i hi hlen

theorem renderSet_total (hrenders : D.Renders L) (h : Surveys today) :
    ∃ rendered, D.renderSet L today = some rendered := by
  obtain ⟨periods, hperiods, -⟩ := window_spec D h
  obtain ⟨lists, hlists⟩ := mapM_isSome (l := periods)
    (f := fun period => D.ordinals.mapM fun ordinal => D.render L period.start ordinal) fun period _ => by
      obtain ⟨pairs, hpairs⟩ := mapM_isSome (l := D.ordinals) (f := fun ordinal => D.render L period.start ordinal)
        fun ordinal _ => hrenders period.start (ordinal.getD 1)
      exact Option.isSome_iff_exists.mpr ⟨pairs, hpairs⟩
  refine ⟨lists.flatten, ?_⟩
  unfold CollectionDefinition.renderSet
  rw [hperiods, Option.bind_eq_bind, Option.bind_some, hlists]
  rfl

/-- What is rendered for a date of the window is sampled. -/
theorem mem_renderSet_of {rendered : List (Text × Text)} {ordinal : Option ℕ} (h : Surveys today)
    (hrendered : D.renderSet L today = some rendered) (hsteady : D.Steady L) (hd : InWindow today d)
    (hordinal : ordinal ∈ D.ordinals) (hrender : D.render L d ordinal = some pair) : pair ∈ rendered := by
  obtain ⟨periods, hperiods, hmem⟩ := window_spec D h
  obtain ⟨period, hperiod, -, -, hstarts⟩ := containing_spec d D.grain
  refine (mem_renderSet hperiods hrendered).mpr ⟨period, hmem d period hd hperiod, ordinal, hordinal, ?_⟩
  rw [render_getD, hsteady d period.start _ hstarts, ← render_getD, hrender]

theorem exists_render {rendered : List (Text × Text)} (hrendered : D.renderSet L today = some rendered)
    (hpair : pair ∈ rendered) : ∃ d n, D.render L d (some n) = some pair := by
  obtain ⟨periods, hperiods, -⟩ := Option.bind_eq_some_iff.mp hrendered
  obtain ⟨period, -, ordinal, -, hrender⟩ := (mem_renderSet hperiods hrendered).mp hpair
  exact ⟨period.start, ordinal.getD 1, hrender⟩

end Kajet.Collections
