import Kajet.Frontmatter.Yaml
import Kajet.Lib.Table

/-!
# The temporal fields of a frontmatter

`occurred_at` and `period` exclude each other.  What is written is checked (`normalizeTemporal`);
what is read is lenient: a value that does not parse, or a pair that conflicts, is dropped, and the
drop is recorded (`parseTemporal`).

* `Canonical`           fields that the parsers leave as they are: those of rows and frontmatters;
* `Temporal`            the pair of a frontmatter, valid by construction; `Temporal.make` checks it;
* `make_eq_error_iff`   canonical fields are refused only when both are set;
* `temporalOr_both_iff` the fields of a file, filled up from a row, that are both set.
-/

namespace Kajet.Frontmatter
open Str

inductive TemporalError where
  /-- "occurred_at must be an ISO calendar date (YYYY-MM-DD)." -/
  | occurredAt
  /-- "period must be a canonical period key." -/
  | period
  /-- "occurred_at and period are mutually exclusive." -/
  | exclusive
  /-- "clear_date_metadata cannot be combined with occurred_at or period." -/
  | clear
  /-- "occurred_at and period must use canonical string values." -/
  | canonical
deriving DecidableEq

/-- `_parse_occurred_at` -/
def parseOccurredAt : Yaml → Except TemporalError (Option Text)
  | .null => .ok none
  | .str t => if isoDate t then .ok (some t) else .error .occurredAt
  | .date d => .ok (some d.val)
  | _ => .error .occurredAt

/-- `_parse_period` -/
def parsePeriod : Yaml → Except TemporalError (Option Text)
  | .null => .ok none
  | .str t =>
    match parsePeriodKey t with
    | some key => .ok (some key)
    | none => .error .period
  | .int i =>
    match parsePeriodKey (toString i).toList with
    | some key => .ok (some key)
    | none => .error .period
  | _ => .error .period

/-- A field of a row or a validated frontmatter, as the value it is. -/
def ofField : Option Text → Yaml
  | some t => .str t
  | none => .null

/-- `normalize_temporal_metadata` -/
def normalizeTemporal (occurredAt period : Yaml) : Except TemporalError (Option Text × Option Text) := do
  let occurredAt ← parseOccurredAt occurredAt
  let period ← parsePeriod period
  if occurredAt.isSome ∧ period.isSome then .error .exclusive else return (occurredAt, period)

/-- `_parse_temporal_soft`: the value, and whether it was dropped. -/
def parseSoft : Except TemporalError (Option Text) → Option Text × Bool
  | .ok f => (f, false)
  | .error _ => (none, true)

/-! ## canonical fields -/

/-- Both fields are what their parsers make of them. -/
structure Canonical (occurredAt period : Option Text) : Prop where
  occurredAt : parseOccurredAt (ofField occurredAt) = .ok occurredAt
  period : parsePeriod (ofField period) = .ok period

theorem parseOccurredAt_str {t : Text} (h : isoDate t = true) :
    parseOccurredAt (.str t) = .ok (some t) := by
  rw [parseOccurredAt, if_pos h]

theorem parseOccurredAt_ofField {v : Yaml} {f : Option Text} (h : parseOccurredAt v = .ok f) :
    parseOccurredAt (ofField f) = .ok f := by
  cases v with
  | str t =>
    rw [parseOccurredAt] at h
    split at h
    · rename_i ht
      cases h
      exact parseOccurredAt_str ht
    · cases h
  | date d =>
    cases h
    exact parseOccurredAt_str d.property
  | null =>
    cases h
    rfl
  | _ => cases h

theorem parsePeriod_str {t key : Text} (h : parsePeriodKey t = some key) :
    parsePeriod (.str key) = .ok (some key) := by
  have hself := h
  rw [← parsePeriodKey_eq h] at hself
  rw [parsePeriod, hself]

theorem parsePeriod_ofField {v : Yaml} {f : Option Text} (h : parsePeriod v = .ok f) :
    parsePeriod (ofField f) = .ok f := by
  cases v with
  | str t =>
    rw [parsePeriod] at h
    split at h
    · rename_i hsome
      cases h
      exact parsePeriod_str hsome
    · cases h
  | int i =>
    rw [parsePeriod] at h
    split at h
    · rename_i hsome
      cases h
      exact parsePeriod_str hsome
    · cases h
  | null =>
    cases h
    rfl
  | _ => cases h

theorem Canonical.normalize {o p : Option Text} (h : Canonical o p) :
    normalizeTemporal (ofField o) (ofField p) =
      if o.isSome ∧ p.isSome then .error .exclusive else .ok (o, p) := by
  unfold normalizeTemporal
  rw [h.occurredAt, h.period]
  rfl

/-- What is accepted is canonical and exclusive. -/
theorem normalizeTemporal_ok {occurredAt period : Yaml} {r : Option Text × Option Text}
    (h : normalizeTemporal occurredAt period = .ok r) :
    Canonical r.1 r.2 ∧ ¬ (r.1.isSome ∧ r.2.isSome) := by
  obtain ⟨o, ho, h⟩ := Table.bind_ok h
  obtain ⟨p, hp, h⟩ := Table.bind_ok h
  split at h
  · cases h
  · rename_i hnot
    cases h
    exact ⟨⟨parseOccurredAt_ofField ho, parsePeriod_ofField hp⟩, hnot⟩

/-! ## the fields of a frontmatter -/

/-- `NoteFrontmatter.__post_init__` checks the pair. -/
structure Temporal where
  occurredAt : Option Text
  period : Option Text
  /-- `temporal_dropped` -/
  occurredAtDropped : Bool
  periodDropped : Bool
  valid : normalizeTemporal (ofField occurredAt) (ofField period) = .ok (occurredAt, period)

namespace Temporal

/-- A frontmatter is built, or one is replaced; the error is raised. -/
def make (o p : Option Text) (oDropped pDropped : Bool) : Except TemporalError Temporal :=
  match h : normalizeTemporal (ofField o) (ofField p) with
  | .error e => .error e
  | .ok r => if hr : r = (o, p) then .ok ⟨o, p, oDropped, pDropped, by rw [h, hr]⟩
    else .error .canonical

/-- `temporal_or` -/
def temporalOr (t : Temporal) (o p : Option Text) : Option Text × Option Text :=
  (if t.occurredAtDropped then o else t.occurredAt, if t.periodDropped then p else t.period)

theorem canonical (t : Temporal) : Canonical t.occurredAt t.period := (normalizeTemporal_ok t.valid).1

theorem exclusive (t : Temporal) : ¬ (t.occurredAt.isSome ∧ t.period.isSome) :=
  (normalizeTemporal_ok t.valid).2

theorem make_ok {o p : Option Text} {oDropped pDropped : Bool} {t : Temporal}
    (h : make o p oDropped pDropped = .ok t) : t.occurredAt = o ∧ t.period = p ∧
      t.occurredAtDropped = oDropped ∧ t.periodDropped = pDropped := by
  unfold make at h
  split at h
  · cases h
  · split at h
    · cases h
      exact ⟨rfl, rfl, rfl, rfl⟩
    · cases h

/-- Canonical fields are refused only when both are set. -/
theorem make_eq_error_iff {o p : Option Text} {oDropped pDropped : Bool} (h : Canonical o p) :
    (∃ e, make o p oDropped pDropped = .error e) ↔ o.isSome ∧ p.isSome := by
  have hnormal := h.normalize
  unfold make
  split
  · rename_i e he
    rw [hnormal] at he
    split at he
    · rename_i hboth
      exact ⟨fun _ => hboth, fun _ => ⟨e, rfl⟩⟩
    · cases he
  · rename_i r hr
    rw [hnormal] at hr
    split at hr
    · cases hr
    · rename_i hnot
      cases hr
      rw [dif_pos rfl]
      exact ⟨fun ⟨_, he⟩ => (nomatch he), fun hboth => absurd hboth hnot⟩

end Temporal

/-- The lenient reading in `parse_frontmatter`. -/
def parseTemporal (occurredAt period : Yaml) : Temporal :=
  let o := parseSoft (parseOccurredAt occurredAt)
  let p := parseSoft (parsePeriod period)
  match Temporal.make o.1 p.1 o.2 p.2 with
  | .ok t => t
  | .error _ => ⟨none, none, true, true, rfl⟩

namespace Temporal
variable {t : Temporal} {o p : Option Text}

theorem temporalOr_canonical (h : Canonical o p) : Canonical (t.temporalOr o p).1 (t.temporalOr o p).2 := by
  constructor
  · show parseOccurredAt (ofField (if _ then o else _)) = .ok (if _ then o else _)
    split
    · exact h.occurredAt
    · exact t.canonical.occurredAt
  · show parsePeriod (ofField (if _ then p else _)) = .ok (if _ then p else _)
    split
    · exact h.period
    · exact t.canonical.period

/-- One field was dropped where the row has a value, and the other one is set in the file. -/
def Crossed (t : Temporal) (o p : Option Text) : Prop :=
  (t.occurredAtDropped = true ∧ t.periodDropped = false ∧ o.isSome ∧ t.period.isSome) ∨
    (t.periodDropped = true ∧ t.occurredAtDropped = false ∧ p.isSome ∧ t.occurredAt.isSome)

instance (t : Temporal) (o p : Option Text) : Decidable (t.Crossed o p) :=
  inferInstanceAs (Decidable (_ ∨ _))

/-- The file's fields filled up from a row's are both set when they cross. -/
theorem temporalOr_both_iff (h : ¬ (o.isSome ∧ p.isSome)) :
    ((t.temporalOr o p).1.isSome ∧ (t.temporalOr o p).2.isSome) ↔ t.Crossed o p := by
  have hexcl := t.exclusive
  unfold temporalOr Crossed
  cases t.occurredAtDropped <;> cases t.periodDropped
  · simpa using hexcl
  · simp [and_comm]
  · simp
  · simpa using h

end Temporal
end Kajet.Frontmatter
