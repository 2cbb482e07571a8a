import Kajet.Lib.Str
import Mathlib.Data.Rat.Defs

/-!
# Values that a frontmatter can hold

What the YAML loader makes of a hand-written value, with what Python asks of one: whether it is true,
and the key it is under in a `dict` or `set`.

* `isoDate`, `parsePeriodKey`   the canonical dates and period keys;
* `Yaml`                        the values;
* `Yaml.key`                    equal keys are equal values; a list or a mapping has none.
-/

namespace Kajet.Frontmatter
open Str

/-! ## dates and periods -/

/-- ASCII digits, read as a number. -/
def digits (t : Text) : Option Nat :=
  if t ≠ [] ∧ t.all Char.isDigit then some (t.foldl (fun n c => 10 * n + (c.toNat - '0'.toNat)) 0)
  else none

def isLeap (year : Nat) : Bool := year % 4 = 0 && (year % 100 ≠ 0 || year % 400 = 0)

def daysInMonth (year month : Nat) : Nat :=
  if month = 2 then (if isLeap year then 29 else 28)
  else if month ∈ [4, 6, 9, 11] then 30 else 31

/-- The weekday of 31 December, Sunday being 0. -/
def lastWeekday (year : Nat) : Nat := (year + year / 4 - year / 100 + year / 400) % 7

/-- An ISO year has 53 weeks when it ends on a Thursday or begins on one. -/
def weeksInYear (year : Nat) : Nat :=
  if lastWeekday year = 4 ∨ lastWeekday (year - 1) = 3 then 53 else 52

/-- `date.fromisoformat(t).isoformat() == t` -/
def isoDate : Text → Bool
  | [a, b, c, d, '-', e, f, '-', g, h] =>
    match digits [a, b, c, d], digits [e, f], digits [g, h] with
    | some year, some month, some day =>
      1 ≤ year && 1 ≤ month && month ≤ 12 && 1 ≤ day && day ≤ daysInMonth year month
    | _, _, _ => false
  | _ => false

def isoWeek : Text → Bool
  | [a, b, c, d, '-', 'W', e, f] =>
    match digits [a, b, c, d], digits [e, f] with
    | some year, some week => 1 ≤ year && 1 ≤ week && week ≤ weeksInYear year
    | _, _ => false
  | _ => false

def isoMonth : Text → Bool
  | [a, b, c, d, '-', e, f] =>
    match digits [a, b, c, d], digits [e, f] with
    | some year, some month => 1 ≤ year && 1 ≤ month && month ≤ 12
    | _, _ => false
  | _ => false

def isoYear : Text → Bool
  | [a, b, c, d] =>
    match digits [a, b, c, d] with
    | some year => 1 ≤ year
    | none => false
  | _ => false

/-- The key of the period, which is the text itself. -/
def parsePeriodKey (key : Text) : Option Text :=
  if isoDate key || isoWeek key || isoMonth key || isoYear key then some key else none

example : (["2024-02-29", "2023-02-29", "2026-1-05"].map fun t => isoDate t.toList) = [true, false, false] := by
  decide +kernel

example : (["2026-W53", "2025-W53", "2026-13", "2026"].map fun t => (parsePeriodKey t.toList).isSome) =
    [true, false, false, true] := by decide +kernel

theorem parsePeriodKey_eq {t key : Text} (h : parsePeriodKey t = some key) : key = t := by
  unfold parsePeriodKey at h
  split at h
  · exact (Option.some.inj h).symm
  · cases h

/-! ## values -/

/-- A calendar date, given by its `isoformat`. -/
abbrev Date := {t : Text // isoDate t = true}

inductive Yaml where
  | null
  | bool (b : Bool)
  | int (i : Int)
  /-- an infinity or NaN has no `value` -/
  | float (value : Option ℚ) (text : Text)
  | str (t : Text)
  | date (d : Date)
  /-- with the instant when a time zone is given -/
  | datetime (instant : Option Int) (text : Text)
  | seq (items : List Yaml)
  | map (entries : List (Yaml × Yaml))

/-- A hashable value up to `==`: `1`, `True` and `1.0` are one key. -/
inductive Key where
  | null
  | number (value : ℚ)
  | notFinite (text : Text)
  | str (t : Text)
  | date (t : Text)
  | instant (i : Int)
  | naive (text : Text)
deriving DecidableEq

namespace Yaml

/-- `bool(value)` -/
def truthy : Yaml → Bool
  | null => false
  | bool b => b
  | int i => i ≠ 0
  | float value _ => value ≠ some 0
  | str t => t ≠ []
  | date _ | datetime .. => true
  | seq items => !items.isEmpty
  | map entries => !entries.isEmpty

/-- `none` is the `TypeError` of an unhashable value. -/
def key : Yaml → Option Key
  | null => some .null
  | bool b => some (.number (if b then 1 else 0))
  | int i => some (.number i)
  | float (some value) _ => some (.number value)
  | float none text => some (.notFinite text)
  | str t => some (.str t)
  | date d => some (.date d.val)
  | datetime (some i) _ => some (.instant i)
  | datetime none text => some (.naive text)
  | seq _ | map _ => none

def asStr : Yaml → Option Text
  | str t => some t
  | _ => none

/-- `value or ""` -/
def orEmpty (v : Yaml) : Yaml := if v.truthy then v else str []

theorem asStr_eq_some {v : Yaml} {t : Text} : v.asStr = some t ↔ v = str t := by
  cases v <;> simp [asStr]

theorem key_eq_str {v : Yaml} {t : Text} : v.key = some (.str t) ↔ v = str t := by
  cases v with
  | float value text => cases value <;> simp [key]
  | datetime i text => cases i <;> simp [key]
  | _ => simp [key]

end Yaml
end Kajet.Frontmatter
