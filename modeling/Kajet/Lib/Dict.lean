import Mathlib.Data.List.Basic
import Mathlib.Data.List.Dedup
import Mathlib.Data.List.Nodup
import Mathlib.Data.List.Induction
import Mathlib.Tactic.Common

/-!
# Dictionaries in insertion order

* `Dict`           entries with different keys; a key keeps its place when its value is replaced;
* `get?_set`, `get?_erase`, `keys_set`   what an assignment and a deletion change;
* `get?_setDefault`   the first value of a key stays;
* `fromKeys`       one value for each of some keys;
* `groupBy`        the members of a list under their keys.
-/

namespace Kajet

structure Dict (κ ν : Type*) where
  entries : List (κ × ν)
  nodup : (entries.map Prod.fst).Nodup

namespace Dict

variable {κ ν : Type*}

def keys (d : Dict κ ν) : List κ := d.entries.map Prod.fst

def empty : Dict κ ν := ⟨[], List.nodup_nil⟩

instance : Inhabited (Dict κ ν) := ⟨empty⟩

theorem ext_entries {d d' : Dict κ ν} (h : d.entries = d'.entries) : d = d' := by
  cases d
  cases d'
  cases h
  rfl

variable [DecidableEq κ]

def get? (d : Dict κ ν) (k : κ) : Option ν := (d.entries.find? fun e => e.1 = k).map Prod.snd

def setEntry (k : κ) (v : ν) : List (κ × ν) → List (κ × ν)
  | [] => [(k, v)]
  | e :: es => if e.1 = k then (k, v) :: es else e :: setEntry k v es

theorem map_fst_setEntry (k : κ) (v : ν) (es : List (κ × ν)) : (setEntry k v es).map Prod.fst =
    if k ∈ es.map Prod.fst then es.map Prod.fst else es.map Prod.fst ++ [k] := by
  induction es with
  | nil => rfl
  | cons e es ih =>
    unfold setEntry
    by_cases h : e.1 = k
    · rw [if_pos h, List.map_cons, List.map_cons, h, if_pos List.mem_cons_self]
    · rw [if_neg h, List.map_cons, ih, List.map_cons]
      by_cases hk : k ∈ es.map Prod.fst
      · rw [if_pos hk, if_pos (List.mem_cons_of_mem _ hk)]
      · rw [if_neg hk, if_neg (List.not_mem_cons_of_ne_of_not_mem (Ne.symm h) hk)]
        rfl

theorem nodup_setEntry {es : List (κ × ν)} (h : (es.map Prod.fst).Nodup) (k : κ) (v : ν) :
    ((setEntry k v es).map Prod.fst).Nodup := by
  rw [map_fst_setEntry]
  split
  · exact h
  · rename_i hk
    exact List.nodup_append.mpr ⟨h, List.nodup_singleton k, fun a ha b hb hab => hk (by
      rw [← List.mem_singleton.mp hb, ← hab]
      exact ha)⟩

/-- `d[k] = v` -/
def set (d : Dict κ ν) (k : κ) (v : ν) : Dict κ ν := ⟨setEntry k v d.entries, nodup_setEntry d.nodup k v⟩

/-- `del d[k]` -/
def erase (d : Dict κ ν) (k : κ) : Dict κ ν :=
  ⟨d.entries.filter fun e => e.1 ≠ k, d.nodup.sublist (List.filter_sublist.map _)⟩

/-- `d.setdefault(k, v)` -/
def setDefault (d : Dict κ ν) (k : κ) (v : ν) : Dict κ ν := if (d.get? k).isSome then d else d.set k v

/-- `dict.fromkeys(ks, v)` -/
def fromKeys (ks : List κ) (v : ν) : Dict κ ν := ks.foldl (fun d k => d.set k v) empty

variable {d : Dict κ ν} {k k' : κ} {v : ν} {ks : List κ}

theorem get?_empty (k : κ) : (empty : Dict κ ν).get? k = none := rfl

theorem mem_entries_iff : (k, v) ∈ d.entries ↔ d.get? k = some v := by
  unfold get?
  constructor
  · intro h
    cases hfind : d.entries.find? fun e => e.1 = k with
    | none => exact absurd (decide_eq_true rfl) (List.find?_eq_none.mp hfind _ h)
    | some e =>
      have hkey : e.1 = k := by simpa using List.find?_some hfind
      have heq := List.inj_on_of_nodup_map d.nodup (List.mem_of_find?_eq_some hfind) h hkey
      rw [heq]
      rfl
  · intro h
    obtain ⟨e, he, rfl⟩ := Option.map_eq_some_iff.mp h
    have hkey : e.1 = k := by simpa using List.find?_some he
    exact hkey ▸ List.mem_of_find?_eq_some he

theorem mem_keys : k ∈ d.keys ↔ ∃ v, d.get? k = some v := by
  rw [keys, List.mem_map]
  constructor
  · rintro ⟨⟨a, v⟩, he, rfl⟩
    exact ⟨v, mem_entries_iff.mp he⟩
  · rintro ⟨v, hv⟩
    exact ⟨(k, v), mem_entries_iff.mpr hv, rfl⟩

theorem get?_eq_none : d.get? k = none ↔ k ∉ d.keys := by
  rw [mem_keys, Option.eq_none_iff_forall_ne_some]
  exact not_exists.symm

theorem find?_setEntry (es : List (κ × ν)) : (setEntry k v es).find? (fun e => e.1 = k') =
    if k' = k then some (k, v) else es.find? fun e => e.1 = k' := by
  induction es with
  | nil =>
    rw [setEntry, List.find?_cons, List.find?_nil]
    by_cases h : k' = k
    · simp [h]
    · simp [h, Ne.symm h]
  | cons e es ih =>
    unfold setEntry
    by_cases he : e.1 = k
    · rw [if_pos he, List.find?_cons, List.find?_cons]
      by_cases h : k' = k
      · simp [h]
      · simp [h, Ne.symm h, he]
    · rw [if_neg he, List.find?_cons, List.find?_cons, ih]
      by_cases h : k' = k
      · simp [h, he]
      · simp [h]

@[simp] theorem get?_set : (d.set k v).get? k' = if k' = k then some v else d.get? k' := by
  rw [get?, set, find?_setEntry]
  split <;> rfl

theorem get?_set_self : (d.set k v).get? k = some v := by rw [get?_set, if_pos rfl]

theorem get?_set_ne (h : k' ≠ k) : (d.set k v).get? k' = d.get? k' := by rw [get?_set, if_neg h]

theorem get?_setDefault : (d.setDefault k v).get? k' = (d.get? k').or (if k' = k then some v else none) := by
  unfold setDefault
  split
  · rename_i hsome
    by_cases h : k' = k
    · obtain ⟨w, hw⟩ := Option.isSome_iff_exists.mp hsome
      rw [h, hw]
      rfl
    · rw [if_neg h, Option.or_none]
  · rename_i hnone
    rw [get?_set]
    by_cases h : k' = k
    · rw [if_pos h, if_pos h, h, Option.not_isSome_iff_eq_none.mp hnone]
      rfl
    · rw [if_neg h, if_neg h, Option.or_none]

theorem keys_set : (d.set k v).keys = if k ∈ d.keys then d.keys else d.keys ++ [k] := map_fst_setEntry k v d.entries

theorem setEntry_of_not_mem {es : List (κ × ν)} (h : k ∉ es.map Prod.fst) : setEntry k v es = es ++ [(k, v)] := by
  induction es with
  | nil => rfl
  | cons e es ih =>
    obtain ⟨he, hes⟩ := List.ne_and_not_mem_of_not_mem_cons h
    rw [setEntry, if_neg (Ne.symm he), ih hes, List.cons_append]

/-- A new key comes last. -/
theorem entries_set (h : d.get? k = none) : (d.set k v).entries = d.entries ++ [(k, v)] :=
  setEntry_of_not_mem (get?_eq_none.mp h)

theorem mem_keys_set : k' ∈ (d.set k v).keys ↔ k' = k ∨ k' ∈ d.keys := by
  rw [keys_set]
  split
  · rename_i hk
    exact ⟨.inr, fun h => h.elim (fun heq => heq ▸ hk) id⟩
  · rw [List.mem_append, List.mem_singleton, or_comm]

theorem mem_entries_set {e : κ × ν} (h : e ∈ (d.set k v).entries) : e = (k, v) ∨ e ∈ d.entries ∧ e.1 ≠ k := by
  have hget := mem_entries_iff.mp h
  by_cases hk : e.1 = k
  · rw [hk, get?_set_self] at hget
    exact .inl (Prod.ext hk (Option.some.inj hget).symm)
  · rw [get?_set_ne hk] at hget
    exact .inr ⟨mem_entries_iff.mpr hget, hk⟩

@[simp] theorem get?_erase : (d.erase k).get? k' = if k' = k then none else d.get? k' := by
  unfold get? erase
  rw [List.find?_filter]
  by_cases h : k' = k
  · rw [if_pos h, Option.map_eq_none_iff, List.find?_eq_none]
    intro e _
    simp [h]
  · rw [if_neg h]
    refine congrArg _ (congrArg (fun p => d.entries.find? p) (funext fun e => ?_))
    by_cases he : e.1 = k'
    · simp [he, h]
    · simp [he]

theorem mem_keys_erase : k' ∈ (d.erase k).keys ↔ k' ≠ k ∧ k' ∈ d.keys := by
  rw [mem_keys, mem_keys, get?_erase]
  by_cases h : k' = k
  · simp [h]
  · simp [h]

theorem get?_foldl_set {ι : Type*} (key : ι → κ) (val : ι → ν) (is : List ι) (d : Dict κ ν)
    (hval : ∀ i ∈ is, ∀ j ∈ is, key i = key j → val i = val j) :
    (is.foldl (fun d i => d.set (key i) (val i)) d).get? k =
      ((is.find? fun i => key i = k).map val).or (d.get? k) := by
  induction is generalizing d with
  | nil => rfl
  | cons i is ih =>
    rw [List.foldl_cons, ih _ fun a ha b hb => hval a (List.mem_cons_of_mem _ ha) b (List.mem_cons_of_mem _ hb),
      get?_set, List.find?_cons]
    by_cases hi : key i = k
    · rw [if_pos hi.symm]
      simp only [hi, decide_true, Option.map_some, Option.some_or]
      cases hfind : is.find? fun i => key i = k with
      | none => rfl
      | some j =>
        have hj : key j = k := by simpa using List.find?_some hfind
        rw [Option.map_some, Option.some_or, hval j (List.mem_cons_of_mem _ (List.mem_of_find?_eq_some hfind)) i
          List.mem_cons_self (hj.trans hi.symm)]
    · rw [if_neg fun h => hi h.symm]
      simp [hi]

theorem get?_fromKeys : (fromKeys ks v).get? k = if k ∈ ks then some v else none := by
  rw [fromKeys, get?_foldl_set (fun k => k) (fun _ => v) ks empty (fun _ _ _ _ _ => rfl), get?_empty, Option.or_none]
  cases hfind : ks.find? fun i => i = k with
  | none => rw [if_neg fun hk => List.find?_eq_none.mp hfind k hk (decide_eq_true rfl)]; rfl
  | some j =>
    obtain rfl : j = k := by simpa using List.find?_some hfind
    rw [if_pos (List.mem_of_find?_eq_some hfind)]
    rfl

theorem mem_keys_fromKeys : k ∈ (fromKeys ks v).keys ↔ k ∈ ks := by
  rw [mem_keys, get?_fromKeys]
  by_cases h : k ∈ ks
  · simp [h]
  · simp [h]

/-- `for a in as: d.setdefault(key(a), []).append(a)` -/
def groupBy {α : Type*} (key : α → κ) (as : List α) : Dict κ (List α) :=
  as.foldl (fun d a => d.set (key a) ((d.get? (key a)).getD [] ++ [a])) empty

theorem get?_groupBy {α : Type*} (key : α → κ) (as : List α) (k : κ) : (groupBy key as).get? k =
    if as.filter (key · = k) = [] then none else some (as.filter (key · = k)) := by
  induction as using List.reverseRecOn with
  | nil => rfl
  | append_singleton as a ih =>
    have hconcat : groupBy key (as ++ [a]) =
        (groupBy key as).set (key a) (((groupBy key as).get? (key a)).getD [] ++ [a]) := by
      rw [groupBy, List.foldl_concat]
      rfl
    rw [hconcat, get?_set, List.filter_append, List.filter_singleton]
    by_cases h : k = key a
    · subst h
      rw [if_pos rfl, decide_eq_true rfl, cond_true, if_neg (List.append_ne_nil_of_right_ne_nil _ (List.cons_ne_nil _ _)), ih]
      split
      · rename_i hnil
        rw [hnil, Option.getD_none]
      · rw [Option.getD_some]
    · rw [if_neg h, ih, decide_eq_false fun hk => h hk.symm, cond_false, List.append_nil]

end Dict
end Kajet
