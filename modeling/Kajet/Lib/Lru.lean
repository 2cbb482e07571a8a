import Kajet.Lib.Table
import Mathlib.Data.List.Dedup

/-!
# A cache that forgets the least recently used key

An ordered dictionary of at most `max` entries: what is read or written moves to its end, what is too much goes
from its beginning.

* `get`, `put`            the operations;
* `latest`, `kept`        the keys of a log of uses, each with its last value, and the cache that they leave;
* `put_kept`, `get_kept`  the operations keep the cache of the log;
* `get_kept_iff`          a read finds a value that fewer than `max` other keys were used after.
-/

namespace Kajet.Lru

variable {κ ν : Type*} [DecidableEq κ] {k : κ} {v : ν} {max n : ℕ} {log newer older : List (κ × ν)}

/-! ## the cache -/

/-- The oldest entry first. -/
abbrev Store (κ ν : Type*) := List (κ × ν)

def moveToEnd (k : κ) (v : ν) (s : Store κ ν) : Store κ ν := s.filter (·.1 ≠ k) ++ [(k, v)]

def get (k : κ) (s : Store κ ν) : Option ν × Store κ ν :=
  match s.lookup k with
  | none => (none, s)
  | some v => (some v, moveToEnd k v s)

/-- Entries go from the beginning until no more than `max` are left. -/
def evict (max : ℕ) (s : Store κ ν) : Store κ ν := s.drop (s.length - max)

def put (max : ℕ) (k : κ) (v : ν) (s : Store κ ν) : Store κ ν := evict max (moveToEnd k v s)

/-! ## the log of the uses -/

/-- The last use of each key, the most recent one first; so is the log. -/
def latest : List (κ × ν) → List (κ × ν)
  | [] => []
  | x :: log => x :: (latest log).filter (·.1 ≠ x.1)

def kept (max : ℕ) (log : List (κ × ν)) : Store κ ν := ((latest log).take max).reverse

theorem nodup_latest (log : List (κ × ν)) : ((latest log).map Prod.fst).Nodup := by
  induction log with
  | nil => exact List.nodup_nil
  | cons x log ih =>
    rw [latest, List.map_cons, List.nodup_cons]
    refine ⟨fun h => ?_, ih.sublist (List.filter_sublist.map _)⟩
    obtain ⟨y, hy, hkey⟩ := List.mem_map.mp h
    exact of_decide_eq_true (List.mem_filter.mp hy).2 hkey

theorem mem_keys_latest : k ∈ (latest log).map Prod.fst ↔ k ∈ log.map Prod.fst := by
  induction log with
  | nil => exact Iff.rfl
  | cons x log ih =>
    rw [latest, List.map_cons, List.map_cons, List.mem_cons, List.mem_cons, ← ih]
    by_cases hk : k = x.1
    · exact iff_of_true (.inl hk) (.inl hk)
    · refine or_congr_right ⟨fun h => ?_, fun h => ?_⟩
      · exact (List.filter_sublist.map _).subset h
      · obtain ⟨y, hy, rfl⟩ := List.mem_map.mp h
        exact List.mem_map_of_mem (List.mem_filter.mpr ⟨hy, decide_eq_true hk⟩)

theorem length_latest (log : List (κ × ν)) : (latest log).length = (log.map Prod.fst).dedup.length := by
  rw [← List.length_map Prod.fst]
  refine ((List.perm_ext_iff_of_nodup (nodup_latest log) (List.nodup_dedup _)).mpr fun k => ?_).length_eq
  rw [List.mem_dedup, mem_keys_latest]

/-- The entries before a key are those of the uses after it. -/
theorem latest_append (h : k ∉ newer.map Prod.fst) :
    ∃ rest, latest (newer ++ (k, v) :: older) = latest newer ++ (k, v) :: rest := by
  induction newer with
  | nil => exact ⟨_, rfl⟩
  | cons x newer ih =>
    rw [List.map_cons, List.mem_cons, not_or] at h
    obtain ⟨rest, hrest⟩ := ih h.2
    refine ⟨rest.filter (·.1 ≠ x.1), ?_⟩
    rw [List.cons_append, latest, hrest, List.filter_append, List.filter_cons_of_pos (by simpa using h.1)]
    rfl

theorem exists_of_mem_latest (h : (k, v) ∈ latest log) :
    ∃ newer older, log = newer ++ (k, v) :: older ∧ k ∉ newer.map Prod.fst := by
  induction log with
  | nil => cases h
  | cons x log ih =>
    rcases List.mem_cons.mp h with rfl | h
    · exact ⟨[], log, rfl, List.not_mem_nil⟩
    · obtain ⟨hmem, hkey⟩ := List.mem_filter.mp h
      obtain ⟨newer, older, rfl, hnot⟩ := ih hmem
      refine ⟨x :: newer, older, rfl, ?_⟩
      rw [List.map_cons, List.mem_cons, not_or]
      exact ⟨of_decide_eq_true hkey, hnot⟩

/-- **The most recent entries**: those that fewer than `n` other keys were used after. -/
theorem mem_take_latest : (k, v) ∈ (latest log).take n ↔ ∃ newer older, log = newer ++ (k, v) :: older ∧
    k ∉ newer.map Prod.fst ∧ (newer.map Prod.fst).dedup.length < n := by
  have hposition : ∀ newer older : List (κ × ν), k ∉ newer.map Prod.fst →
      ((k, v) ∈ (latest (newer ++ (k, v) :: older)).take n ↔ (newer.map Prod.fst).dedup.length < n) := by
    intro newer older hnot
    have hsplit : ∃ rest, latest (newer ++ (k, v) :: older) = latest newer ++ (k, v) :: rest := latest_append hnot
    obtain ⟨rest, hrest⟩ := hsplit
    rw [hrest, ← length_latest, List.take_append, List.mem_append]
    have hout : (k, v) ∉ latest newer := fun h => hnot (mem_keys_latest.mp (List.mem_map_of_mem h))
    rw [or_iff_right fun h => hout (List.take_sublist n _ |>.subset h)]
    constructor
    · intro h
      have hpos := List.length_pos_of_mem h
      rw [List.length_take] at hpos
      omega
    · intro h
      obtain ⟨m, hm⟩ : ∃ m, n - (latest newer).length = m + 1 := ⟨n - (latest newer).length - 1, by omega⟩
      rw [hm, List.take_succ_cons]
      exact List.mem_cons_self
  constructor
  · intro h
    obtain ⟨newer, older, rfl, hnot⟩ := exists_of_mem_latest (List.take_sublist n _ |>.subset h)
    exact ⟨newer, older, rfl, hnot, (hposition newer older hnot).mp h⟩
  · rintro ⟨newer, older, rfl, hnot, hlen⟩
    exact (hposition newer older hnot).mpr hlen

/-! ## the operations and the log -/

theorem keys_kept : ((kept max log).map Prod.fst).Nodup := by
  rw [kept, List.map_reverse, List.nodup_reverse]
  exact (nodup_latest log).sublist ((List.take_sublist max _).map _)

theorem length_kept : (kept max log).length ≤ max := by
  rw [kept, List.length_reverse]
  exact List.length_take_le max _

theorem lookup_kept : (kept max log).lookup k = some v ↔ (k, v) ∈ (latest log).take max := by
  rw [← List.mem_reverse, ← kept]
  refine ⟨Table.mem_of_lookup, fun h => Table.lookup_of_all h fun v' h' => ?_⟩
  exact congrArg Prod.snd (List.inj_on_of_nodup_map keys_kept h' h rfl)

theorem length_le_filter {l : List (κ × ν)} (h : (l.map Prod.fst).Nodup) : l.length ≤ (l.filter (·.1 ≠ k)).length + 1 := by
  induction l with
  | nil => exact Nat.zero_le _
  | cons x l ih =>
    obtain ⟨hx, hl⟩ := List.nodup_cons.mp h
    by_cases hk : x.1 = k
    · -- no other entry has the key
      have hall : l.filter (·.1 ≠ k) = l := List.filter_eq_self.mpr fun y hy => decide_eq_true fun heq =>
        hx (hk ▸ heq ▸ List.mem_map_of_mem hy)
      rw [List.filter_cons_of_neg (by simp [hk]), hall]
      exact Nat.le_refl _
    · rw [List.filter_cons_of_pos (by simpa using hk), List.length_cons, List.length_cons]
      exact Nat.succ_le_succ (ih hl)

theorem take_filter {l : List (κ × ν)} (h : (l.map Prod.fst).Nodup) (m : ℕ) :
    ((l.take (m + 1)).filter (·.1 ≠ k)).take m = (l.filter (·.1 ≠ k)).take m := by
  conv_rhs => rw [← List.take_append_drop (m + 1) l, List.filter_append, List.take_append]
  by_cases hlen : l.length ≤ m + 1
  · rw [List.drop_eq_nil_of_le hlen, List.filter_nil, List.take_nil, List.append_nil]
  · have hlong := length_le_filter (k := k) (h.sublist ((List.take_sublist (m + 1) l).map _))
    rw [List.length_take, Nat.min_eq_left (by omega)] at hlong
    have hzero : m - ((l.take (m + 1)).filter (·.1 ≠ k)).length = 0 := by omega
    rw [hzero, List.take_zero, List.append_nil]

/-- **A write**: the cache of the log with one more use. -/
theorem put_kept : put max k v (kept max log) = kept max ((k, v) :: log) := by
  have hmoved : moveToEnd k v (kept max log) = ((k, v) :: ((latest log).take max).filter (·.1 ≠ k)).reverse := by
    rw [moveToEnd, kept, List.filter_reverse, List.reverse_cons]
  rw [put, evict, hmoved, List.drop_reverse, List.length_reverse, Nat.sub_sub_eq_min, kept, latest, Nat.min_comm, ← List.take_eq_take_min]
  congr 1
  cases max with
  | zero => simp
  | succ m =>
    rw [List.take_succ_cons, List.take_succ_cons, take_filter (nodup_latest log) m]

/-- **A read that finds a value** is a use. -/
theorem get_kept (h : (kept max log).lookup k = some v) : get k (kept max log) = (some v, kept max ((k, v) :: log)) := by
  have hlen : (moveToEnd k v (kept max log)).length ≤ max := by
    have hlt : ((kept max log).filter (·.1 ≠ k)).length < (kept max log).length :=
      List.length_filter_lt_length_iff_exists.mpr ⟨(k, v), Table.mem_of_lookup h, by simp⟩
    rw [moveToEnd, List.length_append, List.length_singleton]
    exact Nat.le_trans hlt length_kept
  have hput : put max k v (kept max log) = moveToEnd k v (kept max log) := by
    rw [put, evict, Nat.sub_eq_zero_of_le hlen, List.drop_zero]
  simp only [get, h]
  rw [← hput, put_kept]

theorem get_kept_miss (h : (kept max log).lookup k = none) : get k (kept max log) = (none, kept max log) := by
  rw [get, h]

/-- **What a read finds**: a value that fewer than `max` other keys were used after. -/
theorem get_kept_iff : (get k (kept max log)).1 = some v ↔ ∃ newer older, log = newer ++ (k, v) :: older ∧
    k ∉ newer.map Prod.fst ∧ (newer.map Prod.fst).dedup.length < max := by
  rw [← mem_take_latest, ← lookup_kept]
  cases h : (kept max log).lookup k with
  | none => rw [get_kept_miss h]
  | some v' => rw [get_kept h]

end Kajet.Lru
