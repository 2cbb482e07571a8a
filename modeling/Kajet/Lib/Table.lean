import Mathlib.Data.List.Basic
import Mathlib.Data.List.Nodup
import Mathlib.Data.List.Pairwise
import Mathlib.Tactic.Common

/-!
# Tables: rows, `UPDATE … WHERE`, `DELETE … WHERE`, unique indexes

A table is the list of its rows.  A unique index (total, nullable or partial) is a function
`key : ρ → Option κ`: a row with key `none` is not in the index, two rows in the index have
different keys (`UniqueOn key`).

* `updateWhere p f t`, `deleteWhere p t`   the two statements;
* `UniqueOn.eq`                            two rows of the index with one key are one row;
* `UniqueOn.deleteWhere`, `uniqueOn_cons`  deleting keeps an index, inserting asks for a free key;
* `UniqueOn.updateWhere`                   an update that moves no row into the index keeps it;
* `uniqueOn_updateWhere_iff`               an update is legal exactly when no two rows end up with
                                           one key;
* `row`, `Keyed`                           the row of a primary key, after each statement;
* `mem_of_lookup`, `lookup_map`            the values of an association list;
* `bind_ok`                                both parts of a transaction that went through.
-/

namespace Kajet.Table

variable {ρ κ : Type*}

theorem bind_ok {ε α β : Type} {x : Except ε α} {f : α → Except ε β} {b : β}
    (h : x >>= f = .ok b) : ∃ a, x = .ok a ∧ f a = .ok b := by
  cases x with
  | error e => cases h
  | ok a => exact ⟨a, rfl, h⟩

/-- `UPDATE t SET f WHERE p` -/
def updateWhere (p : ρ → Bool) (f : ρ → ρ) (t : List ρ) : List ρ :=
  t.map fun r => if p r then f r else r

/-- `DELETE FROM t WHERE p` -/
def deleteWhere (p : ρ → Bool) (t : List ρ) : List ρ := t.filter fun r => !p r

/-- No two rows of the index carry the same key. -/
def UniqueOn (key : ρ → Option κ) (t : List ρ) : Prop := (t.filterMap key).Nodup

/-- The two rows do not clash in the index. -/
def Differ (key : ρ → Option κ) (a b : ρ) : Prop := ∀ k, key a = some k → key b ≠ some k

instance (key : ρ → Option κ) : Std.Symm (Differ key) := ⟨fun _ _ h k hb ha => h k ha hb⟩

section
variable {p : ρ → Bool} {f : ρ → ρ} {t : List ρ} {r : ρ}

@[simp] theorem updateWhere_nil : updateWhere p f ([] : List ρ) = [] := rfl
@[simp] theorem deleteWhere_nil : deleteWhere p ([] : List ρ) = [] := rfl
@[simp] theorem length_updateWhere : (updateWhere p f t).length = t.length := List.length_map _

theorem mem_updateWhere : r ∈ updateWhere p f t ↔
    (∃ x ∈ t, p x = true ∧ f x = r) ∨ (r ∈ t ∧ p r = false) := by
  simp only [updateWhere, List.mem_map]
  constructor
  · rintro ⟨x, hx, rfl⟩
    cases h : p x with
    | true => exact .inl ⟨x, hx, h, by simp⟩
    | false => exact .inr (by simp [h, hx])
  · rintro (⟨x, hx, h, rfl⟩ | ⟨hx, h⟩)
    · exact ⟨x, hx, by simp [h]⟩
    · exact ⟨r, hx, by simp [h]⟩

@[simp] theorem mem_deleteWhere : r ∈ deleteWhere p t ↔ r ∈ t ∧ p r = false := by
  simp [deleteWhere]

/-- A row that the update does not select is still there. -/
theorem mem_updateWhere_of_not (h : r ∈ t) (hp : p r = false) : r ∈ updateWhere p f t :=
  mem_updateWhere.mpr (.inr ⟨h, hp⟩)

theorem mem_updateWhere_of_sel (h : r ∈ t) (hp : p r = true) : f r ∈ updateWhere p f t :=
  mem_updateWhere.mpr (.inl ⟨r, h, hp, rfl⟩)

/-- An update leaves alone what its function leaves alone. -/
theorem map_updateWhere {γ : Type*} {g : ρ → γ} (hf : ∀ r, g (f r) = g r) : (updateWhere p f t).map g = t.map g := by
  rw [updateWhere, List.map_map]
  apply List.map_congr_left
  intro r _
  show g (if p r then f r else r) = g r
  split
  · exact hf r
  · rfl

theorem updateWhere_of_none (h : ∀ r ∈ t, p r = false) : updateWhere p f t = t := by
  have hid : ∀ r ∈ t, (if p r then f r else r) = r := fun r hr => by simp [h r hr]
  rw [updateWhere, List.map_congr_left hid, List.map_id']

/-- An update that stays outside of a selection. -/
theorem filter_updateWhere {q : ρ → Bool} (h : ∀ r ∈ t, p r = true → q r = false ∧ q (f r) = false) :
    (updateWhere p f t).filter q = t.filter q := by
  induction t with
  | nil => rfl
  | cons r t ih =>
    have ih := ih fun x hx => h x (List.mem_cons_of_mem r hx)
    show List.filter q ((if p r then f r else r) :: updateWhere p f t) = _
    rw [List.filter_cons, List.filter_cons, ih]
    cases hp : p r with
    | false => rfl
    | true =>
      obtain ⟨hr, hfr⟩ := h r List.mem_cons_self hp
      simp [hr, hfr]

/-- An update within the selection. -/
theorem filter_updateWhere_self (h : ∀ r ∈ t, p r = true → p (f r) = true) :
    (updateWhere p f t).filter p = (t.filter p).map f := by
  induction t with
  | nil => rfl
  | cons r t ih =>
    have ih := ih fun x hx => h x (List.mem_cons_of_mem r hx)
    show List.filter p ((if p r then f r else r) :: updateWhere p f t) = _
    rw [List.filter_cons, List.filter_cons, ih]
    cases hp : p r with
    | false => simp [hp]
    | true => simp [h r List.mem_cons_self hp]

/-- Deletions one after the other are one deletion. -/
theorem foldl_deleteWhere {γ : Type*} (q : γ → ρ → Bool) (cs : List γ) (t : List ρ) :
    cs.foldl (fun t c => deleteWhere (q c) t) t = deleteWhere (fun r => cs.any fun c => q c r) t := by
  induction cs generalizing t with
  | nil => simp [deleteWhere]
  | cons c cs ih =>
    rw [List.foldl_cons, ih, deleteWhere, deleteWhere, deleteWhere, List.filter_filter]
    exact List.filter_congr fun r _ => by simp [Bool.and_comm]

theorem deleteWhere_of_none (h : ∀ r ∈ t, p r = false) : deleteWhere p t = t :=
  List.filter_eq_self.mpr fun r hr => by simp [h r hr]

end

section
variable {key : ρ → Option κ} {p : ρ → Bool} {f : ρ → ρ} {t : List ρ} {a b : ρ} {k : κ}

instance [DecidableEq κ] : DecidablePred (UniqueOn key) := fun t =>
  inferInstanceAs (Decidable (t.filterMap key).Nodup)

@[simp] theorem UniqueOn.nil : UniqueOn key ([] : List ρ) := List.nodup_nil

theorem uniqueOn_iff_pairwise : UniqueOn key t ↔ t.Pairwise (Differ key) := by
  rw [UniqueOn, List.Nodup, List.pairwise_filterMap]
  apply List.Pairwise.iff
  intro a b
  constructor
  · intro h k ha hb
    exact h k ha k hb rfl
  · rintro h k ha k' hb rfl
    exact h k ha hb

theorem uniqueOn_cons : UniqueOn key (a :: t) ↔
    (∀ k, key a = some k → ∀ b ∈ t, key b ≠ some k) ∧ UniqueOn key t := by
  simp only [uniqueOn_iff_pairwise, List.pairwise_cons, Differ]
  constructor
  · rintro ⟨h1, h2⟩
    exact ⟨fun k hk b hb => h1 b hb k hk, h2⟩
  · rintro ⟨h1, h2⟩
    exact ⟨fun b hb k hk => h1 k hk b hb, h2⟩

/-- Two rows of the table with the same key are the same row. -/
theorem UniqueOn.eq (h : UniqueOn key t) (ha : a ∈ t) (hb : b ∈ t) (hka : key a = some k)
    (hkb : key b = some k) : a = b := by
  by_contra hne
  exact (uniqueOn_iff_pairwise.mp h).forall ha hb hne k hka hkb

theorem UniqueOn.concat (h : UniqueOn key t) (ha : ∀ r ∈ t, ∀ k, key r = some k → key a ≠ some k) :
    UniqueOn key (t ++ [a]) := by
  rw [uniqueOn_iff_pairwise, List.pairwise_append]
  refine ⟨uniqueOn_iff_pairwise.mp h, List.pairwise_singleton _ _, fun r hr b hb k hk => ?_⟩
  rw [List.mem_singleton.mp hb]
  exact ha r hr k hk

theorem UniqueOn.deleteWhere (h : UniqueOn key t) : UniqueOn key (deleteWhere p t) :=
  h.sublist (List.filter_sublist.filterMap key)

/-- A total key makes the rows different. -/
theorem UniqueOn.nodup (h : UniqueOn key t) (htot : ∀ r ∈ t, (key r).isSome) : t.Nodup := by
  refine (uniqueOn_iff_pairwise.mp h).imp_of_mem ?_
  rintro a b ha _ hab rfl
  obtain ⟨k, hk⟩ := Option.isSome_iff_exists.mp (htot a ha)
  exact hab k hk hk

/-- An update that leaves every key alone or takes the row out of the index keeps the index. -/
theorem UniqueOn.updateWhere (h : UniqueOn key t)
    (hf : ∀ r ∈ t, p r = true → ∀ k, key (f r) = some k → key r = some k) :
    UniqueOn key (updateWhere p f t) := by
  have hkeep : ∀ r ∈ t, ∀ k, key (if p r then f r else r) = some k → key r = some k := by
    intro r hr k hk
    cases hp : p r with
    | true => exact hf r hr hp k (by simpa [hp] using hk)
    | false => simpa [hp] using hk
  rw [uniqueOn_iff_pairwise, Table.updateWhere, List.pairwise_map]
  refine (uniqueOn_iff_pairwise.mp h).imp_of_mem ?_
  intro a b ha hb hab k hka hkb
  exact hab k (hkeep a ha k hka) (hkeep b hb k hkb)

/-- On a table without repeated rows an update is legal exactly when no two rows end up with
one key. -/
theorem uniqueOn_updateWhere_iff (hnd : t.Nodup) : UniqueOn key (Table.updateWhere p f t) ↔
    ∀ a ∈ t, ∀ b ∈ t, a ≠ b → Differ key (if p a then f a else a) (if p b then f b else b) := by
  rw [uniqueOn_iff_pairwise, Table.updateWhere, List.pairwise_map]
  constructor
  · intro h a ha b hb hne
    have : Std.Symm fun a b : ρ => Differ key (if p a then f a else a) (if p b then f b else b) :=
      ⟨fun a b h => Std.Symm.symm _ _ h⟩
    exact h.forall ha hb hne
  · intro h
    exact hnd.pairwise_of_forall_ne fun a ha b hb hne => h a ha b hb hne

end

/-! ## the row of a primary key -/

section
variable {key : ρ → κ} {p : ρ → Bool} {f : ρ → ρ} {t : List ρ} {r : ρ} {k : κ}

/-- `key` is a primary key of the table. -/
abbrev Keyed (key : ρ → κ) (t : List ρ) : Prop := UniqueOn (fun r => some (key r)) t

theorem keyed_iff_nodup : Keyed key t ↔ (t.map key).Nodup := by
  rw [Keyed, UniqueOn, List.filterMap_eq_map']

theorem Keyed.eq (h : Keyed key t) {a b : ρ} (ha : a ∈ t) (hb : b ∈ t) (hk : key a = key b) :
    a = b := UniqueOn.eq h ha hb (congrArg some hk) rfl

theorem Keyed.append (h : Keyed key t) (hr : ∀ x ∈ t, key x ≠ key r) : Keyed key (t ++ [r]) := by
  have hcons : Keyed key (r :: t) := uniqueOn_cons.mpr ⟨fun k hk x hx hxk =>
    hr x hx ((Option.some.inj hxk).trans (Option.some.inj hk).symm), h⟩
  exact (((List.perm_append_singleton r t).filterMap _).nodup_iff).mpr hcons

theorem Keyed.updateWhere (h : Keyed key t) (hf : ∀ r, key (f r) = key r) :
    Keyed key (updateWhere p f t) :=
  UniqueOn.updateWhere h fun r _ _ k hk => by rw [hf] at hk; exact hk

/-- The keys of a selection are those of the selected rows. -/
theorem Keyed.mem_map_filter (h : Keyed key t) (hr : r ∈ t) :
    key r ∈ (t.filter p).map key ↔ p r = true := by
  rw [List.mem_map]
  constructor
  · rintro ⟨x, hx, hxr⟩
    obtain ⟨hx, hp⟩ := List.mem_filter.mp hx
    rwa [← h.eq hx hr hxr]
  · exact fun hp => ⟨r, List.mem_filter.mpr ⟨hr, hp⟩, rfl⟩

variable [DecidableEq κ]

/-- `SELECT … WHERE key = k`, one row at most when `key` is a primary key. -/
def row (key : ρ → κ) (t : List ρ) (k : κ) : Option ρ := t.find? fun r => key r = k

theorem row_some (h : row key t k = some r) : r ∈ t ∧ key r = k :=
  ⟨List.mem_of_find?_eq_some h, by simpa using List.find?_some h⟩

theorem row_eq_none : row key t k = none ↔ ∀ r ∈ t, key r ≠ k := by
  simp [row]

theorem Keyed.row_eq (h : Keyed key t) : row key t k = some r ↔ r ∈ t ∧ key r = k := by
  constructor
  · exact row_some
  rintro ⟨hr, rfl⟩
  cases hrow : row key t (key r) with
  | none => exact absurd rfl (row_eq_none.mp hrow r hr)
  | some r' => rw [h.eq (row_some hrow).1 hr (row_some hrow).2]

/-- A selection within one key has one row at most. -/
theorem Keyed.filter_row (h : Keyed key t) (hp : ∀ r, p r = true → key r = k) :
    t.filter p = ((row key t k).filter p).toList := by
  induction t with
  | nil => rfl
  | cons r t ih =>
    obtain ⟨hr, ht⟩ := uniqueOn_cons.mp h
    by_cases hk : key r = k
    · have hnone : t.filter p = [] := List.filter_eq_nil_iff.mpr fun x hx hpx =>
        hr k (congrArg some hk) x hx (congrArg some (hp x hpx))
      have hrow : row key (r :: t) k = some r := List.find?_cons_of_pos (decide_eq_true hk)
      rw [hrow, List.filter_cons, hnone]
      cases hpr : p r <;> simp [Option.filter, hpr]
    · have hrow : row key (r :: t) k = row key t k := List.find?_cons_of_neg (by simpa using hk)
      have hpr : ¬ p r = true := fun hpr => hk (hp r hpr)
      rw [hrow, List.filter_cons_of_neg hpr, ih ht]

theorem Keyed.length_filter (h : Keyed key t) (hp : ∀ r, p r = true → key r = k) (hrow : row key t k = some r) :
    decide ((t.filter p).length = 1) = p r := by
  rw [h.filter_row hp, hrow]
  cases hpr : p r <;> simp [Option.filter, hpr]

theorem row_updateWhere (hf : ∀ r, key (f r) = key r) : row key (updateWhere p f t) k =
    (row key t k).map fun r => if p r then f r else r := by
  have hkey : ∀ r, key (if p r then f r else r) = key r := fun r => by
    split
    · exact hf r
    · rfl
  rw [row, updateWhere, List.find?_map]
  congr 1
  exact congrArg (fun q => t.find? q) (funext fun r => by simp only [Function.comp, hkey])

theorem Keyed.row_deleteWhere (h : Keyed key t) : row key (deleteWhere p t) k =
    (row key t k).filter fun r => !p r := by
  apply Option.ext
  intro r
  rw [Keyed.row_eq (UniqueOn.deleteWhere h), Option.filter_eq_some_iff, h.row_eq, mem_deleteWhere]
  simp only [Bool.not_eq_true']
  tauto

theorem row_append : row key (t ++ [r]) k = (row key t k).or (if key r = k then some r else none) := by
  rw [row, List.find?_append]
  congr 1
  by_cases h : key r = k <;> simp [h]

end

/-! ## association lists -/

section
variable {α β ι : Type*} [BEq α] [LawfulBEq α] {l : List (α × β)} {k : α} {b : β}

theorem mem_of_lookup (h : l.lookup k = some b) : (k, b) ∈ l := by
  obtain ⟨l₁, l₂, rfl, -⟩ := List.lookup_eq_some_iff.mp h
  exact List.mem_append_right _ List.mem_cons_self

theorem exists_lookup (h : (k, b) ∈ l) : ∃ b', l.lookup k = some b' := by
  cases hl : l.lookup k with
  | some b' => exact ⟨b', rfl⟩
  | none => exact absurd (List.lookup_eq_none_iff.mp hl _ h) (by simp)

/-- All pairs of the key have one value. -/
theorem lookup_of_all (h : (k, b) ∈ l) (hall : ∀ b', (k, b') ∈ l → b' = b) : l.lookup k = some b := by
  obtain ⟨b', hb'⟩ := exists_lookup h
  rw [hb', hall b' (mem_of_lookup hb')]

theorem lookup_map {f : ι → α} {g : ι → β} {is : List ι} {i : ι} (hi : i ∈ is) (hsame : ∀ j ∈ is, f j = f i → g j = g i) :
    (is.map fun j => (f j, g j)).lookup (f i) = some (g i) := by
  refine lookup_of_all (List.mem_map.mpr ⟨i, hi, rfl⟩) fun b hb => ?_
  obtain ⟨j, hj, heq⟩ := List.mem_map.mp hb
  obtain ⟨hf, rfl⟩ := Prod.mk.inj heq
  exact hsame j hj hf

end

/-- An element of the list is the one that goes, or stays. -/
theorem mem_eraseIdx_or {α : Type*} {xs : List α} {k : ℕ} {a x : α} (hk : xs[k]? = some a) (hx : x ∈ xs) :
    x = a ∨ x ∈ xs.eraseIdx k := by
  obtain ⟨j, hj⟩ := List.mem_iff_getElem?.mp hx
  by_cases hjk : j = k
  · subst hjk
    exact .inl (Option.some.inj (hj.symm.trans hk))
  · exact .inr (List.mem_eraseIdx_iff_getElem?.mpr ⟨j, hjk, hj⟩)

end Kajet.Table
