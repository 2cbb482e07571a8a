import Kajet.Lib.Table

/-!
# Computations that may fail

* `bind_of_ok`              the next call, after one that went through;
* `map_ok`, `map_error`, `mapError_ok`   the result under a `map`;
* `mapM_ok`, `mapM_eq_some`   the results of a list, one for each element;
* `foldlM_along`           an invariant of a fold that may name what has been folded;
* `Avoids`                  errors of a kind are not raised.
-/

namespace Kajet.Fallible
open Table

variable {ε ε' α β σ : Type}

theorem bind_of_ok {x : Except ε α} {f : α → Except ε β} {a : α} (h : x = .ok a) : x >>= f = f a := by
  rw [h]
  rfl

theorem map_ok {g : α → β} {x : Except ε α} {b : β} (h : x.map g = .ok b) :
    ∃ a, x = .ok a ∧ g a = b := by
  cases x with
  | error e => cases h
  | ok a => exact ⟨a, rfl, Except.ok.inj h⟩

theorem map_error {g : α → β} {x : Except ε α} {e : ε} (h : x.map g = .error e) : x = .error e := by
  cases x with
  | error e' =>
    cases h
    rfl
  | ok a => cases h

theorem exists_ok {x : Except ε α} {f : α → β} {b : β}
    (h : x.toOption.map f = some b) : ∃ a, x = .ok a ∧ f a = b := by
  cases x with
  | error e => cases h
  | ok a => exact ⟨a, rfl, Option.some.inj h⟩

theorem mapError_ok {g : ε → ε'} {x : Except ε α} {a : α} (h : x.mapError g = .ok a) : x = .ok a := by
  cases x with
  | error e => cases h
  | ok b =>
    cases h
    rfl

theorem ok_of_toOption {x : Except ε α} {a : α} (h : x.toOption = some a) : x = .ok a := by
  cases x with
  | error e => cases h
  | ok b =>
    cases h
    rfl

theorem mapM_ok {g : α → Except ε β} {l : List α} {r : List β} (h : l.mapM g = .ok r) :
    List.Forall₂ (fun a b => g a = .ok b) l r := by
  induction l generalizing r with
  | nil =>
    cases h
    exact .nil
  | cons a l ih =>
    rw [List.mapM_cons] at h
    obtain ⟨b, hb, h⟩ := bind_ok h
    obtain ⟨bs, hbs, h⟩ := bind_ok h
    cases h
    exact .cons hb (ih hbs)

theorem mapM_of_forall₂ {g : α → Except ε β} {l : List α} {r : List β}
    (h : List.Forall₂ (fun a b => g a = .ok b) l r) : l.mapM g = .ok r := by
  induction h with
  | nil => rfl
  | cons hb _ ih =>
    rw [List.mapM_cons, hb, ih]
    rfl

theorem mapM_eq_map {g : α → Except ε β} {f : α → β} {l : List α} (h : ∀ a ∈ l, g a = .ok (f a)) :
    l.mapM g = .ok (l.map f) := by
  refine mapM_of_forall₂ (List.forall₂_map_right_iff.mpr ?_)
  exact List.forall₂_same.mpr h

theorem forall₂_of_forall_exists {R : α → β → Prop} {l : List α} (h : ∀ a ∈ l, ∃ b, R a b) :
    ∃ r, List.Forall₂ R l r := by
  induction l with
  | nil => exact ⟨[], .nil⟩
  | cons a l ih =>
    obtain ⟨b, hb⟩ := h a List.mem_cons_self
    obtain ⟨r, hr⟩ := ih fun a ha => h a (List.mem_cons_of_mem _ ha)
    exact ⟨b :: r, .cons hb hr⟩

theorem exists_of_forall₂ {R : α → β → Prop} {l : List α} {r : List β} {a : α} (h : List.Forall₂ R l r)
    (ha : a ∈ l) : ∃ b ∈ r, R a b := by
  induction h with
  | nil => cases ha
  | cons hab _ ih =>
    rcases List.mem_cons.mp ha with rfl | ha
    · exact ⟨_, List.mem_cons_self, hab⟩
    · obtain ⟨b, hb, hR⟩ := ih ha
      exact ⟨b, List.mem_cons_of_mem _ hb, hR⟩

theorem mem_of_mapM_ok {g : α → Except ε β} {l : List α} {r : List β} {b : β}
    (h : l.mapM g = .ok r) (hb : b ∈ r) : ∃ a ∈ l, g a = .ok b := exists_of_forall₂ (mapM_ok h).flip hb

theorem exists_of_mapM_ok {g : α → Except ε β} {l : List α} {r : List β} {a : α}
    (h : l.mapM g = .ok r) (ha : a ∈ l) : ∃ b ∈ r, g a = .ok b := exists_of_forall₂ (mapM_ok h) ha

theorem exists_zip_of_mapM_ok {g : α → Except ε β} {l : List α} {r : List β} {a : α}
    (h : l.mapM g = .ok r) (ha : a ∈ l) : ∃ b, (a, b) ∈ l.zip r ∧ g a = .ok b := by
  have hall := mapM_ok h
  clear h
  induction hall with
  | nil => cases ha
  | cons hab _ ih =>
    rcases List.mem_cons.mp ha with rfl | ha
    · exact ⟨_, List.mem_cons_self, hab⟩
    · obtain ⟨b, hb, hg⟩ := ih ha
      exact ⟨b, List.mem_cons_of_mem _ hb, hg⟩

/-- The results are as far apart as what they come from. -/
theorem mapM_pairwise {g : α → Except ε β} {l : List α} {r : List β} {R : α → α → Prop} {S : β → β → Prop}
    (hl : l.Pairwise R) (hR : ∀ a a' b b', R a a' → g a = .ok b → g a' = .ok b' → S b b')
    (h : l.mapM g = .ok r) : r.Pairwise S := by
  have hall := mapM_ok h
  induction hall with
  | nil => exact .nil
  | @cons a b l r hab hrest ih =>
    rw [List.pairwise_cons] at hl
    have hok := mapM_of_forall₂ hrest
    refine List.pairwise_cons.mpr ⟨fun b' hb' => ?_, ih hl.2 hok⟩
    obtain ⟨a', ha', hg⟩ := mem_of_mapM_ok hok hb'
    exact hR a a' b b' (hl.1 a' ha') hab hg

theorem mapM_congr {m : Type → Type} [Monad m] [LawfulMonad m] {f g : α → m β} {l : List α}
    (h : ∀ a ∈ l, f a = g a) : l.mapM f = l.mapM g := by
  induction l with
  | nil => rfl
  | cons a l ih =>
    rw [List.mapM_cons, List.mapM_cons, h a List.mem_cons_self, ih fun b hb => h b (List.mem_cons_of_mem a hb)]

/-! ## optional results -/

section
variable {f g : α → Option β} {l : List α} {bs : List β} {b : β}

theorem mapM_eq_some : l.mapM f = some bs ↔ List.Forall₂ (fun a b => f a = some b) l bs := by
  induction l generalizing bs with
  | nil =>
    rw [List.mapM_nil, List.forall₂_nil_left_iff]
    exact ⟨fun h => (Option.some.inj h).symm, fun h => congrArg some h.symm⟩
  | cons a l ih =>
    rw [List.mapM_cons, List.forall₂_cons_left_iff]
    constructor
    · intro h
      obtain ⟨b, hb, h⟩ := Option.bind_eq_some_iff.mp h
      obtain ⟨bs', hbs, h⟩ := Option.bind_eq_some_iff.mp h
      exact ⟨b, bs', hb, ih.mp hbs, (Option.some.inj h).symm⟩
    · rintro ⟨b, bs', hb, hbs, rfl⟩
      rw [hb, Option.bind_eq_bind, Option.bind_some, ih.mpr hbs]
      rfl

theorem mapM_isSome (h : ∀ a ∈ l, (f a).isSome = true) : ∃ bs, l.mapM f = some bs := by
  induction l with
  | nil => exact ⟨[], rfl⟩
  | cons a l ih =>
    obtain ⟨b, hb⟩ := Option.isSome_iff_exists.mp (h a List.mem_cons_self)
    obtain ⟨bs, hbs⟩ := ih fun a ha => h a (List.mem_cons_of_mem _ ha)
    exact ⟨b :: bs, mapM_eq_some.mpr (.cons hb (mapM_eq_some.mp hbs))⟩

theorem mem_mapM (h : l.mapM f = some bs) : b ∈ bs ↔ ∃ a ∈ l, f a = some b := by
  have hall := mapM_eq_some.mp h
  clear h
  induction hall with
  | nil => simp
  | @cons a c l bs hac _ hrest =>
    have ih : b ∈ bs ↔ ∃ a ∈ l, f a = some b := hrest
    rw [List.mem_cons, ih, List.exists_mem_cons_iff, hac, Option.some_inj, eq_comm]

end

/-! ## folds -/

/-- **Fold rule.**  `P` speaks of the elements folded so far and of the state they led to. -/
theorem foldlM_along {step : σ → α → Except ε σ} {P : List α → σ → Prop} {s t : σ} {l : List α}
    (h0 : P [] s) (hstep : ∀ done a rest s t, l = done ++ a :: rest → P done s → step s a = .ok t →
      P (done ++ [a]) t) (h : l.foldlM step s = .ok t) : P l t := by
  suffices hgen : ∀ rest done s, l = done ++ rest → P done s → rest.foldlM step s = .ok t → P l t from
    hgen l [] s rfl h0 h
  intro rest
  induction rest with
  | nil =>
    intro done s hl hP h
    cases h
    rwa [hl, List.append_nil]
  | cons a rest ih =>
    intro done s hl hP h
    rw [List.foldlM_cons] at h
    obtain ⟨r, hr, h⟩ := bind_ok h
    exact ih (done ++ [a]) r (by rw [hl, List.append_cons]) (hstep done a rest s r hl hP hr) h

/-- An invariant of the state alone. -/
theorem foldlM_inv {step : σ → α → Except ε σ} {P : σ → Prop} {s t : σ} {l : List α} (h0 : P s)
    (hstep : ∀ a ∈ l, ∀ s t, P s → step s a = .ok t → P t) (h : l.foldlM step s = .ok t) : P t :=
  foldlM_along (P := fun _ => P) h0
    (fun done a rest s t hl => hstep a
      (by rw [hl]; exact List.mem_append_right _ List.mem_cons_self) s t) h

/-- A fold goes through when every step does. -/
theorem foldlM_total {step : σ → α → Except ε σ} {P : List α → σ → Prop} {s : σ} {l : List α}
    (h0 : P [] s) (hstep : ∀ done a rest s, l = done ++ a :: rest → P done s →
      ∃ t, step s a = .ok t ∧ P (done ++ [a]) t) : ∃ t, l.foldlM step s = .ok t ∧ P l t := by
  suffices hgen : ∀ rest done s, l = done ++ rest → P done s →
      ∃ t, rest.foldlM step s = .ok t ∧ P l t from hgen l [] s rfl h0
  intro rest
  induction rest with
  | nil =>
    intro done s hl hP
    exact ⟨s, rfl, by rwa [hl, List.append_nil]⟩
  | cons a rest ih =>
    intro done s hl hP
    obtain ⟨r, hr, hP⟩ := hstep done a rest s hl hP
    obtain ⟨t, ht, hPt⟩ := ih (done ++ [a]) r (by rw [hl, List.append_cons]) hP
    refine ⟨t, ?_, hPt⟩
    rw [List.foldlM_cons, hr]
    exact ht

/-! ## errors that are not raised -/

/-- The call does not fail with such an error. -/
def Avoids (bad : ε → Prop) (x : Except ε α) : Prop := ∀ e, x = .error e → ¬ bad e

section
variable {bad : ε → Prop} {x : Except ε α}

theorem Avoids.ok (a : α) : Avoids bad (.ok a : Except ε α) := fun _ h => (nomatch h)

theorem Avoids.error {e : ε} (h : ¬ bad e) : Avoids bad (.error e : Except ε α) := by
  rintro _ ⟨⟩
  exact h

theorem Avoids.bind {α β : Type} {x : Except ε α} {f : α → Except ε β} (hx : Avoids bad x)
    (hf : ∀ a, x = .ok a → Avoids bad (f a)) : Avoids bad (x >>= f) := by
  cases x with
  | error e => exact fun e' h => hx e' (by cases h; rfl)
  | ok a => exact hf a rfl

theorem Avoids.map {g : α → β} (hx : Avoids bad x) : Avoids bad (x.map g) := by
  cases x with
  | error e => exact fun e' h => hx e' (by cases h; rfl)
  | ok a => exact .ok (g a)

theorem Avoids.mapM {α β : Type} {g : α → Except ε β} {l : List α} (h : ∀ a ∈ l, Avoids bad (g a)) :
    Avoids bad (l.mapM g) := by
  induction l with
  | nil => exact .ok []
  | cons a l ih =>
    rw [List.mapM_cons]
    refine (h a List.mem_cons_self).bind fun b _ => ?_
    exact (ih fun a' ha' => h a' (List.mem_cons_of_mem a ha')).bind fun bs _ => .ok (b :: bs)

theorem Avoids.foldlM {step : σ → α → Except ε σ} {l : List α} (h : ∀ a ∈ l, ∀ s, Avoids bad (step s a)) (s : σ) :
    Avoids bad (l.foldlM step s) := by
  induction l generalizing s with
  | nil => exact .ok s
  | cons a l ih =>
    rw [List.foldlM_cons]
    exact (h a List.mem_cons_self s).bind fun t _ => ih (fun b hb => h b (List.mem_cons_of_mem a hb)) t

end

end Kajet.Fallible
