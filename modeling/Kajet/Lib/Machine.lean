import Mathlib.Logic.Relation
import Mathlib.Data.List.Basic

/-!
# Machines: guarded runs, invariants, simulations

A `Machine σ α` is a deterministic step function whose nondeterminism sits in the action
(clock values, generated ids, tie breaks, the order of the parties).  An action that is not
enabled has no next state.

* `Machine.Reach ok`   the states of the runs whose every step meets the condition `ok` on the
                       state before the step and the action;
* `Machine.exec`       the run of an action list, computed; `Machine.Guarded` decides whether its
                       steps meet a condition;
* `Reach.inv`          the invariant rule: holds at the start, kept by every step of the run;
* `Reach.mono`         a weaker condition has more runs;
* `exec_rel`           what every step keeps, a run keeps;
* `Machine.Sim`        a map of states and actions that carries steps to runs; it carries the
                       reachable states along (`Sim.reach`).
-/

namespace Kajet

universe u v

/-- A start predicate and a partial step function. -/
structure Machine (σ : Type u) (α : Type v) where
  start : σ → Prop
  next : σ → α → Option σ

namespace Machine
variable {σ : Type u} {α : Type v} {M : Machine σ α} {ok ok' : σ → α → Prop} {s t r : σ}

/-- The states of the runs of `M` whose steps all meet `ok`. -/
inductive Reach (M : Machine σ α) (ok : σ → α → Prop) : σ → Prop
  | start {s : σ} (h : M.start s) : Reach M ok s
  | step {s t : σ} {a : α} (h : Reach M ok s) (hok : ok s a) (hs : M.next s a = some t) :
      Reach M ok t

/-- no condition on the steps -/
abbrev free : σ → α → Prop := fun _ _ => True

/-- **Invariant rule.**  The state before the step is known to be on the run. -/
theorem Reach.inv {P : σ → Prop} (h0 : ∀ s, M.start s → P s)
    (hs : ∀ s a t, Reach M ok s → P s → ok s a → M.next s a = some t → P t)
    (h : Reach M ok s) : P s := by
  induction h with
  | start h => exact h0 _ h
  | step h hok hst ih => exact hs _ _ _ h ih hok hst

theorem Reach.mono (hok : ∀ s a, ok s a → ok' s a) (h : Reach M ok s) : Reach M ok' s := by
  induction h with
  | start h => exact .start h
  | step _ h1 h2 ih => exact .step ih (hok _ _ h1) h2

/-- The run of a list of actions, if every one of them is enabled. -/
def exec (M : Machine σ α) : σ → List α → Option σ
  | s, [] => some s
  | s, a :: as => (M.next s a).bind fun t => exec M t as

@[simp] theorem exec_nil (s : σ) : M.exec s [] = some s := rfl
theorem exec_cons (s : σ) (a : α) (as : List α) :
    M.exec s (a :: as) = (M.next s a).bind fun t => M.exec t as := rfl

/-- What is kept by every step from a state to the next is kept from the first to the last. -/
theorem exec_rel {R : σ → σ → Prop} (hrefl : ∀ s, R s s) (htrans : ∀ s t r, R s t → R t r → R s r)
    (hstep : ∀ s a t, M.next s a = some t → R s t) {as : List α} (h : M.exec s as = some t) : R s t := by
  induction as generalizing s with
  | nil => exact Option.some.inj h ▸ hrefl s
  | cons a as ih =>
    rw [exec_cons] at h
    obtain ⟨r, hr, hrun⟩ := Option.bind_eq_some_iff.mp h
    exact htrans s r t (hstep s a r hr) (ih hrun)

/-- Every step of the run meets `ok`. -/
def Guarded (M : Machine σ α) (ok : σ → α → Prop) : σ → List α → Prop
  | _, [] => True
  | s, a :: as => ok s a ∧ ∀ t ∈ M.next s a, Guarded M ok t as

instance decidableGuarded [∀ s a, Decidable (ok s a)] :
    (s : σ) → (as : List α) → Decidable (M.Guarded ok s as)
  | _, [] => isTrue trivial
  | s, a :: as =>
    have (t : σ) : Decidable (M.Guarded ok t as) := decidableGuarded t as
    inferInstanceAs (Decidable (ok s a ∧ ∀ t ∈ M.next s a, M.Guarded ok t as))

theorem guarded_free (s : σ) (as : List α) : M.Guarded free s as := by
  induction as generalizing s with
  | nil => trivial
  | cons a as ih => exact ⟨trivial, fun t _ => ih t⟩

/-- A computed run reaches its last state. -/
theorem Reach.of_guarded {as : List α} (h0 : Reach M ok s) (hg : M.Guarded ok s as)
    (h : M.exec s as = some t) : Reach M ok t := by
  induction as generalizing s with
  | nil => exact Option.some.inj h ▸ h0
  | cons a as ih =>
    rw [exec_cons] at h
    obtain ⟨r, hr, hrun⟩ := Option.bind_eq_some_iff.mp h
    exact ih (.step h0 hg.1 hr) (hg.2 r hr) hrun

theorem Reach.of_exec {as : List α} (h0 : Reach M free s) (h : M.exec s as = some t) :
    Reach M free t := h0.of_guarded (guarded_free s as) h

/-- A map of machines: start states go to start states, a step goes to a step or to nothing. -/
structure Sim {σ' : Type*} {α' : Type*} (M : Machine σ α) (M' : Machine σ' α') where
  abs : σ → σ'
  start : ∀ s, M.start s → M'.start (abs s)
  step : ∀ s a t, M.next s a = some t →
    abs t = abs s ∨ ∃ a', M'.next (abs s) a' = some (abs t)

theorem Sim.reach {σ' α' : Type*} {M' : Machine σ' α'} (f : Sim M M') (h : Reach M ok s) :
    Reach M' free (f.abs s) := by
  induction h with
  | start h => exact .start (f.start _ h)
  | step _ _ hst ih =>
    rcases f.step _ _ _ hst with h | ⟨a', h⟩
    · rw [h]; exact ih
    · exact .step ih trivial h

end Machine
end Kajet
