import Mathlib.Tactic.Common
import Mathlib.Order.Lattice

/-!
# Loops on fuel

A loop that may run for ever takes the number of its rounds as an argument.  `Settles f a`: it ends with
`a`, and more rounds change nothing.
-/

namespace Kajet.Fuel

universe u
variable {α β σ : Type u} {f : ℕ → Option α} {a : α} {b : β}

def Settles (f : ℕ → Option α) (a : α) : Prop := ∃ n, ∀ fuel, n ≤ fuel → f fuel = some a

theorem Settles.pure (a : α) : Settles (fun _ => some a) a := ⟨0, fun _ _ => rfl⟩

theorem Settles.bind {g : ℕ → α → Option β} (hf : Settles f a) (hg : Settles (fun fuel => g fuel a) b) :
    Settles (fun fuel => f fuel >>= g fuel) b := by
  obtain ⟨n, hn⟩ := hf
  obtain ⟨m, hm⟩ := hg
  refine ⟨max n m, fun fuel h => ?_⟩
  show f fuel >>= g fuel = some b
  rw [hn fuel (le_trans (le_max_left n m) h)]
  exact hm fuel (le_trans (le_max_right n m) h)

theorem Settles.map {g : α → β} (hf : Settles f a) : Settles (fun fuel => (f fuel).map g) (g a) := by
  obtain ⟨n, hn⟩ := hf
  exact ⟨n, fun fuel h => congrArg (Option.map g) (hn fuel h)⟩

/-- A fold settles when each of its steps does, along an invariant that may name what has been folded. -/
theorem Settles.foldlM (step : ℕ → σ → α → Option σ) (P : List α → σ → Prop) {s : σ} {l : List α} (h0 : P [] s)
    (hstep : ∀ done s a, P done s → ∃ s', Settles (fun fuel => step fuel s a) s' ∧ P (done ++ [a]) s') :
    ∃ s', Settles (fun fuel => l.foldlM (step fuel) s) s' ∧ P l s' := by
  have hfrom : ∀ (l done : List α) (s : σ), P done s →
      ∃ s', Settles (fun fuel => l.foldlM (step fuel) s) s' ∧ P (done ++ l) s' := by
    intro l
    induction l with
    | nil => exact fun done s h => ⟨s, .pure s, by rwa [List.append_nil]⟩
    | cons a l ih =>
      intro done s h
      obtain ⟨s₁, hs₁, h₁⟩ := hstep done s a h
      obtain ⟨s', hs', h'⟩ := ih _ _ h₁
      exact ⟨s', hs₁.bind hs', by rwa [List.append_assoc] at h'⟩
  exact hfrom l [] s h0

end Kajet.Fuel
