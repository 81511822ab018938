import Mathlib.Order.WellFounded

/-!
# Iterated partial functions

A sequence of results, each obtained from the one before by a partial function. An invariant that the function
keeps, and that keeps it defined, holds of every result; a measure that goes down until the goal is reached
makes the sequence reach it.
-/

namespace Iteration

variable {σ : Type*} {f : σ → Option σ} {r : ℕ → Option σ} {I : σ → Prop}

/-- **Invariant rule**: no result is missing, and the invariant holds of all of them. -/
theorem exists_of_invariant (hr : ∀ n, r (n + 1) = (r n).bind f) (hinit : ∃ s, r 0 = some s ∧ I s)
    (hstep : ∀ s, I s → ∃ s', f s = some s' ∧ I s') (n : ℕ) : ∃ s, r n = some s ∧ I s := by
  induction n with
  | zero => exact hinit
  | succ n ih =>
    obtain ⟨s, hs, hI⟩ := ih
    obtain ⟨s', hs', hI'⟩ := hstep s hI
    refine ⟨s', ?_, hI'⟩
    rw [hr, hs]
    exact hs'

/-- **Termination rule**: the goal is reached from any result. -/
theorem exists_of_measure {α : Type*} [Preorder α] [WellFoundedLT α] {goal : σ → Prop} {μ : σ → α}
    (hr : ∀ n, r (n + 1) = (r n).bind f)
    (hstep : ∀ s, I s → ¬ goal s → ∃ s', f s = some s' ∧ I s' ∧ μ s' < μ s) {n : ℕ} {s : σ}
    (hs : r n = some s) (hI : I s) : ∃ m s', r m = some s' ∧ I s' ∧ goal s' := by
  induction hμ : μ s using (wellFounded_lt (α := α)).induction generalizing n s with
  | _ a ih =>
    by_cases hgoal : goal s
    · exact ⟨n, s, hs, hI, hgoal⟩
    · obtain ⟨s', hs', hI', hlt⟩ := hstep s hI hgoal
      have hnext : r (n + 1) = some s' := by
        rw [hr, hs]
        exact hs'
      exact ih (μ s') (hμ ▸ hlt) hnext hI' rfl

end Iteration
