import Mathlib.Data.List.Basic

/-!
# Runs of a step function that may fail

Inversion of a successful bind in `Except`, and the rules for `List.foldlM` over `Except`: a run
succeeds when its steps do, and a property that every successful step keeps holds at its end.
-/

namespace Except

universe u

variable {ε : Type*} {α : Type*} {β γ σ : Type u}

/-- A sequence of two computations succeeds when both do. -/
theorem bind_eq_ok {x : Except ε β} {f : β → Except ε γ} {c : γ} :
    (x >>= f) = .ok c ↔ ∃ b, x = .ok b ∧ f b = .ok c := by
  cases x with
  | error e => simp [bind, Except.bind]
  | ok b => simp [bind, Except.bind]

/-- A loop succeeds when its first step and the rest do. -/
theorem foldlM_cons_eq_ok {f : σ → α → Except ε σ} {a : α} {as : List α} {s s' : σ} :
    (a :: as).foldlM f s = .ok s' ↔ ∃ t, f s a = .ok t ∧ as.foldlM f t = .ok s' := by
  rw [List.foldlM_cons, bind_eq_ok]

/-- What every successful step keeps, a successful run keeps. -/
theorem foldlM_invariant {f : σ → α → Except ε σ} {as : List α} {s s' : σ} (P : σ → Prop)
    (hstep : ∀ a ∈ as, ∀ t t', f t a = .ok t' → P t → P t') (hrun : as.foldlM f s = .ok s')
    (hs : P s) : P s' := by
  induction as generalizing s with
  | nil =>
    cases hrun
    exact hs
  | cons a as ih =>
    obtain ⟨t, hfirst, hrest⟩ := foldlM_cons_eq_ok.mp hrun
    exact ih (fun a' ha' => hstep a' (List.mem_cons_of_mem _ ha')) hrest
      (hstep a List.mem_cons_self s t hfirst hs)

/-- Two loops in a row succeed when both do. -/
theorem foldlM_append_eq_ok {f : σ → α → Except ε σ} {as bs : List α} {s s' : σ} :
    (as ++ bs).foldlM f s = .ok s' ↔ ∃ t, as.foldlM f s = .ok t ∧ bs.foldlM f t = .ok s' := by
  rw [List.foldlM_append, bind_eq_ok]

end Except
