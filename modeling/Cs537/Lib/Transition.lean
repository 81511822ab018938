import Mathlib.Data.Nat.Notation
import Mathlib.Logic.Relation

/-!
# Runs of a transition system

A system is a type of actions with a partial step function. A state is reachable when some sequence of
actions leads to it from the start, and an inductive invariant holds in every reachable state.
-/

namespace Transition

variable {σ α : Type*}

/-- A system: its starting state, and what an action does where it is enabled. -/
structure System (σ α : Type*) where
  init : σ
  step : α → σ → Option σ

variable (A : System σ α)

/-- Perform the actions in order; `none` when one of them is not enabled. -/
def System.run : List α → σ → Option σ
  | [], s => some s
  | a :: as, s => (A.step a s).bind (System.run as)

/-- `s` is reachable when some actions lead to it from the starting state. -/
def System.Reachable (s : σ) : Prop := ∃ as, A.run as A.init = some s

/-- What every step keeps, every run keeps. -/
theorem System.run_invariant {I : σ → Prop}
    (hstep : ∀ a s s', A.step a s = some s' → I s → I s') {as : List α} {s s' : σ}
    (hrun : A.run as s = some s') (hs : I s) : I s' := by
  induction as generalizing s with
  | nil =>
    cases hrun
    exact hs
  | cons a as ih =>
    obtain ⟨t, hfirst, hrest⟩ := Option.bind_eq_some_iff.mp hrun
    exact ih hrest (hstep a s t hfirst hs)

/-- **Invariant rule**: what holds at the start and is kept by every step holds in every reachable
state. -/
theorem System.Reachable.invariant {A : System σ α} {I : σ → Prop} {s : σ} (hs : A.Reachable s)
    (hinit : I A.init) (hstep : ∀ a s s', A.step a s = some s' → I s → I s') : I s := by
  obtain ⟨as, hrun⟩ := hs
  exact A.run_invariant hstep hrun hinit

/-- A run from an action that is enabled. -/
theorem System.run_cons {a : α} {as : List α} {s t : σ} (h : A.step a s = some t) : A.run (a :: as) s = A.run as t := by
  show (A.step a s).bind (A.run as) = A.run as t
  rw [h]
  rfl

/-- **The potential method.** Where every regular step takes from the potential and any other adds at most `k`, a run
has no more regular steps than the first potential and the additions pay for. -/
theorem System.run_potential {I : σ → Prop} {Φ : σ → ℕ} {regular : α → Prop} [DecidablePred regular] {k : ℕ}
    (hkeep : ∀ a s s', A.step a s = some s' → I s → I s')
    (hregular : ∀ a s s', A.step a s = some s' → I s → regular a → Φ s' + 1 ≤ Φ s)
    (hother : ∀ a s s', A.step a s = some s' → I s → ¬ regular a → Φ s' ≤ Φ s + k) {as : List α} {s s' : σ}
    (hrun : A.run as s = some s') (hs : I s) :
    (as.countP fun a => regular a) + Φ s' ≤ Φ s + k * as.countP fun a => ¬ regular a := by
  induction as generalizing s with
  | nil =>
    cases hrun
    exact Nat.le_of_eq (Nat.zero_add _)
  | cons a as ih =>
    obtain ⟨t, hfirst, hrest⟩ := Option.bind_eq_some_iff.mp hrun
    have hlater := ih hrest (hkeep a s t hfirst hs)
    rw [List.countP_cons, List.countP_cons]
    by_cases ha : regular a
    · have hpaid := hregular a s t hfirst hs ha
      simp only [ha, decide_true, if_true, not_true, decide_false, Bool.false_eq_true, if_false, Nat.add_zero]
      omega
    · have hgrant := hother a s t hfirst hs ha
      simp only [ha, decide_false, Bool.false_eq_true, if_false, not_false_eq_true, decide_true, if_true, Nat.mul_succ]
      omega

theorem System.run_append {as bs : List α} {s : σ} :
    A.run (as ++ bs) s = (A.run as s).bind (A.run bs) := by
  induction as generalizing s with
  | nil => rfl
  | cons a as ih =>
    simp only [List.cons_append, System.run, Option.bind_assoc]
    congr 1
    funext t
    exact ih

/-- A step from a reachable state leads to a reachable state. -/
theorem System.Reachable.step {A : System σ α} {a : α} {s s' : σ} (hs : A.Reachable s)
    (hstep : A.step a s = some s') : A.Reachable s' := by
  obtain ⟨as, hrun⟩ := hs
  refine ⟨as ++ [a], ?_⟩
  rw [A.run_append, hrun]
  exact A.run_cons hstep

/-- `s` is reachable by a run all of whose states satisfy `P`. -/
inductive System.ReachableWithin (A : System σ α) (P : σ → Prop) : σ → Prop
  | init : P A.init → A.ReachableWithin P A.init
  | step {a : α} {s s' : σ} : A.ReachableWithin P s → A.step a s = some s' → P s' → A.ReachableWithin P s'

/-- A restricted run is a run. -/
theorem System.ReachableWithin.reachable {A : System σ α} {P : σ → Prop} {s : σ}
    (h : A.ReachableWithin P s) : A.Reachable s := by
  induction h with
  | init => exact ⟨[], rfl⟩
  | step _ hstep _ ih => exact ih.step hstep

/-- A restricted run ends where it is allowed to be. -/
theorem System.ReachableWithin.holds {A : System σ α} {P : σ → Prop} {s : σ}
    (h : A.ReachableWithin P s) : P s := by
  cases h with
  | init hP => exact hP
  | step _ _ hP => exact hP

/-- What holds in every reachable state does not restrict the runs. -/
theorem System.Reachable.within {A : System σ α} {P : σ → Prop} {s : σ} (h : A.Reachable s)
    (hP : ∀ t, A.Reachable t → P t) : A.ReachableWithin P s := by
  have hboth : A.Reachable s ∧ A.ReachableWithin P s :=
    h.invariant (I := fun t => A.Reachable t ∧ A.ReachableWithin P t)
      ⟨⟨[], rfl⟩, .init (hP _ ⟨[], rfl⟩)⟩
      fun a t t' hstep ht => ⟨ht.1.step hstep, ht.2.step hstep (hP t' (ht.1.step hstep))⟩
  exact hboth.2

/-! ## Refinement -/

section Refinement

variable {τ β : Type*}

/-- The abstract steps that a run performs, when `label s a` are those of the action `a` in the state `s`. -/
def System.trace (A : System σ α) (label : σ → α → List β) : List α → σ → List β
  | [], _ => []
  | a :: as, s => label s a ++ (A.step a s).elim [] (A.trace label as)

/-- `A` refines `B`: related states stay related, and the abstract steps that `label` lists are possible. -/
structure Refines (A : System σ α) (B : System τ β) (label : σ → α → List β) (R : σ → τ → Prop) : Prop where
  init : R A.init B.init
  step : ∀ a s s' t, A.Reachable s → R s t → A.step a s = some s' →
    ∃ t', B.run (label s a) t = some t' ∧ R s' t'

variable {A : System σ α} {B : System τ β} {label : σ → α → List β} {R : σ → τ → Prop}

/-- Every run of `A` from related states performs a run of `B`. -/
theorem Refines.run_from (h : Refines A B label R) {as : List α} {s s' : σ} {t : τ} (hs : A.Reachable s)
    (hR : R s t) (hrun : A.run as s = some s') : ∃ t', B.run (A.trace label as s) t = some t' ∧ R s' t' := by
  induction as generalizing s t with
  | nil =>
    cases hrun
    exact ⟨t, rfl, hR⟩
  | cons a as ih =>
    obtain ⟨u, hstep, hrest⟩ := Option.bind_eq_some_iff.mp hrun
    obtain ⟨t', hfirst, hR'⟩ := h.step a s u t hs hR hstep
    obtain ⟨t'', hlast, hR''⟩ := ih (hs.step hstep) hR' hrest
    refine ⟨t'', ?_, hR''⟩
    show B.run (label s a ++ (A.step a s).elim [] (A.trace label as)) t = _
    rw [hstep, B.run_append, hfirst]
    exact hlast

/-- **Every run of `A` performs a run of `B`.** -/
theorem Refines.run (h : Refines A B label R) {as : List α} {s : σ} (hrun : A.run as A.init = some s) :
    ∃ t, B.run (A.trace label as A.init) B.init = some t ∧ R s t :=
  h.run_from ⟨[], rfl⟩ h.init hrun

end Refinement

end Transition
