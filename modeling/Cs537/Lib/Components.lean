import Mathlib.Algebra.BigOperators.Group.List.Basic
import Mathlib.Algebra.GroupWithZero.Nat
import Cs537.Lib.ExceptFold

/-!
# Systems of independent components

A list of components, and operations that are addressed to one component each. A run over such operations is, on
every component, the run over those that are addressed to it: what the other components do meanwhile does not
matter.
-/

namespace Components

universe u

variable {ε α : Type*} {σ : Type u}

/-- Step the component that the operation is addressed to. -/
def stepAt (err : ε) (f : σ → α → Except ε σ) (xs : List σ) (p : ℕ × α) : Except ε (List σ) :=
  match xs[p.1]? with
  | none => .error err
  | some x => do
    let x' ← f x p.2
    return xs.set p.1 x'

/-- The operations that are addressed to component `i`. -/
def opsAt (i : ℕ) (ps : List (ℕ × α)) : List α := (ps.filter fun p => p.1 = i).map Prod.snd

theorem opsAt_cons_self (i : ℕ) (a : α) (ps : List (ℕ × α)) : opsAt i ((i, a) :: ps) = a :: opsAt i ps := by
  simp [opsAt]

theorem opsAt_cons_ne {i j : ℕ} (h : j ≠ i) (a : α) (ps : List (ℕ × α)) :
    opsAt i ((j, a) :: ps) = opsAt i ps := by
  simp [opsAt, h]

@[simp] theorem opsAt_append (i : ℕ) (ps qs : List (ℕ × α)) : opsAt i (ps ++ qs) = opsAt i ps ++ opsAt i qs := by
  simp [opsAt]

/-- The operations of a component are those with its number. -/
theorem mem_opsAt {i : ℕ} {ps : List (ℕ × α)} {a : α} : a ∈ opsAt i ps ↔ (i, a) ∈ ps := by
  simp [opsAt]

variable {err : ε} {f : σ → α → Except ε σ} {xs xs' : List σ}

/-- A step of a component changes the component and nothing else. -/
theorem stepAt_eq_ok {i : ℕ} {a : α} :
    stepAt err f xs (i, a) = .ok xs'
      ↔ ∃ x x', xs[i]? = some x ∧ f x a = .ok x' ∧ xs' = xs.set i x' := by
  unfold stepAt
  cases hi : xs[i]? with
  | none => simp
  | some x =>
    show (do let x' ← f x a; return xs.set i x') = _ ↔ _
    rw [Except.bind_eq_ok]
    constructor
    · rintro ⟨x', hx', heq⟩
      cases heq
      exact ⟨x, x', rfl, hx', rfl⟩
    · rintro ⟨_, x', hx, hx', rfl⟩
      cases hx
      exact ⟨x', hx', rfl⟩

/-- A run serves on every component the operations that are addressed to it. -/
theorem run_opsAt {ps : List (ℕ × α)} (hrun : ps.foldlM (stepAt err f) xs = .ok xs') :
    (∀ p ∈ ps, p.1 < xs.length) ∧ xs'.length = xs.length
      ∧ ∀ i x, xs[i]? = some x → ∃ x', xs'[i]? = some x' ∧ (opsAt i ps).foldlM f x = .ok x' := by
  induction ps generalizing xs with
  | nil =>
    cases hrun
    exact ⟨nofun, rfl, fun i x hx => ⟨x, hx, rfl⟩⟩
  | cons p ps ih =>
    obtain ⟨j, a⟩ := p
    obtain ⟨t, hstep, hrun⟩ := Except.foldlM_cons_eq_ok.mp hrun
    obtain ⟨x, y, hx, hy, rfl⟩ := stepAt_eq_ok.mp hstep
    obtain ⟨hmem, hlen, hall⟩ := ih hrun
    rw [List.length_set] at hlen hmem
    have hj : j < xs.length := (List.getElem?_eq_some_iff.mp hx).1
    refine ⟨List.forall_mem_cons.mpr ⟨hj, hmem⟩, hlen, fun i z hz => ?_⟩
    by_cases hij : j = i
    · subst hij
      obtain rfl : x = z := Option.some.inj (hx.symm.trans hz)
      obtain ⟨x', hx', hfold⟩ := hall j y (List.getElem?_set_self hj)
      refine ⟨x', hx', ?_⟩
      rw [opsAt_cons_self, Except.foldlM_cons_eq_ok]
      exact ⟨y, hy, hfold⟩
    · rw [opsAt_cons_ne hij]
      exact hall i z (by rw [List.getElem?_set_ne hij]; exact hz)

/-- Runs of the components make up a run. -/
theorem run_of_opsAt {ps : List (ℕ × α)} (hmem : ∀ p ∈ ps, p.1 < xs.length) (hlen : xs'.length = xs.length)
    (hall : ∀ i x, xs[i]? = some x → ∃ x', xs'[i]? = some x' ∧ (opsAt i ps).foldlM f x = .ok x') :
    ps.foldlM (stepAt err f) xs = .ok xs' := by
  induction ps generalizing xs with
  | nil =>
    show Except.ok xs = Except.ok xs'
    congr 1
    refine List.ext_getElem hlen.symm fun i hi hi' => ?_
    obtain ⟨x', hx', heq⟩ := hall i xs[i] (List.getElem?_eq_getElem hi)
    cases heq
    exact (Option.some.inj ((List.getElem?_eq_getElem hi').symm.trans hx')).symm
  | cons p ps ih =>
    obtain ⟨j, a⟩ := p
    obtain ⟨hj, hmem⟩ := List.forall_mem_cons.mp hmem
    obtain ⟨x', hx', hfold⟩ := hall j xs[j] (List.getElem?_eq_getElem hj)
    rw [opsAt_cons_self, Except.foldlM_cons_eq_ok] at hfold
    obtain ⟨y, hy, hfold⟩ := hfold
    refine Except.foldlM_cons_eq_ok.mpr
      ⟨xs.set j y, stepAt_eq_ok.mpr ⟨_, y, List.getElem?_eq_getElem hj, hy, rfl⟩, ih ?_ ?_ ?_⟩
    · rwa [List.length_set]
    · rw [hlen, List.length_set]
    · -- the first operation changes component `j` and leaves the others to the rest of the run
      intro i z hz
      by_cases hij : j = i
      · subst hij
        obtain rfl : y = z := Option.some.inj ((List.getElem?_set_self hj).symm.trans hz)
        exact ⟨x', hx', hfold⟩
      · rw [List.getElem?_set_ne hij] at hz
        obtain ⟨z', hz', hfold'⟩ := hall i z hz
        rw [opsAt_cons_ne hij] at hfold'
        exact ⟨z', hz', hfold'⟩

/-- **The components are independent.** -/
theorem run_eq_ok {ps : List (ℕ × α)} :
    ps.foldlM (stepAt err f) xs = .ok xs'
      ↔ (∀ p ∈ ps, p.1 < xs.length) ∧ xs'.length = xs.length
        ∧ ∀ i x, xs[i]? = some x → ∃ x', xs'[i]? = some x' ∧ (opsAt i ps).foldlM f x = .ok x' :=
  ⟨run_opsAt, fun ⟨hmem, hlen, hall⟩ => run_of_opsAt hmem hlen hall⟩

/-- A step changes a sum over the components by what it changes on its own one. -/
theorem sum_map_set (g : σ → ℕ) {i : ℕ} {x : σ} (y : σ) (hx : xs[i]? = some x) :
    ((xs.set i y).map g).sum + g x = (xs.map g).sum + g y := by
  induction xs generalizing i with
  | nil => cases hx
  | cons z xs ih =>
    cases i with
    | zero =>
      obtain rfl : z = x := Option.some.inj hx
      rw [List.set_cons_zero, List.map_cons, List.map_cons, List.sum_cons, List.sum_cons]
      omega
    | succ i =>
      have hrest := ih (i := i) hx
      rw [List.set_cons_succ, List.map_cons, List.map_cons, List.sum_cons, List.sum_cons]
      omega

end Components
