import Mathlib.Algebra.Group.Hom.Defs
import Mathlib.Algebra.Order.Monoid.Defs
import Mathlib.Data.List.Basic

/-!
# The cost of a path

What it costs to visit the points of a list in order, when every step has a cost. Under the triangle inequality,
leaving points out does not cost more.
-/

namespace Path

variable {α M N : Type*}

/-- The cost of the steps from `p` through the points of a list. -/
def cost [AddMonoid M] (step : α → α → M) : α → List α → M
  | _, [] => 0
  | p, a :: l => step p a + cost step a l

section

variable [AddCommMonoid M] [AddCommMonoid N] (f g : α → α → M)

theorem cost_add (p : α) (l : List α) :
    cost (fun a b => f a b + g a b) p l = cost f p l + cost g p l := by
  induction l generalizing p with
  | nil => exact (add_zero 0).symm
  | cons a l ih =>
    rw [cost, cost, cost, ih]
    exact add_add_add_comm _ _ _ _

theorem cost_map (φ : M →+ N) (p : α) (l : List α) :
    cost (fun a b => φ (f a b)) p l = φ (cost f p l) := by
  induction l generalizing p with
  | nil => exact (map_zero φ).symm
  | cons a l ih => rw [cost, cost, map_add, ih]

end

section

variable [AddCommMonoid M] [PartialOrder M] [IsOrderedAddMonoid M] {step : α → α → M}
  (hnonneg : ∀ a b, 0 ≤ step a b) (htri : ∀ a b c, step a c ≤ step a b + step b c)
include hnonneg htri

/-- A detour through one more point. -/
theorem cost_le_detour (p a : α) (l : List α) : cost step p l ≤ step p a + cost step a l := by
  cases l with
  | nil => exact add_nonneg (hnonneg p a) le_rfl
  | cons b l =>
    calc step p b + cost step b l
        ≤ (step p a + step a b) + cost step b l := by gcongr; exact htri p a b
      _ = step p a + (step a b + cost step b l) := add_assoc _ _ _

/-- **Leaving points out does not cost more.** -/
theorem cost_le_of_sublist {l l' : List α} (h : l.Sublist l') (p : α) : cost step p l ≤ cost step p l' := by
  induction h generalizing p with
  | slnil => exact le_rfl
  | cons a _ ih =>
    refine (cost_le_detour hnonneg htri p a _).trans ?_
    rw [cost]
    gcongr
    exact ih a
  | cons_cons a _ ih =>
    rw [cost, cost]
    gcongr
    exact ih a

end

end Path
