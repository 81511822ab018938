import Mathlib.Algebra.BigOperators.Group.Finset.Basic
import Mathlib.Data.Nat.Find
import Mathlib.Order.Monotone.Basic

/-!
# Records of variable length

Records lie one after the other, and each says how long it is: the next one begins where it ends. Nothing is
asked of the lengths; a length of zero leads back to the same record.
-/

namespace Strides

open Finset

variable {len : ℕ → ℕ} {a i j k : ℕ}

/-- Where the `k`-th record from `a` on begins. -/
def offset (len : ℕ → ℕ) (a : ℕ) : ℕ → ℕ
  | 0 => a
  | k + 1 => offset len a k + len (offset len a k)

theorem offset_succ : offset len a (k + 1) = offset len a k + len (offset len a k) := rfl

/-- An offset is the sum of the lengths before it. -/
theorem offset_eq_sum : offset len a k = a + ∑ j ∈ range k, len (offset len a j) := by
  induction k with
  | zero => rfl
  | succ k ih => rw [sum_range_succ, ← Nat.add_assoc, ← ih, offset_succ]

theorem offset_mono : Monotone (offset len a) :=
  monotone_nat_of_le_succ fun _ => Nat.le_add_right _ _

/-- A record ends where a later one begins, or before. -/
theorem end_le (h : j < k) : offset len a j + len (offset len a j) ≤ offset len a k :=
  offset_mono (show j + 1 ≤ k from h)

/-! ## Given lengths -/

/-- Where the `k`-th record begins when the lengths are given in order. -/
def start (len : ℕ → ℕ) (k : ℕ) : ℕ := ∑ j ∈ range k, len j

theorem start_succ : start len (k + 1) = start len k + len k := sum_range_succ len k

/-- Starts grow. -/
theorem start_mono : Monotone (start len) :=
  monotone_nat_of_le_succ fun k => by
    rw [start_succ]
    exact Nat.le_add_right _ _

/-- The record in which a place lies. -/
def recordAt (len : ℕ → ℕ) (a : ℕ) : ℕ := Nat.findGreatest (fun k => start len k ≤ a) a

/-- When no length is zero, starts are at least as far apart as their numbers. -/
theorem le_start (hpos : ∀ j, 0 < len j) (k : ℕ) : k ≤ start len k := by
  induction k with
  | zero => exact Nat.zero_le _
  | succ k ih =>
    have hk := hpos k
    rw [start_succ]
    omega

/-- A place before the end of a record that is not empty lies in it. -/
theorem recordAt_start_add (hpos : ∀ j, 0 < len j) (hi : i < len k) : recordAt len (start len k + i) = k := by
  refine Nat.findGreatest_eq_iff.mpr ⟨?_, fun _ => Nat.le_add_right _ _, fun m hm _ hle => ?_⟩
  · exact (le_start hpos k).trans (Nat.le_add_right _ _)
  · have hnext : start len (k + 1) ≤ start len m := start_mono hm
    rw [start_succ] at hnext
    omega

/-- Records that have these lengths lie there. -/
theorem offset_eq_start {found : ℕ → ℕ} (h : ∀ k, found (start len k) = len k) (k : ℕ) :
    offset found 0 k = start len k := by
  induction k with
  | zero => rfl
  | succ k ih => rw [offset_succ, ih, h, start_succ]

end Strides
