import Mathlib.Data.List.Basic

/-!
# Ranges of numbers

Going through an interval, the members of a set, numbered in order, give an interval again; and the blocks of an
interval joined one after the other are the interval.
-/

namespace Ranges

variable {P : ℕ → Prop} [DecidablePred P] {f : ℕ → ℕ} {a n : ℕ}

/-- Where `rank` counts the numbers that satisfy `P`, and `f` is the rank of each of them, `f` enumerates an
interval. -/
theorem map_filter_range' (rank : ℕ → ℕ) (hrank : ∀ v, a ≤ v → v < a + n → P v → f v = rank v)
    (hstep : ∀ v, a ≤ v → v < a + n → rank (v + 1) = rank v + if P v then 1 else 0) :
    rank a ≤ rank (a + n)
      ∧ ((List.range' a n).filter P).map f = List.range' (rank a) (rank (a + n) - rank a) := by
  induction n with
  | zero => simp
  | succ n ih =>
    obtain ⟨hle, hlist⟩ := ih (fun v h1 h2 => hrank v h1 (by omega)) fun v h1 h2 => hstep v h1 (by omega)
    have hlast := hstep (a + n) (Nat.le_add_right a n) (by omega)
    rw [List.range'_concat, List.filter_append, List.map_append, hlist, Nat.one_mul, ← Nat.add_assoc, hlast]
    by_cases hP : P (a + n)
    · rw [if_pos hP, List.filter_singleton, decide_eq_true hP]
      refine ⟨by omega, ?_⟩
      have hlen : rank (a + n) + 1 - rank a = (rank (a + n) - rank a) + 1 := by omega
      have hend : rank a + (rank (a + n) - rank a) = rank (a + n) := by omega
      rw [hlen, List.range'_concat, Nat.one_mul, hend]
      show _ ++ [f (a + n)] = _
      rw [hrank _ (Nat.le_add_right a n) (by omega) hP]
    · rw [if_neg hP, List.filter_singleton, decide_eq_false hP, Nat.add_zero]
      exact ⟨hle, List.append_nil _⟩

/-- Blocks of `c` numbers, one after the other. -/
theorem flatMap_range'_mul (c s m : ℕ) :
    (List.range' s m).flatMap (fun t => List.range' (t * c) c) = List.range' (s * c) (m * c) := by
  induction m generalizing s with
  | zero => simp
  | succ m ih =>
    rw [List.range'_succ, List.flatMap_cons, ih, Nat.succ_mul, Nat.succ_mul, List.range'_append_1, Nat.add_comm c]

/-- Every second number. -/
theorem filter_mod_two (a n : ℕ) {p : ℕ} (hp : p < 2) :
    (List.range' a n).filter (fun v => v % 2 = p)
      = List.range' (a + (a + p) % 2) ((n + 1 - (a + p) % 2) / 2) 2 := by
  induction n with
  | zero =>
    have hcount : (0 + 1 - (a + p) % 2) / 2 = 0 := by omega
    rw [hcount]
    rfl
  | succ n ih =>
    rw [List.range'_concat, List.filter_append, ih, Nat.one_mul]
    by_cases hv : (a + n) % 2 = p
    · have hcount : (n + 1 + 1 - (a + p) % 2) / 2 = (n + 1 - (a + p) % 2) / 2 + 1 := by omega
      have hlast : a + (a + p) % 2 + 2 * ((n + 1 - (a + p) % 2) / 2) = a + n := by omega
      rw [hcount, List.range'_concat, hlast, List.filter_singleton, decide_eq_true hv]
      rfl
    · have hcount : (n + 1 + 1 - (a + p) % 2) / 2 = (n + 1 - (a + p) % 2) / 2 := by omega
      rw [hcount, List.filter_singleton, decide_eq_false hv]
      exact List.append_nil _

end Ranges
