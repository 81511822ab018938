import Mathlib.Logic.Function.Basic
import Mathlib.Data.List.Basic
import Mathlib.Data.Nat.ModEq

/-!
# Ring buffers

A ring of `cap` slots with a head and a tail pointer that advance modulo `cap`. `Ring.Represents` says
which bounded queue the ring holds. Writing the slot at the tail appends to that queue and reading the
slot at the head removes its first element.
-/

namespace Ring

variable {α : Type*}

/-- The ring holds the queue `q`: its elements occupy the slots from `head` on, in order, and `tail`
is the slot behind the last one. -/
structure Represents (cap : ℕ) (buf : ℕ → α) (head tail : ℕ) (q : List α) : Prop where
  head_lt : head < cap
  tail_eq : tail = (head + q.length) % cap
  length_le : q.length ≤ cap
  slot : ∀ (j : ℕ) (h : j < q.length), buf ((head + j) % cap) = q[j]

/-- The slots of a ring are distinct over one turn. -/
theorem slot_injective {cap head j k : ℕ} (hj : j < cap) (hk : k < cap)
    (h : (head + j) % cap = (head + k) % cap) : j = k := by
  have hmod : j ≡ k [MOD cap] := Nat.ModEq.add_left_cancel' head h
  rw [Nat.ModEq, Nat.mod_eq_of_lt hj, Nat.mod_eq_of_lt hk] at hmod
  exact hmod

namespace Represents

variable {cap head tail : ℕ} {buf : ℕ → α} {q : List α}

/-- The empty ring. -/
theorem nil (hcap : 0 < cap) : Represents cap buf 0 0 [] where
  head_lt := hcap
  tail_eq := by simp
  length_le := by simp
  slot := by simp

/-- The tail is inside the buffer. -/
theorem tail_lt (h : Represents cap buf head tail q) : tail < cap := by
  rw [h.tail_eq]
  exact Nat.mod_lt _ (by have := h.head_lt; omega)

/-- **Push**: writing the slot at the tail appends to the queue, as long as a slot is free. -/
theorem push (h : Represents cap buf head tail q) (hfree : q.length < cap) (v : α) :
    Represents cap (Function.update buf tail v) head ((tail + 1) % cap) (q ++ [v]) where
  head_lt := h.head_lt
  tail_eq := by
    rw [h.tail_eq, List.length_append, List.length_singleton, Nat.mod_add_mod, Nat.add_assoc]
  length_le := by
    rw [List.length_append, List.length_singleton]
    omega
  slot j hj := by
    rw [List.length_append, List.length_singleton] at hj
    rcases Nat.lt_or_ge j q.length with hlt | hge
    · have hne : (head + j) % cap ≠ tail := by
        intro heq
        have hslot := slot_injective (by omega) hfree (heq.trans h.tail_eq)
        omega
      rw [Function.update_of_ne hne, List.getElem_append_left hlt]
      exact h.slot j hlt
    · obtain rfl : j = q.length := by omega
      rw [← h.tail_eq, Function.update_self, List.getElem_concat_length rfl]

/-- **Pop**: the slot at the head holds the first element of the queue. -/
theorem head_eq {v : α} (h : Represents cap buf head tail (v :: q)) : buf head = v := by
  have hslot := h.slot 0 (by simp)
  rw [Nat.add_zero, Nat.mod_eq_of_lt h.head_lt] at hslot
  exact hslot

/-- Advancing the head removes the first element. -/
theorem pop {v : α} (h : Represents cap buf head tail (v :: q)) :
    Represents cap buf ((head + 1) % cap) tail q where
  head_lt := Nat.mod_lt _ (by have := h.head_lt; omega)
  tail_eq := by
    rw [h.tail_eq, Nat.mod_add_mod, List.length_cons]
    congr 1
    omega
  length_le := by
    have hle := h.length_le
    rw [List.length_cons] at hle
    omega
  slot j hj := by
    have hslot := h.slot (j + 1) (by rw [List.length_cons]; omega)
    rw [List.getElem_cons_succ] at hslot
    rw [← hslot, Nat.mod_add_mod]
    congr 2
    omega

end Represents

end Ring
