import Mathlib.Data.Nat.Notation
import Mathlib.Data.List.Defs

/-!
# Bytes in memory

The little-endian bytes of a number, and lists of bytes that lie at an address. What an encoder appends lies one part
behind the other.
-/

namespace Bytes

/-- The lowest bytes of a number, the lowest one first. -/
def ofNat : ℕ → ℕ → List UInt8
  | _, 0 => []
  | v, n + 1 => UInt8.ofNat (v % 256) :: ofNat (v / 256) n

@[simp] theorem length_ofNat (v n : ℕ) : (ofNat v n).length = n := by
  induction n generalizing v with
  | zero => rfl
  | succ n ih => simp [ofNat, ih]

/-- The bytes lie at the address. -/
def Holds (m : ℕ → UInt8) : ℕ → List UInt8 → Prop
  | _, [] => True
  | a, b :: bs => m a = b ∧ Holds m (a + 1) bs

instance (m : ℕ → UInt8) : ∀ (a : ℕ) (bs : List UInt8), Decidable (Holds m a bs)
  | _, [] => .isTrue trivial
  | a, _ :: bs =>
    have := instDecidableHolds m (a + 1) bs
    inferInstanceAs (Decidable (_ ∧ _))

variable {m m' : ℕ → UInt8} {a : ℕ} {bs bs' : List UInt8}

@[simp] theorem holds_nil : Holds m a [] := trivial

@[simp] theorem holds_cons {b : UInt8} : Holds m a (b :: bs) ↔ m a = b ∧ Holds m (a + 1) bs := Iff.rfl

/-- Bytes behind each other are held behind each other. -/
@[simp] theorem holds_append : Holds m a (bs ++ bs') ↔ Holds m a bs ∧ Holds m (a + bs.length) bs' := by
  induction bs generalizing a with
  | nil => simp
  | cons b bs ih =>
    rw [List.cons_append, holds_cons, ih, holds_cons, List.length_cons, and_assoc, Nat.add_right_comm, Nat.add_assoc a]

/-- Bytes are held when each of them is. -/
theorem holds_of_forall (h : ∀ i b, bs[i]? = some b → m (a + i) = b) : Holds m a bs := by
  induction bs generalizing a with
  | nil => trivial
  | cons b bs ih =>
    refine ⟨h 0 b rfl, ih fun i b' hb' => ?_⟩
    rw [Nat.add_right_comm]
    exact h (i + 1) b' hb'

/-- The bytes at an address, read one by one. -/
theorem Holds.map_range (h : Holds m a bs) : ((List.range bs.length).map fun k => m (a + k)) = bs := by
  induction bs generalizing a with
  | nil => rfl
  | cons b bs ih =>
    rw [List.length_cons, List.range_succ_eq_map, List.map_cons, List.map_map]
    refine congrArg₂ List.cons h.1 ((List.map_congr_left fun k _ => ?_).trans (ih h.2))
    exact congrArg m (Nat.add_right_comm a k 1)

/-- Moving the bytes. -/
theorem Holds.congr {a' : ℕ} (h : Holds m a bs) (heq : ∀ i < bs.length, m' (a' + i) = m (a + i)) : Holds m' a' bs := by
  induction bs generalizing a a' with
  | nil => trivial
  | cons b bs ih =>
    refine ⟨(heq 0 (by simp)).trans h.1, ih h.2 fun i hi => ?_⟩
    rw [Nat.add_right_comm a', Nat.add_right_comm a]
    exact heq (i + 1) (by simpa using hi)

end Bytes
