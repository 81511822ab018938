import Mathlib.Data.List.Lex
import Mathlib.Order.Lattice

/-!
# C strings

A string is its bytes up to the closing NUL. `strcmp` compares them as unsigned characters, and a shorter
string stands before its extensions because NUL is the smallest byte.
-/

namespace Cs537.MapReduce

/-- A C string, without its closing NUL. -/
structure CString where
  bytes : List UInt8
  no_nul : 0 ∉ bytes
  deriving DecidableEq

/-- The first difference of two byte strings; the end of a string counts as the byte `0`. -/
def strcmpBytes : List UInt8 → List UInt8 → ℤ
  | [], [] => 0
  | [], b :: _ => -(b.toNat : ℤ)
  | a :: _, [] => a.toNat
  | a :: as, b :: bs => if a = b then strcmpBytes as bs else (a.toNat : ℤ) - b.toNat

/-- `strcmp`. -/
def strcmp (s t : CString) : ℤ := strcmpBytes s.bytes t.bytes

/-- The bytes as numbers, for the order. -/
def CString.codes (s : CString) : List ℕ := s.bytes.map UInt8.toNat

/-- Strings with the same codes are the same. -/
theorem CString.codes_injective : Function.Injective CString.codes := by
  intro s t h
  have hbytes : s.bytes = t.bytes :=
    List.map_injective_iff.mpr (fun _ _ => UInt8.toNat_inj.mp) h
  cases s
  cases t
  congr

instance : LinearOrder CString := LinearOrder.lift' CString.codes CString.codes_injective

/-- No character of a string is zero. -/
private theorem toNat_pos {b : UInt8} {bs : List UInt8} (h : 0 ∉ b :: bs) : 0 < b.toNat := by
  rw [Nat.pos_iff_ne_zero]
  intro hzero
  have hb : b = 0 := UInt8.toNat_inj.mp hzero
  exact h (hb ▸ List.mem_cons_self)

/-- `strcmp` is negative when the first string comes first. -/
theorem strcmpBytes_neg_iff {as bs : List UInt8} (has : 0 ∉ as) (hbs : 0 ∉ bs) :
    strcmpBytes as bs < 0 ↔ as.map UInt8.toNat < bs.map UInt8.toNat := by
  induction as generalizing bs with
  | nil =>
    cases bs with
    | nil => simp [strcmpBytes]
    | cons b bs =>
      have hb := toNat_pos hbs
      simp only [strcmpBytes, List.map_nil, List.map_cons, List.nil_lt_cons, iff_true]
      omega
  | cons a as ih =>
    cases bs with
    | nil =>
      simp only [strcmpBytes, List.map_nil, List.not_lt_nil, iff_false]
      omega
    | cons b bs =>
      have hrest := ih (fun h => has (List.mem_cons_of_mem _ h)) fun h => hbs (List.mem_cons_of_mem _ h)
      rw [List.map_cons, List.map_cons, List.cons_lt_cons_iff]
      by_cases hab : a = b
      · rw [strcmpBytes, if_pos hab, hrest, hab]
        simp
      · have hne : a.toNat ≠ b.toNat := fun h => hab (UInt8.toNat_inj.mp h)
        rw [strcmpBytes, if_neg hab]
        omega

/-- Exchanging the strings changes the sign. -/
theorem strcmpBytes_swap (as bs : List UInt8) : strcmpBytes bs as = -strcmpBytes as bs := by
  induction as generalizing bs with
  | nil => cases bs <;> simp [strcmpBytes]
  | cons a as ih =>
    cases bs with
    | nil => simp [strcmpBytes]
    | cons b bs =>
      by_cases hab : a = b
      · rw [strcmpBytes, strcmpBytes, if_pos hab, if_pos hab.symm, ih]
      · rw [strcmpBytes, strcmpBytes, if_neg hab, if_neg (Ne.symm hab)]
        omega

/-- The order of the strings is the sign of `strcmp`. -/
theorem strcmp_neg_iff {s t : CString} : strcmp s t < 0 ↔ s < t :=
  strcmpBytes_neg_iff s.no_nul t.no_nul

/-- `strcmp` is not positive when the second string does not come first. -/
theorem strcmp_nonpos_iff {s t : CString} : strcmp s t ≤ 0 ↔ s ≤ t := by
  have hswap : strcmp t s = -strcmp s t := strcmpBytes_swap ..
  rw [← not_lt (a := t), ← strcmp_neg_iff, hswap]
  omega

/-- `strcmp` is zero on equal strings only. -/
theorem strcmp_eq_zero_iff {s t : CString} : strcmp s t = 0 ↔ s = t := by
  have hswap : strcmp t s = -strcmp s t := strcmpBytes_swap ..
  rw [le_antisymm_iff (a := s), ← strcmp_nonpos_iff, ← strcmp_nonpos_iff, hswap]
  omega

end Cs537.MapReduce
