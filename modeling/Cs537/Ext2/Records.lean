import Cs537.Ext2.Program

/-!
# Well-formed directory blocks

When the records of a block add up to the size of the directory, the loop gets to each record up to the first one
with inode 0, and prints those before it. Only behind the last record does the lag of `size` show: the length that
is added there is not one of a record.
-/

namespace Cs537.Ext2.Call

open Finset

variable {c : Call} {j k n : ℕ} {s : Walk}

/-- The block starts with `n` records, each long enough for its name, and their lengths add up to the size of the
directory. -/
structure Records (c : Call) (n : ℕ) : Prop where
  fits : ∀ j < n, 8 + (nameLen c.memory (c.offset j)).toNat ≤ (recLen c.memory (c.offset j)).toNat
  total : ∑ j ∈ range n, (recLen c.memory (c.offset j)).toNat = c.inode.iSize.toNat

/-- The next offset is behind the record. -/
theorem offset_succ : c.offset (k + 1) = c.offset k + (recLen c.memory (c.offset k)).toNat := rfl

/-- An entry ends where a later one begins, or before. -/
theorem end_le (h : j < k) : c.offset j + (recLen c.memory (c.offset j)).toNat ≤ c.offset k := Strides.end_le h

namespace Records

/-- Behind the last record is the end of the directory. -/
theorem offset_eq (h : c.Records n) : c.offset n = c.inode.iSize.toNat := by
  unfold offset
  rw [Strides.offset_eq_sum, Nat.zero_add]
  exact h.total

/-- The name of a record, and with it its fields, ends before the record does. -/
theorem name_end_le (h : c.Records n) (hj : j < n) :
    c.offset j + 8 + (nameLen c.memory (c.offset j)).toNat ≤ c.inode.iSize.toNat := by
  have hfits := h.fits j hj
  have hend := end_le (c := c) hj
  rw [h.offset_eq] at hend
  omega

/-- Every record begins inside the directory. -/
theorem offset_lt (h : c.Records n) (hj : j < n) : c.offset j < c.inode.iSize.toNat := by
  have hname := h.name_end_le hj
  omega

/-- At a record, `size` is where the record ends, less the length of the first record. -/
theorem size_toNat (h : c.Records n) (hj : j < n) :
    (c.walkAt j).size.toNat + (recLen c.memory 0).toNat = c.offset (j + 1) := by
  have hfirst : (recLen c.memory 0).toNat ≤ c.offset (j + 1) := by
    have hone : c.offset 0 + (recLen c.memory (c.offset 0)).toNat ≤ c.offset (j + 1) := end_le (Nat.succ_pos j)
    exact le_trans (Nat.le_add_left _ _) hone
  have hend : c.offset (j + 1) ≤ c.offset n := end_le hj
  have hsize : (c.walkAt j).size = UInt32.ofNat (c.offset (j + 1) - (recLen c.memory 0).toNat) := by
    rw [UInt32.ofNat_sub hfirst, offset_succ, UInt32.ofNat_add, UInt32.ofNat_uInt16ToNat, UInt32.ofNat_uInt16ToNat]
    rfl
  have hlt := c.inode.iSize.toNat_lt
  rw [h.offset_eq] at hend
  rw [hsize, UInt32.toNat_ofNat', Nat.mod_eq_of_lt (by omega)]
  omega

/-- **The bound of the loop never stops it at a record.** -/
theorem size_lt (h : c.Records n) (hj : j < n) : (c.walkAt j).size < c.inode.iSize := by
  have hsize := h.size_toNat hj
  have hfits := h.fits 0 (by omega)
  have hend : c.offset (j + 1) ≤ c.offset n := end_le hj
  change 8 + _ ≤ (recLen c.memory 0).toNat at hfits
  rw [h.offset_eq] at hend
  rw [UInt32.lt_iff_toNat_lt]
  omega

/-- On well-formed records, the walk stops at an unused entry only. -/
theorem continues_iff (h : c.Records n) (hj : j < n) :
    c.Continues (c.walkAt j) ↔ Ext2.inode c.memory (c.offset j) ≠ 0 :=
  and_iff_right (h.size_lt hj)

/-- The loop gets to a record when no record before it has inode 0. -/
theorem visit_of_live (h : c.Records n) (hdir : sIsdir c.inode.iMode) (hk : k ≤ n)
    (hlive : ∀ j < k, Ext2.inode c.memory (c.offset j) ≠ 0) : c.visit k = some (c.walkAt k) :=
  (visit_eq_some_iff hdir).mpr
    ⟨fun j hj => (h.continues_iff (lt_of_lt_of_le hj hk)).mpr (hlive j hj), rfl⟩

end Records

/-! ## What is printed -/

/-- The bytes of a name up to a NUL. -/
theorem line_fileName (m : Memory) (entry : ℕ) :
    (line m entry).fileName = (name m entry).takeWhile fun b => b ≠ 0 := by
  show (name m entry ++ [0]).takeWhile _ = _
  rw [List.takeWhile_append]
  split
  · rename_i hall
    rw [List.takeWhile_cons_of_neg (by decide), List.append_nil]
    exact ((List.takeWhile_prefix _).eq_of_length hall).symm
  · rfl

/-- A line more is printed when the walk goes on. -/
theorem printed_succ : c.printed (k + 1)
    = c.printed k
      ++ ((c.visit k).bind fun s => if c.Continues s then some (line c.memory s.entry) else none).toList := by
  unfold printed
  rw [List.range_succ, List.filterMap_append]
  congr 1

/-- Later iterations only add lines. -/
theorem printed_prefix (h : k ≤ n) : c.printed k <+: c.printed n := by
  induction n, h using Nat.le_induction with
  | base => exact List.prefix_rfl
  | succ n _ ih =>
    rw [printed_succ]
    exact ih.trans (List.prefix_append _ _)

/-- **No record is missed.** On a well-formed block, the loop gets to every record up to the first one with inode
0, with the pointer inside the directory, and prints the inode and the name of those before it, in order. -/
theorem lists_records (c : Call) (hdir : sIsdir c.inode.iMode) {n : ℕ} (h : c.Records n) {k : ℕ} (hk : k ≤ n)
    (hlive : ∀ j < k, Ext2.inode c.memory (c.offset j) ≠ 0) :
    c.printed k = (List.range k).map (fun j =>
        ⟨Ext2.inode c.memory (c.offset j), (name c.memory (c.offset j)).takeWhile fun b => b ≠ 0⟩)
      ∧ (∀ j < k, ∃ s, c.visit j = some s ∧ s.entry = c.offset j ∧ s.entry < c.inode.iSize.toNat ∧ c.Continues s)
      ∧ ∀ m ≥ k, c.printed k <+: c.printed m := by
  have hvisit : ∀ j ≤ k, c.visit j = some (c.walkAt j) := fun j hj =>
    h.visit_of_live hdir (hj.trans hk) fun i hi => hlive i (lt_of_lt_of_le hi hj)
  have hcontinues : ∀ j < k, c.Continues (c.walkAt j) := fun j hj =>
    (h.continues_iff (lt_of_lt_of_le hj hk)).mpr (hlive j hj)
  refine ⟨?_, fun j hj => ?_, fun m hm => printed_prefix hm⟩
  · have hprinted : ∀ i ≤ k, c.printed i = (List.range i).map fun j => line c.memory (c.offset j) := by
      intro i hi
      induction i with
      | zero => rfl
      | succ i ih =>
        rw [printed_succ, ih (by omega), hvisit i (by omega), List.range_succ, List.map_append]
        show _ ++ Option.toList (if c.Continues (c.walkAt i) then _ else _) = _
        rw [if_pos (hcontinues i hi)]
        rfl
    rw [hprinted k le_rfl]
    refine List.map_congr_left fun j _ => ?_
    rw [← line_fileName]
    rfl
  · exact ⟨c.walkAt j, hvisit j hj.le, rfl, h.offset_lt (lt_of_lt_of_le hj hk), hcontinues j hj⟩

/-- The root directory of a new file system with blocks of 1024 bytes: `.`, `..` and `lost+found`. The block is
full, and zeros lie behind it in memory. -/
def rootDirectory : Call where
  blockSize := 1024
  inode := { iMode := 0x41ED, iSize := 1024, iBlock := 5 }
  device a := [2, 0, 0, 0, 12, 0, 1, 2, 46, 0, 0, 0, 2, 0, 0, 0, 12, 0, 2, 2, 46, 46, 0, 0,
    11, 0, 0, 0, 232, 3, 10, 2, 108, 111, 115, 116, 43, 102, 111, 117, 110, 100].getD (a - 5120) 0
  heap _ := 0

/-- The directory has three records. -/
theorem rootDirectory_records : rootDirectory.Records 3 where
  fits := by decide
  total := by decide

/-- Its three names are printed. -/
theorem lists_records_rootDirectory : rootDirectory.printed 3 = [⟨2, [46]⟩, ⟨2, [46, 46]⟩,
    ⟨11, [108, 111, 115, 116, 43, 102, 111, 117, 110, 100]⟩] := by
  have hlist := (lists_records rootDirectory (by decide) rootDirectory_records le_rfl (by decide)).1
  rw [hlist]
  decide +kernel

end Cs537.Ext2.Call
