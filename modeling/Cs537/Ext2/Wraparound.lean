import Cs537.Ext2.Termination

/-!
# When `size` wraps around

In a directory of more than `2 ^ 32 - 65535` bytes, `size` can step over the values at which the loop would end.
The entries behind such a directory can be chosen so that it does so again and again.
-/

namespace Cs537.Ext2.Call

variable {len : ℕ → UInt16} {iSize : UInt32} {i k : ℕ}

/-! ## Entries of given lengths -/

/-- Where the `k`-th entry begins. -/
def entryStart (len : ℕ → UInt16) (k : ℕ) : ℕ := Strides.start (fun k => (len k).toNat) k

/-- The first bytes of an entry in use: inode 1, its length, and no name. -/
def entryField (recLen : UInt16) : ℕ → UInt8
  | 0 => 1
  | 4 => UInt8.ofNat (recLen.toNat % 256)
  | 5 => UInt8.ofNat (recLen.toNat / 256)
  | _ => 0

/-- The bytes of entries that have the given lengths. -/
def entryByte (len : ℕ → UInt16) (a : ℕ) : UInt8 :=
  let k := Strides.recordAt (fun k => (len k).toNat) a
  entryField (len k) (a - entryStart len k)

/-- A directory that begins with such entries, and goes on with them behind its block. -/
def ofLengths (iSize : UInt32) (len : ℕ → UInt16) : Call where
  blockSize := 1024
  inode := { iMode := 0x41ED, iSize := iSize, iBlock := 5 }
  device a := entryByte len (a - 5120)
  heap := entryByte len

/-- The memory of the constructed call. -/
theorem ofLengths_memory : (ofLengths iSize len).memory = entryByte len := by
  funext a
  have hoffset : (blockOffset 1024 5).toNat = 5120 := by decide
  unfold memory ofLengths
  dsimp only
  rw [hoffset, Nat.add_sub_cancel_left, ite_self]

section

variable (hlen : ∀ k, 6 ≤ (len k).toNat)
include hlen

theorem entryByte_start_add (hi : i < 6) : entryByte len (entryStart len k + i) = entryField (len k) i := by
  have hrecord : Strides.recordAt (fun k => (len k).toNat) (entryStart len k + i) = k :=
    Strides.recordAt_start_add (fun j => lt_of_lt_of_le (by decide) (hlen j)) (lt_of_lt_of_le hi (hlen k))
  unfold entryByte
  dsimp only
  rw [hrecord, Nat.add_sub_cancel_left]

theorem inode_entryByte : Ext2.inode (entryByte len) (entryStart len k) = 1 := by
  have hbyte : ∀ i < 4, entryByte len (entryStart len k + i) = if i = 0 then 1 else 0 := by
    intro i hi
    rw [entryByte_start_add hlen (by omega)]
    match i, hi with
    | 0, _ => rfl
    | 1, _ => rfl
    | 2, _ => rfl
    | 3, _ => rfl
  have hzero : entryByte len (entryStart len k) = 1 := hbyte 0 (by decide)
  unfold Ext2.inode
  simp only [littleEndian, Nat.add_assoc, Nat.reduceAdd]
  rw [hzero, hbyte 1 (by decide), hbyte 2 (by decide), hbyte 3 (by decide)]
  rfl

theorem recLen_entryByte : recLen (entryByte len) (entryStart len k) = len k := by
  have hlow : entryByte len (entryStart len k + 4) = UInt8.ofNat ((len k).toNat % 256) :=
    entryByte_start_add hlen (by decide)
  have hhigh : entryByte len (entryStart len k + 4 + 1) = UInt8.ofNat ((len k).toNat / 256) :=
    entryByte_start_add hlen (i := 5) (by decide)
  have hlt := (len k).toNat_lt
  apply UInt16.toNat_inj.mp
  unfold recLen
  simp only [littleEndian]
  rw [hlow, hhigh, UInt16.toNat_ofNat', UInt8.toNat_ofNat', UInt8.toNat_ofNat']
  omega

/-- The walk finds the entries where they start. -/
theorem offset_ofLengths : (ofLengths iSize len).offset k = entryStart len k := by
  unfold offset
  refine Strides.offset_eq_start (fun k => ?_) k
  rw [ofLengths_memory]
  exact congrArg UInt16.toNat (recLen_entryByte hlen)

end

/-! ## Past the size of the directory -/

/-- The next step of `size`, when `missing` is missing to the largest value at which the loop still goes on: to
that value, in two steps where one is not enough, and from there past the size of the directory. -/
def lead (missing : ℕ) : ℕ :=
  if missing = 0 then 65535 else if missing ≤ 65535 then missing else 32768

/-- What is missing at the `k`-th entry. -/
def missing (iSize : ℕ) : ℕ → ℕ
  | 0 => iSize - 1
  | k + 1 => if missing iSize k = 0 then 2 ^ 32 - 65535 else missing iSize k - lead (missing iSize k)

/-- The lengths that make these steps. The first one makes none. -/
def leads (iSize : UInt32) : ℕ → UInt16
  | 0 => 8
  | k + 1 => UInt16.ofNat (lead (missing iSize.toNat k))

/-- Entries that lead `size` past the size of the directory. -/
def wrapping (iSize : UInt32) : Call := ofLengths iSize (leads iSize)

/-- The lengths are those of the walk of numbers. -/
theorem leads_succ_toNat (k : ℕ) : (leads iSize (k + 1)).toNat = lead (missing iSize.toNat k) := by
  have hlead : lead (missing iSize.toNat k) < 2 ^ 16 := by
    unfold lead
    split_ifs <;> omega
  exact UInt16.toNat_ofNat_of_lt' hlead

section

variable (hsize : 2 ^ 32 - 65535 < iSize.toNat)
include hsize

/-- No step has to be shorter than an entry. -/
theorem missing_eq_zero_or_le (k : ℕ) : missing iSize.toNat k = 0 ∨ 8 ≤ missing iSize.toNat k := by
  induction k with
  | zero =>
    right
    show 8 ≤ iSize.toNat - 1
    omega
  | succ k ih =>
    unfold missing lead
    split_ifs <;> omega

/-- Every length leaves room for the fields that are read. -/
theorem le_leads (k : ℕ) : 6 ≤ (leads iSize k).toNat := by
  cases k with
  | zero =>
    show 6 ≤ (8 : UInt16).toNat
    decide
  | succ k =>
    have hmissing := missing_eq_zero_or_le hsize k
    rw [leads_succ_toNat]
    unfold lead
    split_ifs <;> omega

/-- The entries that the walk meets. -/
theorem wrapping_entry (k : ℕ) : Ext2.inode (wrapping iSize).memory ((wrapping iSize).offset k) = 1
    ∧ recLen (wrapping iSize).memory ((wrapping iSize).offset k) = leads iSize k := by
  unfold wrapping
  rw [offset_ofLengths (le_leads hsize), ofLengths_memory]
  exact ⟨inode_entryByte (le_leads hsize), recLen_entryByte (le_leads hsize)⟩

/-- What is missing at an entry is missing to `size`. -/
theorem size_add_missing (k : ℕ) :
    ((wrapping iSize).walkAt k).size.toNat + missing iSize.toNat k + 1 = iSize.toNat := by
  induction k with
  | zero =>
    rw [walkAt_zero]
    show 0 + (iSize.toNat - 1) + 1 = _
    omega
  | succ k ih =>
    have hlt := iSize.toNat_lt
    have hnext : ((wrapping iSize).walkAt (k + 1)).size
        = ((wrapping iSize).walkAt k).size + (leads iSize (k + 1)).toUInt32 := by
      rw [← next_walkAt, ← (wrapping_entry hsize (k + 1)).2]
      rfl
    have hmissing : missing iSize.toNat (k + 1) = if missing iSize.toNat k = 0 then 2 ^ 32 - 65535
        else missing iSize.toNat k - lead (missing iSize.toNat k) := rfl
    rw [hnext, UInt32.toNat_add, UInt16.toNat_toUInt32, leads_succ_toNat, hmissing]
    unfold lead
    split_ifs with hzero
    · -- `size` is the largest value that is still small enough, and wraps around
      omega
    · omega
    · omega

/-- The walk never stops. -/
theorem wrapping_continues (k : ℕ) : (wrapping iSize).Continues ((wrapping iSize).walkAt k) := by
  have hadd := size_add_missing hsize k
  refine ⟨UInt32.lt_iff_toNat_lt.mpr ?_, ?_⟩
  · show _ < iSize.toNat
    omega
  · show Ext2.inode _ ((wrapping iSize).offset k) ≠ 0
    rw [(wrapping_entry hsize k).1]
    decide

/-- **The bound on the size is sharp**: for every larger one there is a directory in which the loop never ends,
although no entry that it prints has length 0. -/
theorem exists_advances_not_ends : ∃ c : Call, c.inode.iSize = iSize ∧ c.Advances ∧ ∀ n, c.visit n ≠ none := by
  have hdir : sIsdir (wrapping iSize).inode.iMode := by
    show sIsdir 0x41ED
    decide
  refine ⟨wrapping iSize, rfl, fun n s hvisit _ hempty => ?_, fun n => ?_⟩
  · obtain ⟨-, rfl⟩ := (visit_eq_some_iff hdir).mp hvisit
    have hlen : recLen (wrapping iSize).memory ((wrapping iSize).offset n) = 0 := hempty
    have hle := le_leads hsize n
    rw [← (wrapping_entry hsize n).2, hlen] at hle
    exact absurd hle (by decide)
  · rw [(visit_eq_some_iff hdir).mpr ⟨fun j _ => wrapping_continues hsize j, rfl⟩]
    exact Option.some_ne_none _

end

end Cs537.Ext2.Call
