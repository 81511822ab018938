import Cs537.Ext2.Program

/-!
# Positions on the device

`main` of `ext2list.c` takes the block size from the superblock and seeks to the group descriptor, to an inode and
to the block of the directory. Positions of blocks are computed in `unsigned int`, from the superblock at 1024 on,
as if the superblock was block 1 in every file system. With blocks of more than 1024 bytes it is in block 0.
-/

namespace Cs537.Ext2

/-- `BASE_OFFSET`. -/
def baseOffset : UInt32 := 1024

/-- `struct ext2_super_block`, as far as `main` looks at it, with the two fields that say which blocks there are. -/
structure SuperBlock where
  sBlocksCount : UInt32
  sFirstDataBlock : UInt32
  sLogBlockSize : UInt32
  sMagic : UInt16

/-- `struct ext2_group_desc`, as far as `read_inode` looks at it. -/
structure GroupDesc where
  bgInodeTable : UInt32

section

variable (device : ℕ → UInt8)

/-- The superblock at a position. -/
def superBlock (position : ℕ) : SuperBlock where
  sBlocksCount := UInt32.ofNat (littleEndian device (position + 4) 4)
  sFirstDataBlock := UInt32.ofNat (littleEndian device (position + 20) 4)
  sLogBlockSize := UInt32.ofNat (littleEndian device (position + 24) 4)
  sMagic := UInt16.ofNat (littleEndian device (position + 56) 2)

/-- The group descriptor at a position. -/
def groupDesc (position : ℕ) : GroupDesc where
  bgInodeTable := UInt32.ofNat (littleEndian device (position + 8) 4)

/-- The inode at a position. -/
def inodeAt (position : ℕ) : Inode where
  iMode := UInt16.ofNat (littleEndian device position 2)
  iSize := UInt32.ofNat (littleEndian device (position + 4) 4)
  iBlock := UInt32.ofNat (littleEndian device (position + 40) 4)

end

/-! ## The main program -/

/-- `block_size`. -/
def SuperBlock.blockSize (super : SuperBlock) : UInt32 := 1024 <<< super.sLogBlockSize

/-- Where `main` seeks to for the group descriptor. -/
def SuperBlock.groupOffset (super : SuperBlock) : UInt32 := baseOffset + super.blockSize

/-- Where `read_inode` seeks to: the last sum is made in `size_t`, with inodes of 128 bytes. -/
def inodeOffset (blockSize : UInt32) (inodeNo : ℕ) (group : GroupDesc) : ℕ :=
  (blockOffset blockSize group.bgInodeTable).toNat + (inodeNo - 1) * 128

/-- `main` up to the call of `read_dir`, which it makes for inode 2 on an ext2 file system. -/
def main (device : ℕ → UInt8) (heap : Memory) : Option Call :=
  let super := superBlock device baseOffset.toNat
  if super.sMagic ≠ 0xEF53 then none
  else
    let group := groupDesc device super.groupOffset.toNat
    some
      { blockSize := super.blockSize
        inode := inodeAt device (inodeOffset super.blockSize 2 group)
        device := device
        heap := heap }

/-! ## Positions of blocks -/

section

variable {blockSize b : UInt32}

/-- The position of a block, as 32-bit arithmetic computes it. -/
theorem blockOffset_toNat (hb : 1 ≤ b) :
    (blockOffset blockSize b).toNat = (1024 + (b.toNat - 1) * blockSize.toNat) % 2 ^ 32 := by
  unfold blockOffset
  rw [UInt32.toNat_add, UInt32.toNat_mul, UInt32.toNat_sub_of_le _ _ hb, Nat.add_mod_mod]
  rfl

/-- **Where `BLOCK_OFFSET` is right**: for blocks of 1024 bytes that lie in the first 4 GiB. -/
theorem blockOffset_eq_iff (hb : 1 ≤ b) : (blockOffset blockSize b).toNat = b.toNat * blockSize.toNat
    ↔ blockSize = 1024 ∧ b.toNat < 2 ^ 22 := by
  have hpos : 1 ≤ b.toNat := UInt32.le_iff_toNat_le.mp hb
  have hlt := blockSize.toNat_lt
  have hprev : (b.toNat - 1) * blockSize.toNat + blockSize.toNat = b.toNat * blockSize.toNat := by
    rw [← Nat.succ_mul, Nat.succ_eq_add_one, Nat.sub_add_cancel hpos]
  rw [blockOffset_toNat hb, ← UInt32.toNat_inj, ← hprev]
  show _ ↔ blockSize.toNat = 1024 ∧ _
  constructor
  · intro heq
    -- the sum is below `2 ^ 32`, and its two ends differ by less than that
    have hsize : blockSize.toNat = 1024 := by omega
    rw [hsize] at heq
    omega
  · rintro ⟨hsize, hsmall⟩
    rw [hsize]
    omega

end

namespace SuperBlock

variable {super : SuperBlock}

/-- The superblock of a file system whose block size fits an `unsigned int`. The superblock lies in the first block
unless blocks have 1024 bytes. -/
structure WellFormed (super : SuperBlock) : Prop where
  fits : 1024 * 2 ^ super.sLogBlockSize.toNat < 2 ^ 32
  first : super.sFirstDataBlock = if super.blockSize = 1024 then 1 else 0

/-- The blocks and the group descriptor are where the program looks for them. -/
structure AddressesBlocks (super : SuperBlock) : Prop where
  block : ∀ b : UInt32, 1 ≤ b → b < super.sBlocksCount →
    (blockOffset super.blockSize b).toNat = b.toNat * super.blockSize.toNat
  group : super.groupOffset.toNat = (super.sFirstDataBlock.toNat + 1) * super.blockSize.toNat

/-- On a well-formed file system, the shift does not lose a bit. -/
theorem WellFormed.blockSize_toNat (h : super.WellFormed) :
    super.blockSize.toNat = 1024 * 2 ^ super.sLogBlockSize.toNat := by
  have hfits := h.fits
  have hlog : super.sLogBlockSize.toNat < 32 := by
    by_contra hge
    have hle : 2 ^ 32 ≤ 2 ^ super.sLogBlockSize.toNat := Nat.pow_le_pow_right Nat.two_pos (not_lt.mp hge)
    omega
  unfold blockSize
  rw [UInt32.toNat_shiftLeft, Nat.mod_eq_of_lt hlog, Nat.shiftLeft_eq]
  exact Nat.mod_eq_of_lt hfits

/-- Blocks have 1024 bytes exactly when `s_log_block_size` is zero. -/
theorem WellFormed.blockSize_eq_iff (h : super.WellFormed) : super.blockSize = 1024 ↔ super.sLogBlockSize = 0 := by
  rw [← UInt32.toNat_inj, ← UInt32.toNat_inj, h.blockSize_toNat]
  show 1024 * 2 ^ super.sLogBlockSize.toNat = 1024 ↔ super.sLogBlockSize.toNat = 0
  constructor
  · intro heq
    by_contra hne
    have htwo : 2 ^ 1 ≤ 2 ^ super.sLogBlockSize.toNat := Nat.pow_le_pow_right Nat.two_pos (Nat.pos_of_ne_zero hne)
    omega
  · intro hzero
    rw [hzero, pow_zero, mul_one]

/-- The group descriptor lies behind the block of the superblock. -/
theorem WellFormed.groupOffset_eq_iff (h : super.WellFormed) :
    super.groupOffset.toNat = (super.sFirstDataBlock.toNat + 1) * super.blockSize.toNat
      ↔ super.blockSize = 1024 := by
  have hlt := super.blockSize.toNat_lt
  have hoffset : super.groupOffset.toNat = (1024 + super.blockSize.toNat) % 2 ^ 32 := UInt32.toNat_add ..
  rw [hoffset, h.first]
  by_cases hsize : super.blockSize = 1024
  · rw [if_pos hsize, hsize]
    decide
  · -- for larger blocks it is the second block, and the program looks 1024 bytes behind it
    rw [if_neg hsize]
    refine iff_of_false (fun heq => ?_) hsize
    change (1024 + super.blockSize.toNat) % 2 ^ 32 = (0 + 1) * super.blockSize.toNat at heq
    omega

end SuperBlock

open SuperBlock in
/-- **Which file systems the readers address**: those with blocks of 1024 bytes and at most 4 GiB. -/
theorem addressesBlocks_iff (super : SuperBlock) (h : super.WellFormed) :
    super.AddressesBlocks ↔ super.sLogBlockSize = 0 ∧ super.sBlocksCount.toNat ≤ 2 ^ 22 := by
  rw [← h.blockSize_eq_iff]
  constructor
  · intro hall
    have hsize : super.blockSize = 1024 := h.groupOffset_eq_iff.mp hall.group
    refine ⟨hsize, ?_⟩
    by_contra hmany
    -- the first block behind 4 GiB
    have hblock := hall.block 4194304 (by decide) (UInt32.lt_iff_toNat_lt.mpr (not_le.mp hmany))
    exact absurd ((blockOffset_eq_iff (by decide)).mp hblock).2 (by decide)
  · rintro ⟨hsize, hfew⟩
    refine ⟨fun b hone hcount => (blockOffset_eq_iff hone).mpr ⟨hsize, ?_⟩, h.groupOffset_eq_iff.mpr hsize⟩
    exact lt_of_lt_of_le (UInt32.lt_iff_toNat_lt.mp hcount) hfew

/-- On such a file system, `main` calls `read_dir` with the inode and the block that the superblock, the group
descriptor and the inode name. -/
theorem SuperBlock.AddressesBlocks.main_eq {device : ℕ → UInt8} {heap : Memory} {c : Call}
    (hmain : main device heap = some c) {super : SuperBlock} (hsuper : superBlock device 1024 = super)
    (h : super.AddressesBlocks) {group : GroupDesc}
    (hgroup : groupDesc device ((super.sFirstDataBlock.toNat + 1) * super.blockSize.toNat) = group)
    (htable : 1 ≤ group.bgInodeTable) (htable' : group.bgInodeTable < super.sBlocksCount)
    (hblock : 1 ≤ c.inode.iBlock) (hblock' : c.inode.iBlock < super.sBlocksCount) :
    c.inode = inodeAt device (group.bgInodeTable.toNat * super.blockSize.toNat + 128)
      ∧ ∀ a < super.blockSize.toNat, c.memory a = device (c.inode.iBlock.toNat * super.blockSize.toNat + a) := by
  change superBlock device baseOffset.toNat = super at hsuper
  unfold main at hmain
  dsimp only at hmain
  rw [hsuper, h.group, hgroup] at hmain
  split at hmain
  · cases hmain
  · cases hmain
    constructor
    · show inodeAt device (inodeOffset super.blockSize 2 group) = _
      unfold inodeOffset
      rw [h.block _ htable htable']
    · intro a ha
      unfold Call.memory
      rw [if_pos ha]
      exact congrArg (fun position => device (position + a)) (h.block _ hblock hblock')

/-- A floppy disk: 1440 blocks of 1024 bytes. -/
def floppy : SuperBlock where
  sBlocksCount := 1440
  sFirstDataBlock := 1
  sLogBlockSize := 0
  sMagic := 0xEF53

/-- A floppy is within the bounds. -/
theorem addressesBlocks_iff_floppy : floppy.AddressesBlocks :=
  (addressesBlocks_iff floppy ⟨by decide, by decide⟩).mpr ⟨rfl, by decide⟩

/-- A file system of 4 MiB with blocks of 4096 bytes. -/
def largeBlocks : SuperBlock where
  sBlocksCount := 1024
  sFirstDataBlock := 0
  sLogBlockSize := 2
  sMagic := 0xEF53

/-- The program looks for block 1 at 1024, which is in block 0, and for the group descriptor 1024 bytes behind the
beginning of its block. -/
theorem not_addressesBlocks_largeBlocks : largeBlocks.WellFormed ∧ largeBlocks.blockSize = 4096
    ∧ blockOffset largeBlocks.blockSize 1 = 1024 ∧ largeBlocks.groupOffset = 5120
    ∧ ¬ largeBlocks.AddressesBlocks := by
  refine ⟨⟨by decide, by decide⟩, by decide, by decide, by decide, fun hall => ?_⟩
  exact absurd (hall.block 1 (by decide) (by decide)) (by decide)

end Cs537.Ext2
