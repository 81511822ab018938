import Cs537.Lib.Strides

/-!
# Listing an ext2 directory

`read_dir` of `ext2list.c` reads the first block of a directory into memory and walks over the entries in it. The
loop is bounded by `size`, which is increased after the entry pointer has moved. Memory is read byte by byte, so
that what lies behind the block is in the model. The allocation succeeds, and the device has the whole block.
-/

namespace Cs537.Ext2

/-- The bytes at the addresses from the allocated block on. -/
abbrev Memory := ℕ → UInt8

/-- The number in `n` bytes at `a`, in the byte order of ext2. -/
def littleEndian (m : Memory) (a : ℕ) : ℕ → ℕ
  | 0 => 0
  | n + 1 => (m a).toNat + 256 * littleEndian m (a + 1) n

/-! ## Directory entries -/

/-- `entry->inode`. -/
def inode (m : Memory) (entry : ℕ) : UInt32 := UInt32.ofNat (littleEndian m entry 4)

/-- `entry->rec_len`. -/
def recLen (m : Memory) (entry : ℕ) : UInt16 := UInt16.ofNat (littleEndian m (entry + 4) 2)

/-- `entry->name_len`. -/
def nameLen (m : Memory) (entry : ℕ) : UInt8 := m (entry + 6)

/-- The first `name_len` bytes of `entry->name`. -/
def name (m : Memory) (entry : ℕ) : List UInt8 := (List.range (nameLen m entry).toNat).map fun k => m (entry + 8 + k)

/-- A line of the output: the inode number and the name. -/
structure Line where
  inode : UInt32
  fileName : List UInt8
  deriving DecidableEq

/-- The line that is printed for an entry: `file_name` gets a closing NUL, and `%s` prints up to the first one. -/
def line (m : Memory) (entry : ℕ) : Line where
  inode := inode m entry
  fileName := (name m entry ++ [0]).takeWhile fun b => b ≠ 0

/-! ## The call -/

/-- `struct ext2_inode`, as far as `read_dir` looks at it. -/
structure Inode where
  iMode : UInt16
  iSize : UInt32
  iBlock : UInt32

/-- `S_ISDIR`. -/
def sIsdir (mode : UInt16) : Prop := mode &&& 0xF000 = 0x4000

instance (mode : UInt16) : Decidable (sIsdir mode) := inferInstanceAs (Decidable (_ = _))

/-- `BLOCK_OFFSET`, in 32 bits. -/
def blockOffset (blockSize block : UInt32) : UInt32 := 1024 + (block - 1) * blockSize

/-- What a call of `read_dir` finds: the block size, the inode, the device, and what is in memory where the block
is allocated and behind it. -/
structure Call where
  blockSize : UInt32
  inode : Inode
  device : ℕ → UInt8
  heap : Memory

namespace Call

variable (c : Call)

/-- The memory after the block has been read. -/
def memory : Memory := fun a =>
  if a < c.blockSize.toNat then c.device ((blockOffset c.blockSize c.inode.iBlock).toNat + a) else c.heap a

/-- The variables of the loop. -/
structure Walk where
  entry : ℕ
  size : UInt32
  deriving DecidableEq

/-- The condition of the loop. -/
def Continues (s : Walk) : Prop := s.size < c.inode.iSize ∧ Ext2.inode c.memory s.entry ≠ 0

instance (s : Walk) : Decidable (c.Continues s) := inferInstanceAs (Decidable (_ ∧ _))

/-- The body of the loop: the entry pointer moves, and `size` grows by the length of the entry that it has moved
to. -/
def next (s : Walk) : Walk :=
  let entry := s.entry + (recLen c.memory s.entry).toNat
  ⟨entry, s.size + (recLen c.memory entry).toUInt32⟩

/-- The variables when the loop condition is evaluated for the `n`-th time, if it is. -/
def visit : ℕ → Option Walk
  | 0 => if sIsdir c.inode.iMode then some ⟨0, 0⟩ else none
  | n + 1 => (visit n).bind fun s => if c.Continues s then some (c.next s) else none

/-- The addresses that an evaluation of the condition, and the body if it is entered, read. -/
def accessed (s : Walk) : List ℕ :=
  if s.size < c.inode.iSize then
    List.range' s.entry 4
      ++ if Ext2.inode c.memory s.entry ≠ 0 then
          [s.entry + 6] ++ List.range' (s.entry + 8) (nameLen c.memory s.entry).toNat ++ List.range' (s.entry + 4) 2
            ++ List.range' ((c.next s).entry + 4) 2
        else []
  else []

/-- The lines printed in the first `n` iterations. -/
def printed (n : ℕ) : List Line :=
  (List.range n).filterMap fun k =>
    (c.visit k).bind fun s => if c.Continues s then some (line c.memory s.entry) else none

/-! ## The walk -/

/-- Where the `k`-th entry begins. -/
def offset (k : ℕ) : ℕ := Strides.offset (fun a => (recLen c.memory a).toNat) 0 k

/-- The variables at the `k`-th entry, if the loop gets there. `size` is ahead of the pointer by the length of
the entry, and behind by the length of the first one. -/
def walkAt (k : ℕ) : Walk where
  entry := c.offset k
  size := UInt32.ofNat (c.offset k) + (recLen c.memory (c.offset k)).toUInt32 - (recLen c.memory 0).toUInt32

variable {c}

theorem walkAt_zero : c.walkAt 0 = ⟨0, 0⟩ := by
  show Walk.mk 0 (UInt32.ofNat 0 + (recLen c.memory 0).toUInt32 - (recLen c.memory 0).toUInt32) = _
  congr 1
  grind

theorem next_walkAt (k : ℕ) : c.next (c.walkAt k) = c.walkAt (k + 1) := by
  have hoffset : UInt32.ofNat (c.offset (k + 1))
      = UInt32.ofNat (c.offset k) + (recLen c.memory (c.offset k)).toUInt32 := by
    show UInt32.ofNat (c.offset k + (recLen c.memory (c.offset k)).toNat) = _
    rw [UInt32.ofNat_add, UInt32.ofNat_uInt16ToNat]
  show Walk.mk (c.offset (k + 1)) (_ + (recLen c.memory (c.offset (k + 1))).toUInt32) = _
  unfold walkAt
  rw [hoffset]
  congr 1
  dsimp only
  grind

/-- **What the loop visits**: it gets to the `k`-th entry when its condition holds at all entries before. -/
theorem visit_eq_some_iff {k : ℕ} {s : Walk} (hdir : sIsdir c.inode.iMode) :
    c.visit k = some s ↔ (∀ j < k, c.Continues (c.walkAt j)) ∧ s = c.walkAt k := by
  induction k generalizing s with
  | zero =>
    unfold visit
    rw [if_pos hdir, walkAt_zero, Option.some_inj, eq_comm]
    exact ⟨fun h => ⟨fun j hj => absurd hj (Nat.not_lt_zero j), h⟩, fun h => h.2⟩
  | succ k ih =>
    show (c.visit k).bind _ = some s ↔ _
    rw [Option.bind_eq_some_iff]
    constructor
    · rintro ⟨t, ht, hs⟩
      obtain ⟨hall, rfl⟩ := ih.mp ht
      split at hs
      · rename_i hcont
        cases hs
        refine ⟨fun j hj => ?_, next_walkAt k⟩
        rcases Nat.lt_succ_iff_lt_or_eq.mp hj with hlt | rfl
        · exact hall j hlt
        · exact hcont
      · cases hs
    · rintro ⟨hall, rfl⟩
      refine ⟨c.walkAt k, ih.mpr ⟨fun j hj => hall j (Nat.lt_succ_of_lt hj), rfl⟩, ?_⟩
      rw [if_pos (hall k (Nat.lt_succ_self k)), next_walkAt]

end Call

end Cs537.Ext2
