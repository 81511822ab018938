import Cs537.Lib.Layout
import Cs537.Raid.Disk

/-!
# Block mappings of the RAID simulator

The mapping functions of `raid.py`: `bmap0` (striping), `bmap1` (mirroring), `bmap4` (parity disk) and
`bmap5` (rotated parity, left-asymmetric or left-symmetric). Block numbers are natural numbers, and
`int(x / y)` on them is the exact integer quotient.
-/

namespace Cs537

/-- The two RAID-5 rotations that `main` accepts. -/
inductive Raid5Type where
  | LA
  | LS
deriving DecidableEq, Repr

/-- The RAID levels that `main` accepts: 0, 1, 4 and 5. -/
inductive RaidLevel where
  | zero
  | one
  | four
  | five
deriving DecidableEq, Repr

/-- An accepted configuration of `class raid`: the checks of `main` and of `raid.__init__` on the
number of disks, and a chunk of at least one block. -/
structure Raid where
  /-- Blocks per chunk. -/
  chunkSize : ℕ
  numDisks : ℕ
  raidLevel : RaidLevel
  raid5type : Raid5Type
  chunkSize_pos : 0 < chunkSize
  numDisks_pos : 0 < numDisks
  even_of_mirrored : raidLevel = .one → 2 ∣ numDisks
  two_le : raidLevel ≠ .zero → 2 ≤ numDisks

namespace Raid

variable (r : Raid)

/-- The configuration that the option defaults give at a level: four disks, 4k chunks. -/
def defaults (level : RaidLevel) : Raid where
  chunkSize := 1
  numDisks := 4
  raidLevel := level
  raid5type := .LS
  chunkSize_pos := by decide
  numDisks_pos := by decide
  even_of_mirrored _ := by decide
  two_le _ := by decide

/-- Data blocks in a stripe of a parity level. -/
def blocksInStripe : ℕ := (r.numDisks - 1) * r.chunkSize

/-- The fixed parity disk of RAID 4. -/
def pdisk : ℕ := r.numDisks - 1

/-- Mapping for RAID 0 (striping). -/
def bmap0 (bnum : ℕ) : ℕ × ℕ :=
  let cnum := bnum / r.chunkSize
  let coff := bnum % r.chunkSize
  (cnum % r.numDisks, cnum / r.numDisks * r.chunkSize + coff)

/-- Mapping for RAID 1 (mirroring): the two disks of the pair, and the offset on both. -/
def bmap1 (bnum : ℕ) : ℕ × ℕ × ℕ :=
  let cnum := bnum / r.chunkSize
  let coff := bnum % r.chunkSize
  let disk := 2 * (cnum % (r.numDisks / 2))
  (disk, disk + 1, cnum / (r.numDisks / 2) * r.chunkSize + coff)

/-- Mapping for RAID 4 (parity disk). -/
def bmap4 (bnum : ℕ) : ℕ × ℕ :=
  let cnum := bnum / r.chunkSize
  let coff := bnum % r.chunkSize
  (cnum % (r.numDisks - 1), cnum / (r.numDisks - 1) * r.chunkSize + coff)

/-- The parity disk of a RAID-4 stripe. -/
def pmap4 (_snum : ℕ) : ℕ := r.pdisk

/-- `__bmap5`, mapping for RAID 5 (rotated parity): the data disk, the parity disk and the offset. -/
def _bmap5 (bnum : ℕ) : Except PyError (ℕ × ℕ × ℕ) :=
  let cnum := bnum / r.chunkSize
  let coff := bnum % r.chunkSize
  let ddsk := cnum / (r.numDisks - 1)
  let doff := ddsk * r.chunkSize + coff
  let disk := cnum % (r.numDisks - 1)
  let col := ddsk % r.numDisks
  let pdisk := (r.numDisks - 1) - col
  let disk :=
    match r.raid5type with
    | .LA => if disk ≥ pdisk then disk + 1 else disk
    -- Python's `%` of a negative number by a positive one is not negative
    | .LS => (((disk : ℤ) - col) % r.numDisks).toNat
  if disk ≠ pdisk then .ok (disk, pdisk, doff) else .error .assertionError

/-- The data disk and the offset of a RAID-5 block. -/
def bmap5 (bnum : ℕ) : Except PyError (ℕ × ℕ) := do
  let (disk, _, off) ← r._bmap5 bnum
  return (disk, off)

/-- The parity disk of a RAID-5 stripe, read off the stripe's first block. -/
def pmap5 (snum : ℕ) : Except PyError ℕ := do
  let (_, pdisk, _) ← r._bmap5 (snum * r.blocksInStripe)
  return pdisk

/-- The `bmap` that `enqueue45` selects. At any other level the Python variable stays unbound. -/
def bmap (bnum : ℕ) : Except PyError (ℕ × ℕ) :=
  match r.raidLevel with
  | .four => .ok (r.bmap4 bnum)
  | .five => r.bmap5 bnum
  | _ => .error .unboundLocalError

/-- The `pmap` that `enqueue45` selects. -/
def pmap (snum : ℕ) : Except PyError ℕ :=
  match r.raidLevel with
  | .four => .ok (r.pmap4 snum)
  | .five => r.pmap5 snum
  | _ => .error .unboundLocalError

end Raid

end Cs537
