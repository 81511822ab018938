import Mathlib.Data.Rat.Defs

/-!
# The simulated disk

`class disk` of `raid.py`: a head position, the geometry, the counters and the accumulated service
time. Times are milliseconds, kept as exact rationals.
-/

namespace Cs537

/-- The minimum unit of transfer to the array, in bytes. -/
def BLOCKSIZE : ℕ := 4096

/-- The Python exceptions that the simulator can raise. -/
inductive PyError where
  | assertionError
  | indexError
  | unboundLocalError
deriving DecidableEq, Repr

/-- The attributes of `class disk` that `enqueue` reads or writes. -/
structure Disk where
  seekTime : ℚ
  xferTime : ℚ
  currAddr : ℤ
  numTracks : ℕ
  blocksPerTrack : ℕ
  countIO : ℕ
  countSeq : ℕ
  countNseq : ℕ
  countRand : ℕ
  utilTime : ℚ
deriving DecidableEq

namespace Disk

/-- `disk.__init__`: the head starts far below address `0`, so the first access always seeks. -/
def init (seekTime xferTime : ℚ) : Disk where
  seekTime := seekTime
  xferTime := xferTime
  currAddr := -10000
  numTracks := 100
  blocksPerTrack := 100
  countIO := 0
  countSeq := 0
  countNseq := 0
  countRand := 0
  utilTime := 0

/-- A disk built by `disk()`, with the default times. -/
def fresh : Disk := init 10 (1 / 10)

/-- The capacity of the disk. -/
def blocksPerDisk (d : Disk) : ℕ := d.numTracks * d.blocksPerTrack

/-- `disk.enqueue`: charge one access at `addr` and move the head there. -/
def enqueue (d : Disk) (addr : ℕ) : Except PyError Disk :=
  if addr < d.blocksPerDisk then
    let d := { d with countIO := d.countIO + 1 }
    -- `int(x / y)` truncates towards zero
    let currTrack := d.currAddr.tdiv d.numTracks
    let newTrack := (addr : ℤ).tdiv d.numTracks
    let diff := (addr : ℤ) - d.currAddr
    let diff := if diff < 0 then -diff else diff
    let d :=
      if currTrack = newTrack ∨ diff < d.blocksPerTrack then
        let d :=
          if diff = 1 then { d with countSeq := d.countSeq + 1 }
          else { d with countNseq := d.countNseq + 1 }
        { d with utilTime := d.utilTime + diff * d.xferTime }
      else
        { d with countRand := d.countRand + 1, utilTime := d.utilTime + (d.seekTime + d.xferTime) }
    .ok { d with currAddr := addr }
  else
    .error .assertionError

/-- An access succeeds exactly on the addresses of the disk. -/
theorem enqueue_isOk_iff (d : Disk) (addr : ℕ) :
    (∃ d', d.enqueue addr = .ok d') ↔ addr < d.blocksPerDisk := by
  unfold enqueue
  by_cases h : addr < d.blocksPerDisk
  · simp only [h, if_pos, iff_true]
    exact ⟨_, rfl⟩
  · simp [h]

end Disk

end Cs537
