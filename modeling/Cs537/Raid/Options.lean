import Cs537.Lib.ExceptFold
import Cs537.Raid.Placement

/-!
# The options that `main` accepts

`main` and `raid.__init__` check the options that an array is made of. The mapping functions then compute with the
parsed values, which are integers of any sign: `int(x / y)` truncates towards zero, `%` has the sign of its second
argument, and both raise an exception when that is zero. `Options.mapsSafely_iff` says for which accepted options
the mappings work.
-/

namespace Cs537

/-- How `main`, `raid.__init__` and the mapping functions stop. -/
inductive Stop where
  | exit
  | valueError
  | indexError
  | assertionError
  | zeroDivisionError
deriving DecidableEq, Repr

/-! ## Parsing -/

/-- The whitespace that `int` strips. -/
def isSpace (c : Char) : Bool := c ∈ [' ', '\t', '\n', '\x0b', '\x0c', '\r', '\x1c', '\x1d', '\x1e', '\x1f']

def digitValue (c : Char) : ℕ := c.toNat - '0'.toNat

/-- The digits behind the first one. A single underscore may stand between two digits. -/
def restOfNumber : ℕ → List Char → Except Stop ℕ
  | n, [] => .ok n
  | n, '_' :: c :: cs =>
    if c.isDigit then restOfNumber (10 * n + digitValue c) cs else .error .valueError
  | n, c :: cs => if c.isDigit then restOfNumber (10 * n + digitValue c) cs else .error .valueError

def number : List Char → Except Stop ℕ
  | [] => .error .valueError
  | c :: cs => if c.isDigit then restOfNumber (digitValue c) cs else .error .valueError

/-- Python's `int` of a string, for ASCII digits and white space; Python reads other Unicode digits and blanks too. -/
def int (s : List Char) : Except Stop ℤ :=
  match ((s.dropWhile isSpace).reverse.dropWhile isSpace).reverse with
  | '-' :: cs => (number cs).map fun n => -(n : ℤ)
  | '+' :: cs => (number cs).map Nat.cast
  | cs => (number cs).map Nat.cast

/-- `convert`: a size with an optional unit. As for `int`, the characters are those of ASCII. -/
def convert (size : String) : Except Stop ℤ :=
  match size.toList.getLast? with
  | none => .error .indexError
  | some lastchar =>
    if lastchar = 'k' ∨ lastchar = 'K' then
      (int size.toList.dropLast).map (· * 1024)
    else if lastchar = 'm' ∨ lastchar = 'M' then
      (int size.toList.dropLast).map (· * (1024 * 1024))
    else if lastchar = 'g' ∨ lastchar = 'G' then
      (int size.toList.dropLast).map (· * (1024 * 1024 * 1024))
    else int size.toList

/-- A check that stops the program. -/
def stopIf (p : Prop) [Decidable p] (stop : Stop) : Except Stop Unit := if p then .error stop else .ok ()

/-- A check lets a run go on when its condition does not hold. -/
theorem stopIf_eq_ok {p : Prop} [Decidable p] {stop : Stop} {u : Unit} : stopIf p stop = .ok u ↔ ¬ p := by
  unfold stopIf
  split <;> simp [*]

/-! ## The integers of Python -/

/-- `int(x / y)` of Python 3, which cuts off the exact quotient (exact as a float too, up to `2 ^ 53`). Under Python 2,
which the README of the lecture names, `/` floors: the two differ for quotients below zero. -/
def pyDiv (x y : ℤ) : Except Stop ℤ := if y = 0 then .error .zeroDivisionError else .ok (x.tdiv y)

/-- `x % y`. -/
def pyMod (x y : ℤ) : Except Stop ℤ := if y = 0 then .error .zeroDivisionError else .ok (x.fmod y)

section

variable {x y : ℤ}

/-- Without a division by zero, the quotient is truncated. -/
theorem pyDiv_eq (h : y ≠ 0) : pyDiv x y = .ok (x.tdiv y) := if_neg h

/-- Without a division by zero, the remainder has the sign of the divisor. -/
theorem pyMod_eq (h : y ≠ 0) : pyMod x y = .ok (x.fmod y) := if_neg h

end

/-! ## The array -/

/-- The attributes that `raid.__init__` sets and the mappings read. -/
structure RaidObject where
  chunkSize : ℤ
  numDisks : ℤ
  raidLevel : ℤ
  raid5type : String
deriving DecidableEq

namespace RaidObject

/-- `raid.__init__`. -/
def init (chunkSize : String) (numDisks level : ℤ) (raid5type : String) : Except Stop RaidObject := do
  let bytes ← convert chunkSize
  stopIf (bytes.fmod BLOCKSIZE ≠ 0) .exit
  stopIf (level = 1 ∧ numDisks.fmod 2 ≠ 0) .exit
  return { chunkSize := bytes.tdiv BLOCKSIZE, numDisks, raidLevel := level, raid5type }

variable (r : RaidObject)

def blocksInStripe : ℤ := (r.numDisks - 1) * r.chunkSize

/-- `bmap0`. -/
def bmap0 (bnum : ℤ) : Except Stop (ℤ × ℤ) := do
  let cnum ← pyDiv bnum r.chunkSize
  let coff ← pyMod bnum r.chunkSize
  let disk ← pyMod cnum r.numDisks
  let row ← pyDiv cnum r.numDisks
  return (disk, row * r.chunkSize + coff)

/-- `bmap1`. -/
def bmap1 (bnum : ℤ) : Except Stop (ℤ × ℤ × ℤ) := do
  let cnum ← pyDiv bnum r.chunkSize
  let coff ← pyMod bnum r.chunkSize
  let pairs ← pyDiv r.numDisks 2
  let pair ← pyMod cnum pairs
  let row ← pyDiv cnum pairs
  return (2 * pair, 2 * pair + 1, row * r.chunkSize + coff)

/-- `bmap4`. -/
def bmap4 (bnum : ℤ) : Except Stop (ℤ × ℤ) := do
  let cnum ← pyDiv bnum r.chunkSize
  let coff ← pyMod bnum r.chunkSize
  let disk ← pyMod cnum (r.numDisks - 1)
  let row ← pyDiv cnum (r.numDisks - 1)
  return (disk, row * r.chunkSize + coff)

/-- `pmap4`. -/
def pmap4 (_snum : ℤ) : ℤ := r.numDisks - 1

/-- The disk of a RAID-5 chunk. -/
def rotate (disk col pdisk : ℤ) : Except Stop ℤ :=
  if r.raid5type = "LA" then .ok (if disk ≥ pdisk then disk + 1 else disk)
  else if r.raid5type = "LS" then pyMod (disk - col) r.numDisks
  else .error .exit

/-- `__bmap5`. -/
def _bmap5 (bnum : ℤ) : Except Stop (ℤ × ℤ × ℤ) := do
  let cnum ← pyDiv bnum r.chunkSize
  let coff ← pyMod bnum r.chunkSize
  let ddsk ← pyDiv cnum (r.numDisks - 1)
  let disk ← pyMod cnum (r.numDisks - 1)
  let col ← pyMod ddsk r.numDisks
  let pdisk := (r.numDisks - 1) - col
  let disk ← r.rotate disk col pdisk
  stopIf (disk = pdisk) .assertionError
  return (disk, pdisk, ddsk * r.chunkSize + coff)

/-- `bmap5`. -/
def bmap5 (bnum : ℤ) : Except Stop (ℤ × ℤ) := (r._bmap5 bnum).map fun x => (x.1, x.2.2)

/-- `pmap5`. -/
def pmap5 (snum : ℤ) : Except Stop ℤ := (r._bmap5 (snum * r.blocksInStripe)).map fun x => x.2.1

/-- The disk is one of `self.disks`. -/
def HasDisk (disk : ℤ) : Prop := 0 ≤ disk ∧ disk < r.numDisks

/-- The mapping of the level works for every block: no exception, the disks exist and no offset is negative. The
parity disk exists for every stripe. -/
def MapsSafely : Prop :=
  ∀ b : ℕ,
    (r.raidLevel = 0 → ∃ d o, r.bmap0 b = .ok (d, o) ∧ r.HasDisk d ∧ 0 ≤ o)
    ∧ (r.raidLevel = 1 → ∃ d d' o, r.bmap1 b = .ok (d, d', o) ∧ r.HasDisk d ∧ r.HasDisk d' ∧ 0 ≤ o)
    ∧ (r.raidLevel = 4 → (∃ d o, r.bmap4 b = .ok (d, o) ∧ r.HasDisk d ∧ 0 ≤ o)
      ∧ ∀ snum, r.HasDisk (r.pmap4 snum))
    ∧ (r.raidLevel = 5 → (∃ d o, r.bmap5 b = .ok (d, o) ∧ r.HasDisk d ∧ 0 ≤ o)
      ∧ ∀ snum, ∃ p, r.pmap5 snum = .ok p ∧ r.HasDisk p)

end RaidObject

/-! ## The main program -/

/-- The options that `main` checks, with their defaults. -/
structure Options where
  numDisks : ℤ := 4
  chunkSize : String := "4k"
  reqSize : String := "4k"
  workload : String := "rand"
  writeFrac : ℤ := 0
  level : ℤ := 0
  raid5type : String := "LS"

/-- The checks of `main`, up to the array that it makes. -/
def Options.main (options : Options) : Except Stop RaidObject := do
  -- `writeFrac` is a percentage
  stopIf (¬ (0 ≤ options.writeFrac ∧ options.writeFrac ≤ 100)) .assertionError
  let size ← convert options.reqSize
  stopIf (size.fmod BLOCKSIZE ≠ 0) .exit
  stopIf (options.workload ∉ ["seq", "s", "sequential", "rand", "r", "random"]) .exit
  stopIf (¬ (options.level = 0 ∨ options.level = 1 ∨ options.level = 4 ∨ options.level = 5)) .assertionError
  stopIf (options.level ≠ 0 ∧ options.numDisks < 2) .exit
  stopIf (options.level = 5 ∧ options.raid5type ≠ "LA" ∧ options.raid5type ≠ "LS") .exit
  RaidObject.init options.chunkSize options.numDisks options.level options.raid5type

namespace RaidObject

/-- What the checks leave. -/
structure Accepted (r : RaidObject) : Prop where
  level : r.raidLevel = 0 ∨ r.raidLevel = 1 ∨ r.raidLevel = 4 ∨ r.raidLevel = 5
  two_le : r.raidLevel ≠ 0 → 2 ≤ r.numDisks
  even : r.raidLevel = 1 → r.numDisks.fmod 2 = 0
  rotation : r.raidLevel = 5 → r.raid5type = "LA" ∨ r.raid5type = "LS"

/-- The chunk size that `raid.__init__` computes, and the values that it takes over. -/
theorem init_eq_ok {chunkSize raid5type : String} {numDisks level : ℤ} {r : RaidObject}
    (h : init chunkSize numDisks level raid5type = .ok r) :
    convert chunkSize = .ok (r.chunkSize * 4096) ∧ (level = 1 → numDisks.fmod 2 = 0)
      ∧ r.numDisks = numDisks ∧ r.raidLevel = level ∧ r.raid5type = raid5type := by
  obtain ⟨bytes, hbytes, h⟩ := Except.bind_eq_ok.mp h
  obtain ⟨_, hblocks, h⟩ := Except.bind_eq_ok.mp h
  obtain ⟨_, heven, h⟩ := Except.bind_eq_ok.mp h
  rw [stopIf_eq_ok, not_not] at hblocks
  rw [stopIf_eq_ok] at heven
  cases h
  refine ⟨?_, fun hlevel => ?_, rfl, rfl, rfl⟩
  · have hdvd : (4096 : ℤ) ∣ bytes := Int.dvd_of_fmod_eq_zero hblocks
    rw [hbytes]
    exact congrArg Except.ok (Int.tdiv_mul_cancel hdvd).symm
  · by_contra hodd
    exact heven ⟨hlevel, hodd⟩

/-- What `main` accepts. -/
theorem main_eq_ok {options : Options} {r : RaidObject} (h : options.main = .ok r) :
    r.Accepted ∧ convert options.chunkSize = .ok (r.chunkSize * 4096) ∧ r.numDisks = options.numDisks
      ∧ r.raidLevel = options.level := by
  obtain ⟨_, _, h⟩ := Except.bind_eq_ok.mp h
  obtain ⟨_, _, h⟩ := Except.bind_eq_ok.mp h
  obtain ⟨_, _, h⟩ := Except.bind_eq_ok.mp h
  obtain ⟨_, _, h⟩ := Except.bind_eq_ok.mp h
  obtain ⟨_, hlevel, h⟩ := Except.bind_eq_ok.mp h
  obtain ⟨_, htwo, h⟩ := Except.bind_eq_ok.mp h
  obtain ⟨_, hrotation, h⟩ := Except.bind_eq_ok.mp h
  rw [stopIf_eq_ok, not_not] at hlevel
  rw [stopIf_eq_ok] at htwo hrotation
  obtain ⟨hchunk, heven, hdisks, hraid, htype⟩ := init_eq_ok h
  refine ⟨⟨?_, fun hne => ?_, fun hone => ?_, fun hfive => ?_⟩, hchunk, hdisks, hraid⟩
  · rwa [hraid]
  · rw [hraid] at hne
    rw [hdisks]
    by_contra hlt
    exact htwo ⟨hne, not_le.mp hlt⟩
  · rw [hdisks]
    exact heven (hraid.symm.trans hone)
  · rw [htype]
    by_contra hneither
    exact hrotation ⟨hraid.symm.trans hfive, not_or.mp hneither⟩

/-! ## The mappings -/

section

variable {r : RaidObject} {c w bnum : ℤ}

/-- With a chunk size of at least one block, or of minus one block, no offset is negative. -/
theorem offset_nonneg (hc : 1 ≤ c ∨ c = -1) (hw : 1 ≤ w) (b : ℕ) :
    0 ≤ ((b : ℤ).tdiv c).tdiv w * c + (b : ℤ).fmod c := by
  have hb : 0 ≤ (b : ℤ) := Int.natCast_nonneg b
  rcases hc with hpos | rfl
  · have hrow := Int.tdiv_nonneg (Int.tdiv_nonneg hb (by omega : 0 ≤ c)) (by omega : 0 ≤ w)
    exact add_nonneg (mul_nonneg hrow (by omega)) (Int.fmod_nonneg_of_pos _ (by omega))
  · -- all blocks are chunks, and the chunks count downwards
    have hrow := Int.tdiv_nonneg hb (by omega : 0 ≤ w)
    have hmod : (b : ℤ).fmod (-1) = 0 := Int.fmod_eq_zero_of_dvd (by simp)
    rw [hmod, Int.tdiv_neg, Int.tdiv_one, Int.neg_tdiv]
    omega

/-- With a smaller chunk size, the offset of block `1` is negative. -/
theorem offset_neg (hc : c ≤ -2) : ((1 : ℤ).tdiv c).tdiv w * c + (1 : ℤ).fmod c < 0 := by
  have hdiv : (1 : ℤ).tdiv c = 0 := by
    rw [← neg_neg c, Int.tdiv_neg, Int.tdiv_eq_zero_of_lt (by omega) (by omega), neg_zero]
  have hmod : (1 : ℤ).fmod c = 1 + c := by
    have hunit : ¬ c ∣ 1 := fun hdvd => by
      have hle := Int.natAbs_le_of_dvd_ne_zero hdvd one_ne_zero
      omega
    have hone : (1 : ℤ) % c = 1 := by
      rw [← Int.emod_neg, Int.emod_eq_of_lt (by omega) (by omega)]
    rw [Int.fmod_eq_emod, if_neg (by omega), hone]
  rw [hdiv, hmod, Int.zero_tdiv, zero_mul]
  omega

section

variable (hc : r.chunkSize ≠ 0)
include hc

/-- `bmap0` on integers. -/
theorem bmap0_eq (hN : r.numDisks ≠ 0) :
    r.bmap0 bnum = .ok ((bnum.tdiv r.chunkSize).fmod r.numDisks,
      (bnum.tdiv r.chunkSize).tdiv r.numDisks * r.chunkSize + bnum.fmod r.chunkSize) := by
  unfold bmap0
  rw [pyDiv_eq hc, pyMod_eq hc]
  dsimp only [bind, Except.bind]
  rw [pyMod_eq hN, pyDiv_eq hN]
  rfl

theorem bmap1_eq (hN : r.numDisks.tdiv 2 ≠ 0) :
    r.bmap1 bnum = .ok (2 * (bnum.tdiv r.chunkSize).fmod (r.numDisks.tdiv 2),
      2 * (bnum.tdiv r.chunkSize).fmod (r.numDisks.tdiv 2) + 1,
      (bnum.tdiv r.chunkSize).tdiv (r.numDisks.tdiv 2) * r.chunkSize + bnum.fmod r.chunkSize) := by
  unfold bmap1
  rw [pyDiv_eq hc, pyMod_eq hc, pyDiv_eq two_ne_zero]
  dsimp only [bind, Except.bind]
  rw [pyMod_eq hN, pyDiv_eq hN]
  rfl

theorem bmap4_eq (hN : r.numDisks - 1 ≠ 0) :
    r.bmap4 bnum = .ok ((bnum.tdiv r.chunkSize).fmod (r.numDisks - 1),
      (bnum.tdiv r.chunkSize).tdiv (r.numDisks - 1) * r.chunkSize + bnum.fmod r.chunkSize) := by
  unfold bmap4
  rw [pyDiv_eq hc, pyMod_eq hc]
  dsimp only [bind, Except.bind]
  rw [pyMod_eq hN, pyDiv_eq hN]
  rfl

end

/-- A RAID-5 chunk goes to a disk that is not the parity disk of its row. -/
theorem rotate_ok (htype : r.raid5type = "LA" ∨ r.raid5type = "LS") {disk col : ℤ}
    (hdisk : 0 ≤ disk ∧ disk < r.numDisks - 1) (hcol : 0 ≤ col ∧ col < r.numDisks) :
    ∃ d, r.rotate disk col (r.numDisks - 1 - col) = .ok d ∧ r.HasDisk d ∧ d ≠ r.numDisks - 1 - col := by
  unfold rotate HasDisk
  rcases htype with htype | htype
  · rw [htype, if_pos rfl]
    refine ⟨_, rfl, ?_, ?_⟩
    · split <;> omega
    · split <;> omega
  · rw [htype, if_neg (by decide), if_pos rfl, pyMod_eq (by omega), Int.fmod_eq_emod_of_nonneg _ (by omega)]
    rcases Int.lt_or_le disk col with hlt | hge
    · have hmod : (disk - col) % r.numDisks = disk - col + r.numDisks := by
        rw [← Int.add_emod_right, Int.emod_eq_of_lt (by omega) (by omega)]
      exact ⟨_, rfl, by omega, by omega⟩
    · have hmod : (disk - col) % r.numDisks = disk - col := Int.emod_eq_of_lt (by omega) (by omega)
      exact ⟨_, rfl, by omega, by omega⟩

/-- The RAID-5 mapping of any number, the one of a stripe included. -/
theorem _bmap5_ok (hc : r.chunkSize ≠ 0) (htwo : 2 ≤ r.numDisks)
    (htype : r.raid5type = "LA" ∨ r.raid5type = "LS") (bnum : ℤ) :
    ∃ d p, r._bmap5 bnum = .ok (d, p,
        (bnum.tdiv r.chunkSize).tdiv (r.numDisks - 1) * r.chunkSize + bnum.fmod r.chunkSize)
      ∧ r.HasDisk d ∧ r.HasDisk p := by
  have hdisk : 0 ≤ (bnum.tdiv r.chunkSize).fmod (r.numDisks - 1)
      ∧ (bnum.tdiv r.chunkSize).fmod (r.numDisks - 1) < r.numDisks - 1 :=
    ⟨Int.fmod_nonneg_of_pos _ (by omega), Int.fmod_lt_of_pos _ (by omega)⟩
  have hcol : 0 ≤ ((bnum.tdiv r.chunkSize).tdiv (r.numDisks - 1)).fmod r.numDisks
      ∧ ((bnum.tdiv r.chunkSize).tdiv (r.numDisks - 1)).fmod r.numDisks < r.numDisks :=
    ⟨Int.fmod_nonneg_of_pos _ (by omega), Int.fmod_lt_of_pos _ (by omega)⟩
  obtain ⟨d, hrotate, hd, hne⟩ := rotate_ok htype hdisk hcol
  refine ⟨d, r.numDisks - 1 - ((bnum.tdiv r.chunkSize).tdiv (r.numDisks - 1)).fmod r.numDisks, ?_, hd, ?_⟩
  · unfold _bmap5
    rw [pyDiv_eq hc, pyMod_eq hc]
    dsimp only [bind, Except.bind]
    rw [pyDiv_eq (by omega), pyMod_eq (by omega)]
    dsimp only
    rw [pyMod_eq (by omega)]
    dsimp only
    rw [hrotate]
    dsimp only
    rw [stopIf, if_neg hne]
    rfl
  · unfold HasDisk
    omega

/-! ## Which options work -/

/-- The accepted values with which the mappings work. -/
theorem mapsSafely_of (h : r.Accepted) (hc : 1 ≤ r.chunkSize ∨ r.chunkSize = -1)
    (hN : r.raidLevel = 0 → 1 ≤ r.numDisks) : r.MapsSafely := by
  have hne : r.chunkSize ≠ 0 := by omega
  refine fun b => ⟨fun hlevel => ?_, fun hlevel => ?_, fun hlevel => ⟨?_, fun snum => ?_⟩,
    fun hlevel => ⟨?_, fun snum => ?_⟩⟩
  · -- RAID-0
    have hpos := hN hlevel
    exact ⟨_, _, bmap0_eq hne (by omega), ⟨Int.fmod_nonneg_of_pos _ (by omega), Int.fmod_lt_of_pos _ (by omega)⟩,
      offset_nonneg hc hpos b⟩
  · -- RAID-1: the pairs are half of the disks
    have htwo := h.two_le (by omega)
    have heven := h.even hlevel
    rw [Int.fmod_eq_emod_of_nonneg _ (by omega)] at heven
    have hhalf : r.numDisks.tdiv 2 = r.numDisks / 2 := Int.tdiv_eq_ediv_of_nonneg (by omega)
    have hlo := Int.fmod_nonneg_of_pos ((b : ℤ).tdiv r.chunkSize) (by omega : 0 < r.numDisks.tdiv 2)
    have hhi := Int.fmod_lt_of_pos ((b : ℤ).tdiv r.chunkSize) (by omega : 0 < r.numDisks.tdiv 2)
    refine ⟨_, _, _, bmap1_eq hne (by omega), ⟨by omega, by omega⟩, ⟨by omega, by omega⟩, ?_⟩
    exact offset_nonneg hc (by omega) b
  · -- RAID-4: the last disk is for the parity
    have htwo := h.two_le (by omega)
    have hlo := Int.fmod_nonneg_of_pos ((b : ℤ).tdiv r.chunkSize) (by omega : 0 < r.numDisks - 1)
    have hhi := Int.fmod_lt_of_pos ((b : ℤ).tdiv r.chunkSize) (by omega : 0 < r.numDisks - 1)
    exact ⟨_, _, bmap4_eq hne (by omega), ⟨hlo, by omega⟩, offset_nonneg hc (by omega) b⟩
  · have htwo := h.two_le (by omega)
    exact ⟨by unfold pmap4; omega, by unfold pmap4; omega⟩
  · -- RAID-5: the rotation gives the disk and the parity together
    obtain ⟨d, p, hmap, hd, -⟩ := _bmap5_ok hne (h.two_le (by omega)) (h.rotation hlevel) b
    have htwo := h.two_le (by omega)
    refine ⟨d, _, ?_, hd, offset_nonneg hc (by omega : 1 ≤ r.numDisks - 1) b⟩
    rw [bmap5, hmap]
    rfl
  · obtain ⟨d, p, hmap, -, hp⟩ := _bmap5_ok hne (h.two_le (by omega)) (h.rotation hlevel)
      (snum * r.blocksInStripe)
    refine ⟨p, ?_, hp⟩
    rw [pmap5, hmap]
    rfl

/-- A chunk of no blocks is divided by. -/
theorem not_mapsSafely_of_chunkSize (h : r.Accepted) (hc : r.chunkSize = 0) : ¬ r.MapsSafely := by
  intro hmaps
  obtain ⟨hzero, hone, hfour, hfive⟩ := hmaps 0
  rcases h.level with hlevel | hlevel | hlevel | hlevel
  · obtain ⟨d, o, hmap, -⟩ := hzero hlevel
    rw [bmap0, hc] at hmap
    cases hmap
  · obtain ⟨d, d', o, hmap, -⟩ := hone hlevel
    rw [bmap1, hc] at hmap
    cases hmap
  · obtain ⟨⟨d, o, hmap, -⟩, -⟩ := hfour hlevel
    rw [bmap4, hc] at hmap
    cases hmap
  · obtain ⟨⟨d, o, hmap, -⟩, -⟩ := hfive hlevel
    rw [bmap5, _bmap5, hc] at hmap
    cases hmap

/-- Without a disk nothing is on one. -/
theorem numDisks_pos_of_mapsSafely (hmaps : r.MapsSafely) (hlevel : r.raidLevel = 0) : 1 ≤ r.numDisks := by
  obtain ⟨d, o, -, ⟨hlo, hhi⟩, -⟩ := (hmaps 0).1 hlevel
  omega

/-- With a chunk of less than minus one block, the offset of block `1` is negative. -/
theorem chunkSize_of_mapsSafely (h : r.Accepted) (hmaps : r.MapsSafely) :
    1 ≤ r.chunkSize ∨ r.chunkSize = -1 := by
  by_contra hnot
  have hne : r.chunkSize ≠ 0 := fun hc => not_mapsSafely_of_chunkSize h hc hmaps
  have hneg : ∀ w, ((1 : ℤ).tdiv r.chunkSize).tdiv w * r.chunkSize + (1 : ℤ).fmod r.chunkSize < 0 := fun w =>
    offset_neg (by omega)
  rcases h.level with hlevel | hlevel | hlevel | hlevel
  · have hpos := numDisks_pos_of_mapsSafely hmaps hlevel
    have hmap := @bmap0_eq r 1 hne (by omega)
    obtain ⟨d, o, heq, -, ho⟩ := (hmaps 1).1 hlevel
    cases hmap.symm.trans heq
    exact absurd ho (not_le.mpr (hneg _))
  · have htwo := h.two_le (by omega)
    have hhalf : r.numDisks.tdiv 2 = r.numDisks / 2 := Int.tdiv_eq_ediv_of_nonneg (by omega)
    have hmap := @bmap1_eq r 1 hne (by omega)
    obtain ⟨d, d', o, heq, -, -, ho⟩ := (hmaps 1).2.1 hlevel
    cases hmap.symm.trans heq
    exact absurd ho (not_le.mpr (hneg _))
  · have htwo := h.two_le (by omega)
    have hmap := @bmap4_eq r 1 hne (by omega)
    obtain ⟨⟨d, o, heq, -, ho⟩, -⟩ := (hmaps 1).2.2.1 hlevel
    cases hmap.symm.trans heq
    exact absurd ho (not_le.mpr (hneg _))
  · obtain ⟨d', p, hmap, -⟩ := _bmap5_ok hne (h.two_le (by omega)) (h.rotation hlevel) 1
    obtain ⟨⟨d, o, heq, -, ho⟩, -⟩ := (hmaps 1).2.2.2 hlevel
    rw [bmap5, Nat.cast_one, hmap] at heq
    cases heq
    exact absurd ho (not_le.mpr (hneg _))

end

end RaidObject

/-- **The accepted options that map safely**: a positive chunk size, or the one of minus one block, and for level 0
at least one disk. -/
theorem Options.mapsSafely_iff {options : Options} {r : RaidObject} (h : options.main = .ok r) :
    r.MapsSafely ↔ (∃ bytes, convert options.chunkSize = .ok bytes ∧ (0 < bytes ∨ bytes = -4096))
      ∧ (options.level = 0 → 1 ≤ options.numDisks) := by
  obtain ⟨haccepted, hchunk, hdisks, hlevel⟩ := RaidObject.main_eq_ok h
  have hbytes : (∃ bytes, convert options.chunkSize = .ok bytes ∧ (0 < bytes ∨ bytes = -4096))
      ↔ (1 ≤ r.chunkSize ∨ r.chunkSize = -1) := by
    rw [hchunk]
    constructor
    · rintro ⟨bytes, heq, hsign⟩
      cases heq
      omega
    · exact fun hc => ⟨_, rfl, by omega⟩
  rw [hbytes, ← hlevel, ← hdisks]
  constructor
  · exact fun hmaps => ⟨RaidObject.chunkSize_of_mapsSafely haccepted hmaps,
      RaidObject.numDisks_pos_of_mapsSafely hmaps⟩
  · exact fun ⟨hc, hN⟩ => RaidObject.mapsSafely_of haccepted hc hN

/-- The array of the default options, with some chunk size. -/
def RaidObject.striped (chunkSize : ℤ) : RaidObject where
  chunkSize := chunkSize
  numDisks := 4
  raidLevel := 0
  raid5type := "LS"

/-- The default options are accepted, and what they build maps safely. -/
theorem Options.mapsSafely_iff_defaults :
    Options.main {} = .ok (RaidObject.striped 1) ∧ (RaidObject.striped 1).MapsSafely := by
  have hmain : Options.main {} = .ok (RaidObject.striped 1) := by decide
  have hbytes : convert "4k" = .ok 4096 := by decide
  exact ⟨hmain, (Options.mapsSafely_iff hmain).mpr ⟨⟨4096, hbytes, by decide⟩, by decide⟩⟩

/-- A chunk size of `0k` is accepted, and the first block is divided by it. -/
theorem not_mapsSafely_emptyChunks :
    Options.main { chunkSize := "0k" } = .ok (RaidObject.striped 0)
      ∧ (RaidObject.striped 0).bmap0 0 = .error .zeroDivisionError ∧ ¬ (RaidObject.striped 0).MapsSafely := by
  refine ⟨by decide, rfl, fun hmaps => ?_⟩
  obtain ⟨d, o, hmap, -⟩ := (hmaps 0).1 rfl
  cases hmap

/-! ## The configurations of the array -/

/-- The number of a level. -/
def RaidLevel.number : RaidLevel → ℤ
  | .zero => 0
  | .one => 1
  | .four => 4
  | .five => 5

/-- The name of a rotation. -/
def Raid5Type.name : Raid5Type → String
  | .LA => "LA"
  | .LS => "LS"

namespace RaidObject

/-- The attributes are those of a configuration. -/
structure Agrees (r : RaidObject) (c : Raid) : Prop where
  chunkSize : r.chunkSize = c.chunkSize
  numDisks : r.numDisks = c.numDisks
  raidLevel : r.raidLevel = c.raidLevel.number
  raid5type : c.raidLevel = .five → r.raid5type = c.raid5type.name

variable {r : RaidObject} {c : Raid}

/-- With a positive chunk size, what `main` accepts is a configuration. -/
theorem Accepted.exists_agrees (h : r.Accepted) (hc : 1 ≤ r.chunkSize) (hN : r.raidLevel = 0 → 1 ≤ r.numDisks) :
    ∃ c, r.Agrees c := by
  obtain ⟨level, hlevel⟩ : ∃ level : RaidLevel, r.raidLevel = level.number := by
    rcases h.level with hlevel | hlevel | hlevel | hlevel
    · exact ⟨.zero, hlevel⟩
    · exact ⟨.one, hlevel⟩
    · exact ⟨.four, hlevel⟩
    · exact ⟨.five, hlevel⟩
  obtain ⟨rotation, hrotation⟩ : ∃ rotation : Raid5Type, level = .five → r.raid5type = rotation.name := by
    by_cases hfive : level = .five
    · rcases h.rotation (by rw [hlevel, hfive]; rfl) with htype | htype
      · exact ⟨.LA, fun _ => htype⟩
      · exact ⟨.LS, fun _ => htype⟩
    · exact ⟨.LS, fun heq => absurd heq hfive⟩
  -- the checks of `main` are the fields of the array
  have htwo : level ≠ .zero → 2 ≤ r.numDisks := fun hne => h.two_le (by
    rw [hlevel]
    cases level with
    | zero => exact absurd rfl hne
    | _ => decide)
  have hpos : 1 ≤ r.numDisks := by
    by_cases hzero : level = .zero
    · exact hN (by rw [hlevel, hzero]; rfl)
    · have htwo' := htwo hzero
      omega
  refine ⟨⟨r.chunkSize.toNat, r.numDisks.toNat, level, rotation, by omega, by omega, fun hone => ?_, fun hne => ?_⟩,
    Eq.symm (Int.toNat_of_nonneg (by omega)), Eq.symm (Int.toNat_of_nonneg (by omega)), hlevel, hrotation⟩
  · have heven := h.even (by rw [hlevel, hone]; rfl)
    rw [Int.fmod_eq_emod_of_nonneg _ (by omega)] at heven
    omega
  · have htwo' := htwo hne
    omega

section

variable {m n : ℕ}

/-- On natural numbers, `int(x / y)` is the quotient. -/
theorem pyDiv_natCast (hn : 0 < n) : pyDiv m n = .ok ((m / n : ℕ) : ℤ) := pyDiv_eq (by omega)

theorem pyMod_natCast (hn : 0 < n) : pyMod m n = .ok ((m % n : ℕ) : ℤ) := by
  rw [pyMod_eq (by omega), Int.ofNat_fmod]

end

/-- `bmap0` is the one on natural numbers. -/
theorem Agrees.bmap0 (h : r.Agrees c) (b : ℕ) : r.bmap0 b = .ok (((c.bmap0 b).1 : ℤ), ((c.bmap0 b).2 : ℤ)) := by
  unfold RaidObject.bmap0
  rw [h.chunkSize, h.numDisks, pyDiv_natCast c.chunkSize_pos, pyMod_natCast c.chunkSize_pos]
  dsimp only [bind, Except.bind]
  rw [pyDiv_natCast c.numDisks_pos, pyMod_natCast c.numDisks_pos]
  rfl

theorem Agrees.bmap1 (h : r.Agrees c) (hpairs : 0 < c.numDisks / 2) (b : ℕ) :
    r.bmap1 b = .ok (((c.bmap1 b).1 : ℤ), ((c.bmap1 b).2.1 : ℤ), ((c.bmap1 b).2.2 : ℤ)) := by
  have hhalf : pyDiv c.numDisks 2 = .ok ((c.numDisks / 2 : ℕ) : ℤ) := pyDiv_natCast two_pos
  unfold RaidObject.bmap1
  rw [h.chunkSize, h.numDisks, pyDiv_natCast c.chunkSize_pos, pyMod_natCast c.chunkSize_pos, hhalf]
  dsimp only [bind, Except.bind]
  rw [pyDiv_natCast hpairs, pyMod_natCast hpairs]
  rfl

theorem Agrees.bmap4 (h : r.Agrees c) (htwo : 2 ≤ c.numDisks) (b : ℕ) :
    r.bmap4 b = .ok (((c.bmap4 b).1 : ℤ), ((c.bmap4 b).2 : ℤ)) := by
  have hwidth : (c.numDisks : ℤ) - 1 = (c.numDisks - 1 : ℕ) := by omega
  unfold RaidObject.bmap4
  rw [h.chunkSize, h.numDisks, hwidth, pyDiv_natCast c.chunkSize_pos, pyMod_natCast c.chunkSize_pos]
  dsimp only [bind, Except.bind]
  rw [pyDiv_natCast (by omega), pyMod_natCast (by omega)]
  rfl

/-- The rotation of a column is the place of the chunk. -/
theorem Agrees.rotate (h : r.Agrees c) (hfive : c.raidLevel = .five) (s k : ℕ) :
    r.rotate k (s % c.numDisks : ℕ) (c.parity5 s) = .ok (c.place5 s k : ℤ) := by
  have hpos := c.numDisks_pos
  have htype := h.raid5type hfive
  unfold RaidObject.rotate
  cases hrot : c.raid5type with
  | LA =>
    have hname : Raid5Type.LA.name = "LA" := rfl
    rw [htype, hrot, if_pos hname]
    have hplace : c.place5 s k = if k ≥ c.parity5 s then k + 1 else k := by
      simp only [Raid.place5, hrot]
      rfl
    rw [hplace]
    by_cases hge : k ≥ c.parity5 s
    · rw [if_pos hge, if_pos (by exact_mod_cast hge)]
      rfl
    · rw [if_neg hge, if_neg (by exact_mod_cast hge)]
  | LS =>
    have hne : Raid5Type.LS.name ≠ "LA" := by decide
    have hname : Raid5Type.LS.name = "LS" := rfl
    rw [htype, hrot, if_neg hne, if_pos hname, h.numDisks, pyMod_eq (by omega), c.place5_LS_cast hrot,
      Int.fmod_eq_emod_of_nonneg _ (by omega)]

/-- **The mapping of a configuration is that of its attributes.** -/
theorem Agrees.bmap5 (h : r.Agrees c) (hfive : c.raidLevel = .five) (b : ℕ) :
    r.bmap5 b = .ok (((c.layout5 (c.two_le (by simp [hfive]))).slot b).1,
      ((c.layout5 (c.two_le (by simp [hfive]))).slot b).2) := by
  have htwo : 2 ≤ c.numDisks := c.two_le (by simp [hfive])
  have hwidth : (c.numDisks : ℤ) - 1 = (c.numDisks - 1 : ℕ) := by omega
  have hcol := c.mod_numDisks_lt (b / c.chunkSize / (c.numDisks - 1))
  have hpdisk : ((c.numDisks - 1 : ℕ) : ℤ) - (b / c.chunkSize / (c.numDisks - 1) % c.numDisks : ℕ)
      = c.parity5 (b / c.chunkSize / (c.numDisks - 1)) := by
    rw [Raid.parity5]
    omega
  have hne := c.place5_ne_parity5 (s := b / c.chunkSize / (c.numDisks - 1))
    (k := b / c.chunkSize % (c.numDisks - 1)) (Nat.mod_lt _ (by omega))
  unfold RaidObject.bmap5 RaidObject._bmap5
  rw [h.chunkSize, h.numDisks, hwidth, pyDiv_natCast c.chunkSize_pos, pyMod_natCast c.chunkSize_pos]
  dsimp only [bind, Except.bind]
  rw [pyDiv_natCast (by omega), pyMod_natCast (by omega)]
  dsimp only
  rw [pyMod_natCast c.numDisks_pos]
  dsimp only
  rw [hpdisk, h.rotate hfive]
  dsimp only
  rw [stopIf, if_neg (by exact_mod_cast hne)]
  rfl

end RaidObject

end Cs537
