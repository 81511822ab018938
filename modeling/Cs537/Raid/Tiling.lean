import Mathlib.Algebra.Order.Ring.Int
import Mathlib.Data.Int.ModEq
import Cs537.Raid.Mapping

/-!
# The mappings are layouts

Each mapping function of the simulator is `Layout.slot` of a layout: RAID 0 and RAID 1 place chunk `k`
of a stripe on disk (or mirror pair) `k`, RAID 4 and RAID 5 are parity layouts. The facts about tiling
then come from the layouts.
-/

namespace Cs537.Raid

variable (r : Raid)

/-- The RAID-5 disk of the `k`-th chunk of stripe `s`, as `_bmap5` computes it. -/
def place5 (s k : ℕ) : ℕ :=
  match r.raid5type with
  | .LA => if k ≥ r.numDisks - 1 - s % r.numDisks then k + 1 else k
  | .LS => (((k : ℤ) - (s % r.numDisks : ℕ)) % r.numDisks).toNat

/-- The RAID-5 parity disk of stripe `s`, as `_bmap5` computes it. -/
def parity5 (s : ℕ) : ℕ := r.numDisks - 1 - s % r.numDisks

theorem mod_numDisks_lt (s : ℕ) : s % r.numDisks < r.numDisks := Nat.mod_lt _ r.numDisks_pos

/-- In the left-symmetric layout the disk is the column rotated left by the stripe number. -/
theorem place5_LS_cast (h : r.raid5type = .LS) (s k : ℕ) :
    (r.place5 s k : ℤ) = ((k : ℤ) - (s % r.numDisks : ℕ)) % r.numDisks := by
  have hpos := r.numDisks_pos
  simp only [place5, h]
  exact Int.toNat_of_nonneg (Int.emod_nonneg _ (by omega))

theorem place5_lt {s k : ℕ} (hk : k < r.numDisks - 1) : r.place5 s k < r.numDisks := by
  have hpos := r.numDisks_pos
  cases h : r.raid5type with
  | LA =>
    simp only [place5, h]
    split <;> omega
  | LS =>
    have hlt := Int.emod_lt_of_pos ((k : ℤ) - (s % r.numDisks : ℕ)) (b := r.numDisks) (by omega)
    have := r.place5_LS_cast h s k
    omega

/-- Columns below `N` that are congruent after the same rotation are equal. -/
private theorem eq_of_rotated_modEq {N k k' : ℕ} {t : ℤ} (hk : k < N) (hk' : k' < N)
    (h : ((k : ℤ) - t) % N = ((k' : ℤ) - t) % N) : k = k' := by
  have hmod : (k : ℤ) ≡ k' [ZMOD N] := by
    simpa using Int.ModEq.add_right t h
  rw [Int.ModEq, Int.emod_eq_of_lt (by omega) (by omega),
    Int.emod_eq_of_lt (by omega) (by omega)] at hmod
  omega

theorem place5_inj {s k k' : ℕ} (hk : k < r.numDisks - 1) (hk' : k' < r.numDisks - 1)
    (heq : r.place5 s k = r.place5 s k') : k = k' := by
  cases h : r.raid5type with
  | LA =>
    simp only [place5, h] at heq
    split at heq <;> split at heq <;> omega
  | LS =>
    refine eq_of_rotated_modEq (N := r.numDisks) (t := (s % r.numDisks : ℕ)) (by omega) (by omega) ?_
    rw [← r.place5_LS_cast h, ← r.place5_LS_cast h, heq]

theorem place5_ne_parity5 {s k : ℕ} (hk : k < r.numDisks - 1) : r.place5 s k ≠ r.parity5 s := by
  have hs := r.mod_numDisks_lt s
  intro heq
  cases h : r.raid5type with
  | LA =>
    simp only [place5, parity5, h] at heq
    split at heq <;> omega
  | LS =>
    -- the parity disk is where column `N - 1` would be
    have hparity : (r.parity5 s : ℤ)
        = (((r.numDisks - 1 : ℕ) : ℤ) - (s % r.numDisks : ℕ)) % r.numDisks := by
      rw [Int.emod_eq_of_lt (by omega) (by omega), parity5]
      omega
    have hcol : k = r.numDisks - 1 := by
      refine eq_of_rotated_modEq (N := r.numDisks) (t := (s % r.numDisks : ℕ)) (by omega) (by omega) ?_
      rw [← r.place5_LS_cast h, heq, hparity]
    omega

/-! ## The layouts -/

/-- Striping over all disks. -/
def layout0 : Layout where
  width := r.numDisks
  chunk := r.chunkSize
  disks := r.numDisks
  place _ k := k
  width_pos := r.numDisks_pos
  chunk_pos := r.chunkSize_pos
  place_lt _ _ h := h
  place_inj _ _ _ _ _ h := h

/-- Two disks leave room for data. -/
theorem width_pos_of_two_le (h : 2 ≤ r.numDisks) : 0 < r.numDisks - 1 := by omega

/-- A fixed parity disk behind the data disks. -/
def layout4 (h : 2 ≤ r.numDisks) : ParityLayout where
  width := r.numDisks - 1
  chunk := r.chunkSize
  disks := r.numDisks
  place _ k := k
  width_pos := r.width_pos_of_two_le h
  chunk_pos := r.chunkSize_pos
  place_lt _ _ h := by omega
  place_inj _ _ _ _ _ h := h
  parity _ := r.pdisk
  disks_eq := by omega
  parity_lt _ := by simp only [pdisk]; omega
  place_ne_parity _ _ h := by simp only [pdisk]; omega

/-- Rotated parity. -/
def layout5 (h : 2 ≤ r.numDisks) : ParityLayout where
  width := r.numDisks - 1
  chunk := r.chunkSize
  disks := r.numDisks
  place := r.place5
  width_pos := r.width_pos_of_two_le h
  chunk_pos := r.chunkSize_pos
  place_lt _ _ := r.place5_lt
  place_inj _ _ _ := r.place5_inj
  parity := r.parity5
  disks_eq := by omega
  parity_lt s := by simp only [parity5]; omega
  place_ne_parity _ _ := r.place5_ne_parity5

/-- `bmap0` is the layout of striping. -/
theorem bmap0_eq_slot (bnum : ℕ) : r.bmap0 bnum = r.layout0.slot bnum := rfl

/-- `bmap4` is the layout of RAID-4. -/
theorem bmap4_eq_slot (h : 2 ≤ r.numDisks) (bnum : ℕ) : r.bmap4 bnum = (r.layout4 h).slot bnum := rfl

/-- `_bmap5` never fails: its assertion separates a data disk from the parity disk. -/
theorem _bmap5_eq (h : 2 ≤ r.numDisks) (bnum : ℕ) :
    r._bmap5 bnum = .ok (((r.layout5 h).slot bnum).1, (r.layout5 h).parity ((r.layout5 h).stripe bnum),
      ((r.layout5 h).slot bnum).2) := by
  have hne := r.place5_ne_parity5 (s := bnum / r.chunkSize / (r.numDisks - 1))
    (k := bnum / r.chunkSize % (r.numDisks - 1)) (Nat.mod_lt _ (r.width_pos_of_two_le h))
  exact if_pos hne

/-- `bmap5` is the layout of RAID-5. -/
theorem bmap5_eq_slot (h : 2 ≤ r.numDisks) (bnum : ℕ) :
    r.bmap5 bnum = .ok ((r.layout5 h).slot bnum) := by
  rw [bmap5, r._bmap5_eq h]
  rfl

theorem blocksInStripe_eq4 (h : 2 ≤ r.numDisks) :
    r.blocksInStripe = (r.layout4 h).blocksInStripe := rfl

theorem blocksInStripe_eq5 (h : 2 ≤ r.numDisks) :
    r.blocksInStripe = (r.layout5 h).blocksInStripe := rfl

/-- A stripe number is recovered from the stripe's first block. -/
theorem pmap5_eq_parity (h : 2 ≤ r.numDisks) (snum : ℕ) :
    r.pmap5 snum = .ok ((r.layout5 h).parity snum) := by
  have hstripe : (r.layout5 h).stripe (snum * r.blocksInStripe) = snum := by
    rw [Layout.stripe_eq_div, blocksInStripe_eq5 r h,
      Nat.mul_div_cancel _ (r.layout5 h).blocksInStripe_pos]
  rw [pmap5, r._bmap5_eq h, hstripe]
  rfl

/-- **The RAID-5 layout is a perfect tiling.** Every slot of the array holds exactly one block or is
the parity slot of its row, never both; and `_bmap5` computes for every block a data disk off the
parity disk of its stripe, and a row inside the band of its stripe. -/
theorem bmap5_tiles (h : 2 ≤ r.numDisks) :
    (∀ d o, d < r.numDisks →
      Xor (∃! b, r.bmap5 b = .ok (d, o)) (r.pmap5 (o / r.chunkSize) = .ok d)) ∧
    (∀ b b', r.bmap5 b = r.bmap5 b' → b = b') ∧
    (∀ b, ∃ d o, r.bmap5 b = .ok (d, o) ∧ d < r.numDisks ∧ r.pmap5 (o / r.chunkSize) ≠ .ok d) ∧
    (∀ b, ∃ d p o, r._bmap5 b = .ok (d, p, o) ∧ d ≠ p ∧ r.pmap5 (b / r.blocksInStripe) = .ok p ∧
      b / r.blocksInStripe * r.chunkSize ≤ o ∧ o < (b / r.blocksInStripe + 1) * r.chunkSize) := by
  have hinj : ∀ b b', r.bmap5 b = r.bmap5 b' → b = b' := by
    intro b b' heq
    rw [r.bmap5_eq_slot h, r.bmap5_eq_slot h, Except.ok.injEq] at heq
    exact (r.layout5 h).slot_injective heq
  refine ⟨?_, hinj, ?_, ?_⟩
  · intro d o hd
    have hiff := (r.layout5 h).exists_slot_iff_ne_parity o hd
    -- by injectivity the block of a slot is unique as soon as there is one
    have hunique : (∃! b, r.bmap5 b = .ok (d, o)) ↔ ∃ b, (r.layout5 h).slot b = (d, o) := by
      constructor
      · rintro ⟨b, hb, -⟩
        rw [r.bmap5_eq_slot h, Except.ok.injEq] at hb
        exact ⟨b, hb⟩
      · rintro ⟨b, hb⟩
        have hb' : r.bmap5 b = .ok (d, o) := by rw [r.bmap5_eq_slot h, hb]
        exact ⟨b, hb', fun b' hb'' => hinj b' b (hb''.trans hb'.symm)⟩
    rw [hunique, hiff, r.pmap5_eq_parity h, Except.ok.injEq]
    by_cases hp : d = (r.layout5 h).parity (o / r.chunkSize)
    · exact Or.inr ⟨hp.symm, fun hne => hne hp⟩
    · exact Or.inl ⟨hp, fun heq => hp heq.symm⟩
  · intro b
    refine ⟨_, _, r.bmap5_eq_slot h b, (r.layout5 h).slot_disk_lt b, ?_⟩
    rw [r.pmap5_eq_parity h, ne_eq, Except.ok.injEq]
    exact ((r.layout5 h).exists_slot_iff_ne_parity _ ((r.layout5 h).slot_disk_lt b)).mp ⟨b, rfl⟩ ∘ Eq.symm
  · intro b
    have hbounds := (r.layout5 h).row_bounds b
    have hstripe := (r.layout5 h).stripe_eq_div b
    refine ⟨_, _, _, r._bmap5_eq h b, ?_, ?_, ?_⟩
    · exact (r.layout5 h).place_ne_parity _ _ ((r.layout5 h).col_lt b)
    · rw [r.pmap5_eq_parity h, hstripe]
      rfl
    · rw [hstripe] at hbounds
      exact hbounds

/-- The tiling at the default RAID-5 configuration: four disks, chunks of one block. -/
theorem bmap5_tiles_defaults : 2 ≤ (defaults .five).numDisks ∧
    (∀ d o, d < 4 → Xor (∃! b, (defaults .five).bmap5 b = .ok (d, o))
      ((defaults .five).pmap5 (o / 1) = .ok d)) :=
  ⟨by decide, ((defaults .five).bmap5_tiles (by decide)).1⟩

end Cs537.Raid
