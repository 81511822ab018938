import Mathlib.Order.Interval.Finset.Nat
import Mathlib.Tactic.Ring
import Cs537.Raid.Placement

/-!
# Where the chunks lie

The mappings of RAID 0, RAID 1 and RAID 4 are bijections between the blocks and the data slots. The RAID-5
rotation visits all disks evenly: the left-symmetric layout puts the chunks on the disks in the order of plain
striping, and the parity goes once round the disks in every `numDisks` stripes.
-/

namespace Cs537.Raid

variable (r : Raid)

/-! ## Plain mappings -/

/-- Striping maps the blocks one to one onto the slots of the disks. -/
theorem bijOn_bmap0 : Set.BijOn r.bmap0 Set.univ {x | x.1 < r.numDisks} := by
  rw [funext r.bmap0_eq_slot]
  exact r.layout0.bijOn_slot_of_place fun _ _ => rfl

/-- RAID-4 maps the blocks one to one onto the slots of the data disks. -/
theorem bijOn_bmap4 (h : 2 ≤ r.numDisks) : Set.BijOn r.bmap4 Set.univ {x | x.1 < r.numDisks - 1} := by
  rw [funext (r.bmap4_eq_slot h)]
  exact (r.layout4 h).bijOn_slot_of_place fun _ _ => rfl

/-- Mirroring maps the blocks one to one onto the slots of the pairs. -/
theorem bijOn_bmap1 (h : 2 ∣ r.numDisks) :
    Set.BijOn r.bmap1 Set.univ {x | ∃ k o, 2 * k + 1 < r.numDisks ∧ x = (2 * k, 2 * k + 1, o)} := by
  have hpos : 0 < r.numDisks / 2 := Nat.div_pos (Nat.le_of_dvd r.numDisks_pos h) two_pos
  have hslot := (r.layout1 hpos).bijOn_slot_of_place fun _ _ => rfl
  have hlt : ∀ k, k < (r.layout1 hpos).width ↔ 2 * k + 1 < r.numDisks := by
    intro k
    show k < r.numDisks / 2 ↔ _
    omega
  refine ⟨?_, ?_, ?_⟩
  · intro b _
    exact ⟨_, _, (hlt _).mp (hslot.mapsTo (Set.mem_univ b)), r.bmap1_eq_slot hpos b⟩
  · intro b _ b' _ heq
    rw [r.bmap1_eq_slot hpos, r.bmap1_eq_slot hpos, Prod.mk.injEq, Prod.mk.injEq] at heq
    exact (r.layout1 hpos).slot_injective (Prod.ext (by omega) heq.2.2)
  · rintro x ⟨k, o, hk, rfl⟩
    obtain ⟨b, -, hb⟩ := hslot.surjOn (show (k, o) ∈ {x : ℕ × ℕ | x.1 < _} from (hlt k).mpr hk)
    refine ⟨b, Set.mem_univ b, ?_⟩
    rw [r.bmap1_eq_slot hpos, hb]

/-- **The layouts of RAID 0, RAID 1 and RAID 4 are perfect tilings.** Each mapping is a bijection between the
blocks and its slots: all of them for RAID 0, those of the mirror pairs for RAID 1, and those of the data disks for
RAID 4, where the parity disk holds no block and the row of a block lies in the band of its stripe. -/
theorem plain_tilings :
    Set.BijOn r.bmap0 Set.univ {x | x.1 < r.numDisks}
      ∧ (2 ∣ r.numDisks → Set.BijOn r.bmap1 Set.univ
          {x | ∃ k o, 2 * k + 1 < r.numDisks ∧ x = (2 * k, 2 * k + 1, o)})
      ∧ (2 ≤ r.numDisks → Set.BijOn r.bmap4 Set.univ {x | x.1 ≤ r.numDisks - 2}
          ∧ (∀ b s, r.pmap4 s = r.numDisks - 1 ∧ (r.bmap4 b).1 ≠ r.pmap4 s)
          ∧ ∀ b, b / r.blocksInStripe * r.chunkSize ≤ (r.bmap4 b).2
              ∧ (r.bmap4 b).2 < (b / r.blocksInStripe + 1) * r.chunkSize) := by
  refine ⟨r.bijOn_bmap0, r.bijOn_bmap1, fun h => ⟨?_, fun b s => ⟨rfl, ?_⟩, fun b => ?_⟩⟩
  · have hset : {x : ℕ × ℕ | x.1 ≤ r.numDisks - 2} = {x | x.1 < r.numDisks - 1} := by
      ext x
      show x.1 ≤ r.numDisks - 2 ↔ x.1 < r.numDisks - 1
      omega
    rw [hset]
    exact r.bijOn_bmap4 h
  · exact (r.layout4 h).place_ne_parity s _ ((r.layout4 h).col_lt b)
  · have hband := (r.layout4 h).row_bounds b
    rw [Layout.stripe_eq_div, ← r.blocksInStripe_eq4 h] at hband
    exact hband

/-- The tilings of four disks: two mirror pairs, or three data disks and the parity disk. -/
theorem plain_tilings_defaults :
    Set.BijOn (defaults .one).bmap1 Set.univ {x | ∃ k o, 2 * k + 1 < 4 ∧ x = (2 * k, 2 * k + 1, o)}
      ∧ Set.BijOn (defaults .four).bmap4 Set.univ {x | x.1 ≤ 2} :=
  ⟨(defaults .one).plain_tilings.2.1 (by decide), ((defaults .four).plain_tilings.2.2 (by decide)).1⟩

/-! ## The rotation -/

/-- Column `k` of stripe `s`, moved `s` columns to the left, is the disk of chunk `(N - 1) * s + k` of plain
striping. -/
theorem place5_eq_mod (hLS : r.raid5type = .LS) (h : 2 ≤ r.numDisks) (cnum : ℕ) :
    r.place5 (cnum / (r.numDisks - 1)) (cnum % (r.numDisks - 1)) = cnum % r.numDisks := by
  obtain ⟨n, hn⟩ : ∃ n, r.numDisks = n + 1 := ⟨r.numDisks - 1, by omega⟩
  have hcast := r.place5_LS_cast hLS (cnum / (r.numDisks - 1)) (cnum % (r.numDisks - 1))
  rw [hn, Nat.add_sub_cancel] at hcast ⊢
  -- `N = 1` modulo `N - 1`, so that `n * q + k = k - q` modulo `n + 1`
  have hdiv : (cnum : ℤ) = n * (cnum / n : ℕ) + (cnum % n : ℕ) := by
    exact_mod_cast (Nat.div_add_mod cnum n).symm
  have hmod : ((cnum % n : ℕ) : ℤ) - (cnum / n % (n + 1) : ℕ) ≡ cnum [ZMOD (n + 1 : ℕ)] := by
    rw [Int.modEq_iff_dvd]
    have hcol : ((cnum / n % (n + 1) : ℕ) : ℤ)
        = (cnum / n : ℕ) - (n + 1 : ℕ) * (cnum / n / (n + 1) : ℕ) := by
      rw [eq_sub_iff_add_eq]
      exact_mod_cast Nat.mod_add_div (cnum / n) (n + 1)
    rw [hcol]
    refine ⟨(cnum / n : ℕ) - (cnum / n / (n + 1) : ℕ), ?_⟩
    conv_lhs => rw [hdiv]
    push_cast
    ring
  have hcast' : (r.place5 (cnum / n) (cnum % n) : ℤ) = ((cnum % (n + 1) : ℕ) : ℤ) := by
    rw [hcast, hmod, Int.natCast_mod]
  exact_mod_cast hcast'

/-- Among `n` consecutive numbers one has the remainder `k`. -/
theorem existsUnique_mod_eq {n k : ℕ} (hk : k < n) (s : ℕ) : ∃! t, (s ≤ t ∧ t < s + n) ∧ t % n = k := by
  have hmem : k ∈ (Finset.Ico s (s + n)).image (· % n) := by
    rw [Nat.image_Ico_mod]
    exact Finset.mem_range.mpr hk
  obtain ⟨t, ht, htk⟩ := Finset.mem_image.mp hmem
  refine ⟨t, ⟨Finset.mem_Ico.mp ht, htk⟩, ?_⟩
  rintro t' ⟨ht', htk'⟩
  exact Nat.mod_injOn_Ico s n (Finset.mem_Ico.mpr ht') ht (htk'.trans htk.symm)

/-- **The RAID-5 rotation is even.** In the left-symmetric layout `bmap5` picks the disk of plain striping, so blocks
of different chunks less than `numDisks` chunks apart are on different disks. In both layouts every disk is the
parity disk of exactly one of any `numDisks` consecutive stripes. -/
theorem bmap5_rotates (h : 2 ≤ r.numDisks) :
    (r.raid5type = .LS → ∀ b, (r.bmap5 b).map Prod.fst = .ok (b / r.chunkSize % r.numDisks)
        ∧ (r.bmap5 b).map Prod.fst = .ok (r.bmap0 b).1)
      ∧ (r.raid5type = .LS → ∀ b b', b / r.chunkSize < b' / r.chunkSize →
          b' / r.chunkSize < b / r.chunkSize + r.numDisks →
          (r.bmap5 b).map Prod.fst ≠ (r.bmap5 b').map Prod.fst)
      ∧ ∀ s d, d < r.numDisks → ∃! t, (s ≤ t ∧ t < s + r.numDisks) ∧ r.pmap5 t = .ok d := by
  have hdisk : r.raid5type = .LS → ∀ b, (r.bmap5 b).map Prod.fst = .ok (b / r.chunkSize % r.numDisks) := by
    intro hLS b
    rw [r.bmap5_eq_slot h, ← r.place5_eq_mod hLS h]
    rfl
  refine ⟨fun hLS b => ⟨hdisk hLS b, hdisk hLS b⟩, fun hLS b b' hlt hlt' heq => ?_, fun s d hd => ?_⟩
  · rw [hdisk hLS, hdisk hLS, Except.ok.injEq] at heq
    have hchunk := Nat.mod_injOn_Ico (b / r.chunkSize) r.numDisks
      (Finset.mem_coe.mpr (Finset.mem_Ico.mpr ⟨le_rfl, by omega⟩))
      (Finset.mem_coe.mpr (Finset.mem_Ico.mpr ⟨hlt.le, hlt'⟩)) heq
    omega
  · have hiff : ∀ t, r.pmap5 t = .ok d ↔ t % r.numDisks = r.numDisks - 1 - d := by
      intro t
      have ht := r.mod_numDisks_lt t
      rw [r.pmap5_eq_parity h, Except.ok.injEq]
      show r.numDisks - 1 - t % r.numDisks = d ↔ _
      omega
    simp only [hiff]
    exact existsUnique_mod_eq (by omega) s

/-- The rotation of the default configuration: stripes `5` to `8` have their parity on four disks. -/
theorem bmap5_rotates_defaults :
    (∀ b, ((defaults .five).bmap5 b).map Prod.fst = .ok (b / 1 % 4))
      ∧ ∀ d < 4, ∃! t, (5 ≤ t ∧ t < 9) ∧ (defaults .five).pmap5 t = .ok d := by
  obtain ⟨hdisk, -, hparity⟩ := (defaults .five).bmap5_rotates (by decide)
  exact ⟨fun b => (hdisk rfl b).1, hparity 5⟩

end Cs537.Raid
