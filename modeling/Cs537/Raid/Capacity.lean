import Cs537.Raid.Chunks
import Cs537.Raid.Split

/-!
# Requests at the end of the disks

The capacity of a disk need not be a multiple of the chunk size, so that the last stripe may be cut off in the
middle of its chunks. A write whose blocks all lie on the disks stays there with its parity. Its additive reads do,
too, when there are two or more data disks: a piece of the cut stripe is then too short for the additive method.
With one data disk they may not.
-/

namespace Cs537

/-- What a disk has served is on the disk. -/
theorem Disk.lt_of_enqueueAll {d d' : Disk} {offs : List ℕ} (h : d.enqueueAll offs = .ok d') :
    ∀ o ∈ offs, o < d.blocksPerDisk := by
  induction offs generalizing d with
  | nil => exact fun o ho => absurd ho List.not_mem_nil
  | cons addr offs ih =>
    obtain ⟨t, hfirst, hrest⟩ := Except.foldlM_cons_eq_ok.mp h
    obtain ⟨haddr, hsame, -⟩ := enqueue_eq_ok hfirst
    intro o ho
    rcases List.mem_cons.mp ho with rfl | ho
    · exact haddr
    · rw [← hsame]
      exact ih hrest o ho

/-- Accesses that are carried out stay within the capacity. -/
theorem lt_of_performAll {disks disks' : List Disk} {ios : List Access} {capacity : ℕ}
    (h : performAll disks ios = .ok disks') (hcap : ∀ d ∈ disks, d.blocksPerDisk = capacity) :
    ∀ io ∈ ios, io.slot.2 < capacity := by
  intro io hio
  obtain ⟨hlt, -, hdisk⟩ := performAll_eq_ok.mp h
  obtain ⟨d', -, henq⟩ := hdisk _ _ (List.getElem?_eq_getElem (hlt io hio))
  rw [← hcap _ (List.getElem_mem (hlt io hio))]
  refine Disk.lt_of_enqueueAll henq _ (Components.mem_opsAt.mpr ?_)
  exact List.mem_map_of_mem hio

/-- With one data disk, the row of a block is its number. -/
theorem Layout.row_eq_self {L : Layout} (h : L.width = 1) (b : ℕ) : L.row b = b := by
  rw [Layout.row, Layout.stripe, h, Nat.div_one, Nat.mul_comm]
  exact Nat.div_add_mod b L.chunk

namespace ParityAccess

variable (L : ParityLayout) {s b e : ℕ}

/-- The offsets of a call: rows of its piece, and with the additive method other rows of the stripe. -/
theorem offset_of_mem_call (hb : s * L.blocksInStripe ≤ b) (hbe : b ≤ e)
    (he : e ≤ s * L.blocksInStripe + L.blocksInStripe) {io : Access}
    (hio : io ∈ readsOf L s b e ++ writesOf L s b e) :
    (∃ v, b ≤ v ∧ v < e ∧ io.slot.2 = L.row v)
      ∨ (L.blocksInStripe ≤ 2 * (e - b) ∧ io.slot.2 < (s + 1) * L.chunk) := by
  have hstripe : ∀ v, s * L.blocksInStripe ≤ v → v < s * L.blocksInStripe + L.blocksInStripe →
      L.row v < (s + 1) * L.chunk := by
    intro v h1 h2
    have hbounds := (L.row_bounds v).2
    rwa [stripe_of_mem_piece L le_rfl le_rfl h1 h2] at hbounds
  have hpiece : ∀ op, io ∈ dataOf L op b e ++ parityOf L op s b e → ∃ v, b ≤ v ∧ v < e ∧ io.slot.2 = L.row v := by
    intro op hmem
    rcases List.mem_append.mp hmem with hmem | hmem
    · obtain ⟨v, h1, h2, rfl⟩ := (mem_dataOf L).mp hmem
      exact ⟨v, h1, h2, rfl⟩
    · obtain ⟨v, h1, h2, rfl⟩ := (mem_parityOf L).mp hmem
      exact ⟨v, h1, h2, rfl⟩
  rcases List.mem_append.mp hio with hread | hwrite
  · rw [readsOf] at hread
    split at hread
    · exact Or.inl (hpiece _ hread)
    · refine Or.inr ⟨by omega, ?_⟩
      rcases List.mem_append.mp hread with hmem | hmem
      · obtain ⟨v, h1, h2, rfl⟩ := (mem_dataOf L).mp hmem
        exact hstripe v h1 (by omega)
      · obtain ⟨v, h1, h2, rfl⟩ := (mem_dataOf L).mp hmem
        exact hstripe v (by omega) h2
  · exact Or.inl (hpiece _ hwrite)

/-- A piece that is at least a chunk long has a block in the last row of its stripe. -/
theorem last_row_of_chunk_le (hb : s * L.blocksInStripe ≤ b) (he : e ≤ s * L.blocksInStripe + L.blocksInStripe)
    (hlen : L.chunk ≤ e - b) : ∃ v, b ≤ v ∧ v < e ∧ L.row v + 1 = (s + 1) * L.chunk := by
  have hpos := L.chunk_pos
  obtain ⟨v, ⟨⟨h1, h2⟩, hmod⟩, -⟩ := Raid.existsUnique_mod_eq (Nat.sub_one_lt hpos.ne') b
  refine ⟨v, h1, by omega, ?_⟩
  rw [Layout.row, stripe_of_mem_piece L hb he h1 (by omega), hmod, Nat.succ_mul]
  omega

end ParityAccess

namespace Raid

variable {r : Raid} {addr size capacity : ℕ}

/-- With a single data disk, the stripe of the last block goes beyond the capacity and at least half of its blocks
are written: then the additive method reads behind the end. -/
def ReadsBehindEnd (r : Raid) (addr size capacity : ℕ) : Prop :=
  r.numDisks = 2 ∧ capacity < ((addr + size - 1) / r.chunkSize + 1) * r.chunkSize
    ∧ r.chunkSize ≤ 2 * (addr + size - max addr ((addr + size - 1) / r.chunkSize * r.chunkSize))

instance (addr size capacity : ℕ) : Decidable (r.ReadsBehindEnd addr size capacity) :=
  inferInstanceAs (Decidable (_ ∧ _))

section

variable (hr : r.HasParity) (hsize : 1 ≤ size)
  (hfits : ∀ b, addr ≤ b → b < addr + size → (r.parityLayout hr).row b < capacity)

/-- With one data disk, blocks and rows have the same numbers. -/
theorem row_eq_self (htwo : r.numDisks = 2) (b : ℕ) : (r.parityLayout hr).row b = b := by
  refine Layout.row_eq_self ?_ b
  have hB : (r.parityLayout hr).width * (r.parityLayout hr).chunk = r.blocksInStripe :=
    parityLayout_blocksInStripe hr
  rw [parityLayout_chunk, blocksInStripe, htwo] at hB
  exact Nat.eq_of_mul_eq_mul_right r.chunkSize_pos hB

include hsize hfits

/-- A stripe in which the additive method is taken is not cut off, except behind the end. -/
theorem stripe_fits_of_additive (hnot : ¬ r.ReadsBehindEnd addr size capacity) {s : ℕ}
    (hs : s ∈ r.stripes addr size)
    (hadd : r.blocksInStripe ≤ 2 * ((r.piece addr size s).2.2 - (r.piece addr size s).2.1)) :
    (s + 1) * r.chunkSize ≤ capacity := by
  obtain ⟨hlo, hlt, hhi, ha, hz⟩ := mem_piece hr hsize hs
  have hB : r.blocksInStripe = (r.numDisks - 1) * r.chunkSize := rfl
  rcases Nat.lt_or_ge 2 r.numDisks with hwide | hnarrow
  · -- half a stripe is a chunk at least, so that the piece has a block in the last row
    have htwo : 2 * r.chunkSize ≤ (r.numDisks - 1) * r.chunkSize := Nat.mul_le_mul_right _ (by omega)
    have hchunk := parityLayout_chunk hr
    rw [← parityLayout_blocksInStripe hr] at hlo hhi
    obtain ⟨v, h1, h2, hv⟩ := ParityAccess.last_row_of_chunk_le _ hlo hhi (by omega)
    have hrow := hfits v (by omega) (by omega)
    rw [hchunk] at hv
    omega
  · -- with one data disk a stripe is a chunk, and rows are blocks
    have htwo : r.numDisks = 2 := le_antisymm hnarrow hr.two_le
    have hone : r.blocksInStripe = r.chunkSize := by
      rw [hB, htwo]
      exact Nat.one_mul _
    have hlast := hfits (addr + size - 1) (by omega) (by omega)
    rw [row_eq_self hr htwo] at hlast
    obtain ⟨hfirst, hmem⟩ := List.mem_range'_1.mp hs
    rw [hone] at hfirst hmem hadd
    by_cases hend : s = (addr + size - 1) / r.chunkSize
    · -- the stripe of the last block
      by_contra hcut
      refine hnot ⟨htwo, ?_, ?_⟩
      · rw [← hend]
        exact not_le.mp hcut
      · have hbegin : (r.piece addr size s).2.1 = max addr (s * r.chunkSize) := by
          rw [← hone]
          rfl
        rw [← hend]
        omega
    · -- a stripe before it
      have hle : (s + 1) * r.chunkSize ≤ (addr + size - 1) / r.chunkSize * r.chunkSize :=
        Nat.mul_le_mul_right _ (by omega)
      exact (hle.trans (Nat.div_mul_le_self _ _)).trans hlast.le

/-- A write that does not read behind the end fits when its own blocks do. -/
theorem fits_of_not_readsBehindEnd (hnot : ¬ r.ReadsBehindEnd addr size capacity) {ios : List Access}
    (hios : r.enqueue45 ⟨addr, size, true⟩ = .ok ios) : ∀ io ∈ ios, io.slot.2 < capacity := by
  rw [enqueue45_write_stripes hr hsize] at hios
  cases hios
  intro io hio
  obtain ⟨s, hs, hio⟩ := List.mem_flatMap.mp hio
  obtain ⟨hlo, hlt, hhi, ha, hz⟩ := mem_piece hr hsize hs
  have hB := parityLayout_blocksInStripe hr
  rw [← hB] at hlo hhi
  rcases ParityAccess.offset_of_mem_call _ hlo hlt.le hhi hio with ⟨v, h1, h2, hv⟩ | ⟨hadd, hrow⟩
  · rw [hv]
    exact hfits v (by omega) (by omega)
  · rw [hB] at hadd
    rw [parityLayout_chunk] at hrow
    exact hrow.trans_le (stripe_fits_of_additive hr hsize hfits hnot hs hadd)

/-- Behind the end, the last block of the stripe is read. -/
theorem exists_behind_end (hreads : r.ReadsBehindEnd addr size capacity) {ios : List Access}
    (hios : r.enqueue45 ⟨addr, size, true⟩ = .ok ios) : ∃ io ∈ ios, capacity ≤ io.slot.2 := by
  obtain ⟨htwo, hcut, hlen⟩ := hreads
  have hone : r.blocksInStripe = r.chunkSize := by
    rw [blocksInStripe, htwo]
    exact Nat.one_mul _
  have hlast := hfits (addr + size - 1) (by omega) (by omega)
  rw [row_eq_self hr htwo] at hlast
  have hs : (addr + size - 1) / r.chunkSize ∈ r.stripes addr size := by
    have hle : addr / r.chunkSize ≤ (addr + size - 1) / r.chunkSize := Nat.div_le_div_right (by omega)
    rw [stripes, hone, List.mem_range'_1]
    omega
  set s := (addr + size - 1) / r.chunkSize with hsdef
  have hbounds : addr + size - 1 < s * r.chunkSize + r.chunkSize := Nat.lt_div_mul_add r.chunkSize_pos
  rw [Nat.succ_mul] at hcut
  rw [enqueue45_write_stripes hr hsize] at hios
  cases hios
  have hpiece : r.piece addr size s = (s, max addr (s * r.chunkSize), addr + size) := by
    rw [piece, hone, Nat.min_eq_left (by omega)]
  -- more than half of the cut-off stripe is written, so that the rest is read, its last block included
  have hmem : Access.data .read (s * r.chunkSize + r.chunkSize - 1)
      ((r.parityLayout hr).slot (s * r.chunkSize + r.chunkSize - 1))
      ∈ ParityAccess.readsOf (r.parityLayout hr) s (r.piece addr size s).2.1 (r.piece addr size s).2.2 := by
    rw [hpiece]
    dsimp only
    rw [ParityAccess.readsOf, parityLayout_blocksInStripe hr, hone, if_neg (by omega)]
    exact List.mem_append_right _ ((ParityAccess.mem_dataOf _).mpr ⟨_, by omega, by omega, rfl⟩)
  refine ⟨_, List.mem_flatMap.mpr ⟨s, hs, List.mem_append_left _ hmem⟩, ?_⟩
  show capacity ≤ (r.parityLayout hr).row _
  rw [row_eq_self hr htwo]
  omega

end

/-- **Parity accesses stay on the disks** for a write whose own blocks do, exactly when it does not read behind the
end; then and only then is it carried out. -/
theorem parity_fits_iff (hr : r.HasParity) (hsize : 1 ≤ size)
    (hfits : ∀ b d o, addr ≤ b → b < addr + size → r.bmap b = .ok (d, o) → o < capacity) :
    ((∃ ios, r.enqueue45 ⟨addr, size, true⟩ = .ok ios ∧ ∀ io ∈ ios, io.slot.2 < capacity)
        ↔ ¬ r.ReadsBehindEnd addr size capacity)
      ∧ ∀ disks : List Disk, disks.length = r.numDisks → (∀ d ∈ disks, d.blocksPerDisk = capacity) →
        ((∃ disks', r.serve disks ⟨addr, size, true⟩ = .ok disks') ↔ ¬ r.ReadsBehindEnd addr size capacity) := by
  have hrows : ∀ b, addr ≤ b → b < addr + size → (r.parityLayout hr).row b < capacity := fun b h1 h2 =>
    hfits b _ _ h1 h2 (bmap_eq_slot hr b)
  obtain ⟨ios, hios⟩ : ∃ ios, r.enqueue45 ⟨addr, size, true⟩ = .ok ios := ⟨_, enqueue45_write hr _ rfl⟩
  have hiff : (∀ io ∈ ios, io.slot.2 < capacity) ↔ ¬ r.ReadsBehindEnd addr size capacity := by
    refine ⟨fun hall hreads => ?_, fun hnot => fits_of_not_readsBehindEnd hr hsize hrows hnot hios⟩
    obtain ⟨io, hio, hge⟩ := exists_behind_end hr hsize hrows hreads hios
    exact absurd (hall io hio) (not_lt.mpr hge)
  refine ⟨⟨?_, fun hnot => ⟨ios, hios, hiff.mpr hnot⟩⟩, fun disks hlen hcap => ?_⟩
  · rintro ⟨ios', hios', hall⟩
    cases hios.symm.trans hios'
    exact hiff.mp hall
  · have hserve : r.serve disks ⟨addr, size, true⟩ = performAll disks ios := by
      rw [serve, enqueue_eq_enqueue45 hr, hios]
      rfl
    rw [hserve, ← hiff]
    constructor
    · rintro ⟨disks', hrun⟩
      exact lt_of_performAll hrun hcap
    · intro hall
      refine exists_performAll_enqueue45 hr hios hlen fun io hio d hd => ?_
      rw [hcap d hd]
      exact hall io hio

/-- RAID 4 with one data disk and chunks of six blocks. -/
def sixBlockChunks : Raid where
  chunkSize := 6
  numDisks := 2
  raidLevel := .four
  raid5type := .LS
  chunkSize_pos := by decide
  numDisks_pos := by decide
  even_of_mirrored := by decide
  two_le _ := by decide

/-- A single block at the end is written by the subtractive method. -/
theorem parity_fits_iff_sixBlockChunks :
    ∃ disks', sixBlockChunks.serve (List.replicate 2 Disk.fresh) ⟨9999, 1, true⟩ = .ok disks' := by
  have hfits : ∀ b d o, 9999 ≤ b → b < 9999 + 1 → sixBlockChunks.bmap b = .ok (d, o) → o < 10000 := by
    rintro b d o h1 h2 hslot
    obtain rfl : b = 9999 := by omega
    cases hslot
    decide
  refine ((parity_fits_iff (Or.inl rfl) le_rfl hfits).2 _ List.length_replicate fun d hd => ?_).mpr (by decide)
  rw [List.eq_of_mem_replicate hd, Disk.fresh, Disk.blocksPerDisk_init]

/-- The last four blocks are the first four of a stripe of six. They fit on the disk, and the additive method reads
the other two. -/
theorem not_parity_fits_lastBlocks :
    sixBlockChunks.HasParity
      ∧ (∀ b ∈ List.range' 9996 4, ((sixBlockChunks.bmap b).toOption.any fun slot => slot.2 < 10000) = true)
      ∧ ¬ ∃ disks', sixBlockChunks.serve (List.replicate 2 Disk.fresh) ⟨9996, 4, true⟩ = .ok disks' := by
  refine ⟨Or.inl rfl, by decide, ?_⟩
  rintro ⟨disks', hserve⟩
  have hfail : (sixBlockChunks.serve (List.replicate 2 Disk.fresh) ⟨9996, 4, true⟩).toOption.isNone = true := by
    decide +kernel
  rw [hserve] at hfail
  cases hfail

end Raid

end Cs537
