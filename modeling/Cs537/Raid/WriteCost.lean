import Mathlib.Algebra.BigOperators.Group.List.Basic
import Mathlib.Order.Interval.Finset.Nat
import Cs537.Raid.Pieces

/-!
# The cost of a write

A piece of `n` blocks of one stripe lies in `min n chunkSize` rows, wherever it starts. That gives the number of
reads and writes of one call of `doPartialWrite`, compares the two parity methods, and sums up to the cost of a
request.
-/

namespace Cs537

/-- The reads among the accesses. -/
def readCount (ios : List Access) : ℕ := ios.countP fun io => io.op = .read

/-- The reads, or the writes, of the disk `d`. -/
def diskCount (op : Op) (d : ℕ) (ios : List Access) : ℕ := ios.countP fun io => io.op = op ∧ io.slot.1 = d

/-! ## The rows of a piece -/

/-- `n` consecutive numbers have `min n c` remainders modulo `c`. -/
theorem card_image_Ico_mod (b n : ℕ) {c : ℕ} (hc : 0 < c) :
    ((Finset.Ico b (b + n)).image (· % c)).card = min n c := by
  rcases Nat.le_total n c with hn | hn
  · have hinj : Set.InjOn (· % c) (Finset.Ico b (b + n) : Set ℕ) :=
      (Nat.mod_injOn_Ico b c).mono (Finset.coe_subset.mpr (Finset.Ico_subset_Ico_right (by omega)))
    rw [Finset.card_image_of_injOn hinj, Nat.card_Ico]
    omega
  · have hge : Finset.range c ⊆ (Finset.Ico b (b + n)).image (· % c) := by
      rw [← Nat.image_Ico_mod b c]
      exact Finset.image_subset_image (Finset.Ico_subset_Ico_right (by omega))
    have hle : (Finset.Ico b (b + n)).image (· % c) ⊆ Finset.range c := by
      intro k hk
      obtain ⟨v, -, rfl⟩ := Finset.mem_image.mp hk
      exact Finset.mem_range.mpr (Nat.mod_lt v hc)
    rw [hle.antisymm hge, Finset.card_range]
    omega

namespace ParityAccess

variable (L : ParityLayout) {op op' : Op} {s b e : ℕ}

/-- Every block is accessed once. -/
theorem length_dataOf : (dataOf L op b e).length = e - b := by
  rw [dataOf, List.length_map, List.length_range']

/-- The parity of every row is accessed once. -/
theorem length_parityOf : (parityOf L op s b e).length = (rowsOf L b e).length := List.length_map _

/-- The test of the subtractive method, as a bound on the piece. -/
theorem subtractive_iff :
    (e - b) + 1 ≤ L.blocksInStripe - (e - b) ↔ 2 * (e - b) + 1 ≤ L.blocksInStripe := by
  omega

section

variable (hb : s * L.blocksInStripe ≤ b) (he : e ≤ s * L.blocksInStripe + L.blocksInStripe)
include hb he

/-- **The rows of a piece.** -/
theorem length_rowsOf (hbe : b ≤ e) : (rowsOf L b e).length = min (e - b) L.chunk := by
  -- inside a stripe the row of a block is its place in the chunk
  have hset : (rowsOf L b e).toFinset
      = ((Finset.Ico b (b + (e - b))).image (· % L.chunk)).image (s * L.chunk + ·) := by
    ext o
    rw [List.mem_toFinset, mem_rowsOf, Finset.image_image, Finset.mem_image]
    refine exists_congr fun v => ?_
    rw [Finset.mem_Ico, and_assoc]
    refine and_congr_right fun h1 => ⟨fun ⟨h2, hrow⟩ => ⟨by omega, ?_⟩, fun ⟨h2, hrow⟩ => ⟨by omega, ?_⟩⟩
    · rw [← hrow, Layout.row, stripe_of_mem_piece L hb he h1 h2]
      rfl
    · rw [← hrow, Layout.row, stripe_of_mem_piece L hb he h1 (by omega)]
      rfl
  have hnodup : (rowsOf L b e).Nodup := nodup_offListOf _
  rw [← List.toFinset_card_of_nodup hnodup, hset, Finset.card_image_of_injective _ (add_right_injective _),
    card_image_Ico_mod _ _ L.chunk_pos]

/-- The number of reads of a call: the cheaper way is taken. -/
theorem length_readsOf (hbe : b ≤ e) :
    (readsOf L s b e).length
      = if 2 * (e - b) + 1 ≤ L.blocksInStripe then (e - b) + min (e - b) L.chunk
        else L.blocksInStripe - (e - b) := by
  rw [readsOf]
  simp only [subtractive_iff]
  split
  · rw [List.length_append, length_dataOf, length_parityOf, length_rowsOf L hb he hbe]
  · rw [List.length_append, length_dataOf, length_dataOf]
    omega

/-- The number of writes of a call. -/
theorem length_writesOf (hbe : b ≤ e) :
    (writesOf L s b e).length = (e - b) + min (e - b) L.chunk := by
  rw [writesOf, List.length_append, length_dataOf, length_parityOf, length_rowsOf L hb he hbe]

/-- No data of the stripe is on its parity disk. -/
theorem diskCount_dataOf : diskCount op' (L.parity s) (dataOf L op b e) = 0 := by
  rw [diskCount, List.countP_eq_zero]
  intro io hio
  obtain ⟨v, h1, h2, rfl⟩ := (mem_dataOf L).mp hio
  have hdisk : (L.slot v).1 ≠ L.parity s := by
    rw [L.slot_fst, stripe_of_mem_piece L hb he h1 h2]
    exact L.place_ne_parity _ _ (L.col_lt v)
  rw [decide_eq_true_eq]
  exact fun h => hdisk h.2

end

/-- The accesses of a call to the parity disk. -/
theorem diskCount_parityOf :
    diskCount op' (L.parity s) (parityOf L op s b e) = if op = op' then (rowsOf L b e).length else 0 := by
  rw [diskCount, parityOf, List.countP_map]
  split
  · rename_i hop
    rw [List.countP_eq_length]
    intro o _
    simp [Access.parity, hop]
  · rename_i hop
    rw [List.countP_eq_zero]
    intro o _
    simp [Access.parity, hop]

theorem diskCount_append (d : ℕ) (ios ios' : List Access) :
    diskCount op d (ios ++ ios') = diskCount op d ios + diskCount op d ios' := List.countP_append

section

variable (hb : s * L.blocksInStripe ≤ b) (he : e ≤ s * L.blocksInStripe + L.blocksInStripe)
include hb he

/-- The parity disk is read by the subtractive method only. -/
theorem diskCount_readsOf (hbe : b ≤ e) :
    diskCount op (L.parity s) (readsOf L s b e)
      = if op = .read ∧ 2 * (e - b) + 1 ≤ L.blocksInStripe then min (e - b) L.chunk else 0 := by
  rw [readsOf]
  simp only [subtractive_iff]
  split
  · rename_i hsub
    rw [diskCount_append, diskCount_dataOf L hb he, diskCount_parityOf, length_rowsOf L hb he hbe, Nat.zero_add]
    simp only [hsub, and_true, eq_comm]
  · rename_i hsub
    rw [diskCount_append, diskCount_dataOf L le_rfl (by omega), diskCount_dataOf L (by omega) le_rfl,
      if_neg fun h => hsub h.2]

/-- The writes of a call to the parity disk. -/
theorem diskCount_writesOf (hbe : b ≤ e) :
    diskCount op (L.parity s) (writesOf L s b e) = if op = .write then min (e - b) L.chunk else 0 := by
  rw [writesOf, diskCount_append, diskCount_dataOf L hb he, diskCount_parityOf, length_rowsOf L hb he hbe,
    Nat.zero_add]
  simp only [eq_comm]

end

theorem readCount_readsOf : readCount (readsOf L s b e) = (readsOf L s b e).length := by
  rw [readCount, List.countP_eq_length]
  intro io hio
  simp [op_of_mem_readsOf L hio]

theorem readCount_writesOf : readCount (writesOf L s b e) = 0 := by
  rw [readCount, List.countP_eq_zero]
  intro io hio
  simp [op_of_mem_writesOf L hio]

/-- The reads of a call are its first part. -/
theorem readCount_call :
    readCount (readsOf L s b e ++ writesOf L s b e) = (readsOf L s b e).length := by
  have hsum : readCount (readsOf L s b e ++ writesOf L s b e)
      = readCount (readsOf L s b e) + readCount (writesOf L s b e) := List.countP_append
  rw [hsum, readCount_readsOf, readCount_writesOf, Nat.add_zero]

/-- The reads that a call would make by the method that it does not take. -/
def otherReads (s b e : ℕ) : List Access :=
  if (e - b) + 1 ≤ L.blocksInStripe - (e - b) then
    dataOf L .read (s * L.blocksInStripe) b ++ dataOf L .read e (s * L.blocksInStripe + L.blocksInStripe)
  else dataOf L .read b e ++ parityOf L .read s b e

/-- The method that is taken reads no more than the other one, but for a gap between the test and the cost of
the parity reads. -/
theorem readCount_le_iff (hb : s * L.blocksInStripe ≤ b) (hbe : b < e)
    (he : e ≤ s * L.blocksInStripe + L.blocksInStripe) :
    readCount (readsOf L s b e ++ writesOf L s b e) ≤ (otherReads L s b e).length
      ↔ ¬ (2 * (e - b) + 1 ≤ L.blocksInStripe ∧ L.blocksInStripe < 2 * (e - b) + min (e - b) L.chunk) := by
  rw [readCount_call, length_readsOf L hb he hbe.le, otherReads]
  simp only [subtractive_iff]
  split
  · rename_i hsub
    rw [List.length_append, length_dataOf, length_dataOf]
    omega
  · rename_i hsub
    rw [List.length_append, length_dataOf, length_parityOf]
    omega

end ParityAccess

/-! ## The choice of the method -/

namespace Raid

variable {r : Raid} {s b e : ℕ}

/-- The reads of the subtractive method. -/
def subtractiveReads (r : Raid) (stripe begin_ end_ : ℕ) : Except PyError (List Access) := do
  let pdisk ← r.pmap stripe
  r.dataAndParity .read pdisk begin_ end_

/-- `doPartialWrite` reads no more than it would by the method that it does not take. -/
def PicksCheaper (r : Raid) (s b e : ℕ) : Prop :=
  ∃ ios other, r.doPartialWrite s b e = .ok ios
    ∧ (if r.Subtractive b e then r.additiveReads s b e else r.subtractiveReads s b e) = .ok other
    ∧ readCount ios ≤ other.length

/-- Subtractive parity reads what is overwritten, and its parity. -/
theorem subtractiveReads_eq (hr : r.HasParity) :
    r.subtractiveReads s b e = .ok (ParityAccess.dataOf (r.parityLayout hr) .read b e
      ++ ParityAccess.parityOf (r.parityLayout hr) .read s b e) := by
  rw [subtractiveReads, pmap_eq_parity hr]
  exact dataAndParity_eq hr .read s b e

/-- **The choice of `doPartialWrite`** is the cheaper one unless the number of written blocks falls between what
the test allows and what the parity reads of the subtractive method cost. -/
theorem picksCheaper_iff (hr : r.HasParity) (hb : s * r.blocksInStripe ≤ b) (hbe : b < e)
    (he : e ≤ s * r.blocksInStripe + r.blocksInStripe) :
    r.PicksCheaper s b e ↔ ¬ (2 * (e - b) + 1 ≤ r.blocksInStripe
      ∧ r.blocksInStripe < 2 * (e - b) + min (e - b) r.chunkSize) := by
  have hother : (if r.Subtractive b e then r.additiveReads s b e else r.subtractiveReads s b e)
      = .ok (ParityAccess.otherReads (r.parityLayout hr) s b e) := by
    rw [additiveReads_eq hr, subtractiveReads_eq hr, ParityAccess.otherReads, parityLayout_blocksInStripe hr]
    exact (apply_ite Except.ok _ _ _).symm
  -- both methods succeed, so that these are the two lists to compare
  have hle : r.PicksCheaper s b e
      ↔ readCount (ParityAccess.readsOf (r.parityLayout hr) s b e
          ++ ParityAccess.writesOf (r.parityLayout hr) s b e)
        ≤ (ParityAccess.otherReads (r.parityLayout hr) s b e).length := by
    unfold PicksCheaper
    rw [doPartialWrite_eq hr, hother]
    exact ⟨fun ⟨_, _, hios, hother, hle⟩ => by cases hios; cases hother; exact hle,
      fun hle => ⟨_, _, rfl, rfl, hle⟩⟩
  rw [← parityLayout_blocksInStripe hr] at hb he
  rw [hle, ParityAccess.readCount_le_iff _ hb hbe he, parityLayout_blocksInStripe hr, parityLayout_chunk]

/-- RAID 4 with three disks and chunks of four blocks. -/
def wideChunks : Raid where
  chunkSize := 4
  numDisks := 3
  raidLevel := .four
  raid5type := .LS
  chunkSize_pos := Nat.succ_pos 3
  numDisks_pos := by decide
  even_of_mirrored := by decide
  two_le _ := by decide

/-- Two blocks are written by the subtractive method, with four reads instead of six. -/
theorem picksCheaper_iff_twoBlocks : wideChunks.PicksCheaper 0 0 2 :=
  (picksCheaper_iff (r := wideChunks) (s := 0) (Or.inl rfl) (by decide) (by decide) (by decide)).mpr (by decide)

/-- A write of three blocks at address `0` is one piece of a stripe of eight. It reads three data blocks and three
parity blocks, where the additive method reads the five other blocks. -/
theorem not_picksCheaper_threeBlocks :
    wideChunks.HasParity ∧ wideChunks.blocksInStripe = 8 ∧ wideChunks.pieces 0 3 = [(0, 0, 3)]
      ∧ ¬ wideChunks.PicksCheaper 0 0 3 := by
  refine ⟨Or.inl rfl, rfl, by decide, ?_⟩
  rintro ⟨ios, other, hios, hother, hle⟩
  have hsix : (wideChunks.doPartialWrite 0 0 3).toOption.map readCount = some 6 := by decide
  have hfive : (wideChunks.additiveReads 0 0 3).toOption.map List.length = some 5 := by decide
  rw [if_pos (by decide)] at hother
  rw [hios] at hsix
  rw [hother] at hfive
  have h6 : readCount ios = 6 := Option.some.inj hsix
  have h5 : other.length = 5 := Option.some.inj hfive
  omega

/-! ## The cost of a request -/

variable {addr size : ℕ}

/-- The blocks of the request in stripe `s`. -/
def blocksIn (r : Raid) (addr size s : ℕ) : ℕ :=
  min (addr + size) (s * r.blocksInStripe + r.blocksInStripe) - max addr (s * r.blocksInStripe)

/-- The accesses for `n` blocks written in one stripe. -/
def stripeCost (r : Raid) (n : ℕ) : ℕ :=
  if 2 * n + 1 ≤ r.blocksInStripe then 2 * (n + min n r.chunkSize) else r.blocksInStripe + min n r.chunkSize

/-- The reads among them. -/
def stripeReads (r : Raid) (n : ℕ) : ℕ :=
  if 2 * n + 1 ≤ r.blocksInStripe then n + min n r.chunkSize else r.blocksInStripe - n

/-- What a call for `n` blocks of stripe `s` costs, in all and on the parity disk. -/
structure Costs (r : Raid) (s n : ℕ) (ios : List Access) : Prop where
  length_eq : ios.length = r.stripeCost n
  readCount_eq : readCount ios = r.stripeReads n
  parity : ∃ p, r.pmap s = .ok p
    ∧ diskCount .read p ios = (if 2 * n + 1 ≤ r.blocksInStripe then min n r.chunkSize else 0)
    ∧ diskCount .write p ios = min n r.chunkSize

/-- **The cost of a call.** -/
theorem costs_call (hr : r.HasParity) (hb : s * r.blocksInStripe ≤ b) (hbe : b < e)
    (he : e ≤ s * r.blocksInStripe + r.blocksInStripe) :
    Costs r s (e - b) (ParityAccess.readsOf (r.parityLayout hr) s b e
      ++ ParityAccess.writesOf (r.parityLayout hr) s b e) := by
  have hn : e - b ≤ r.blocksInStripe := by omega
  rw [← parityLayout_blocksInStripe hr] at hb he
  have hreads := ParityAccess.length_readsOf _ hb he hbe.le
  have hwrites := ParityAccess.length_writesOf _ hb he hbe.le
  have hparity := fun op => @ParityAccess.diskCount_readsOf (r.parityLayout hr) op s b e hb he hbe.le
  have hparity' := fun op => @ParityAccess.diskCount_writesOf (r.parityLayout hr) op s b e hb he hbe.le
  simp only [parityLayout_blocksInStripe hr, parityLayout_chunk] at hreads hwrites hparity hparity'
  refine ⟨?_, ?_, _, pmap_eq_parity hr s, ?_, ?_⟩
  · rw [List.length_append, hreads, hwrites, stripeCost]
    split <;> omega
  · rw [ParityAccess.readCount_call, hreads, stripeReads]
  · rw [ParityAccess.diskCount_append, hparity, hparity']
    simp
  · rw [ParityAccess.diskCount_append, hparity, hparity']
    simp

/-- **The cost of a write**: it is the sum over the stripes of the request of what their blocks cost. -/
theorem write_cost (hr : r.HasParity) (hsize : 1 ≤ size) :
    ∃ calls : ℕ → List Access,
      r.enqueue45 ⟨addr, size, true⟩ = .ok ((r.stripes addr size).flatMap calls)
      ∧ (∀ s ∈ r.stripes addr size,
          (1 ≤ r.blocksIn addr size s ∧ r.blocksIn addr size s ≤ r.blocksInStripe)
          ∧ r.doPartialWrite s (r.piece addr size s).2.1 (r.piece addr size s).2.2 = .ok (calls s)
          ∧ Costs r s (r.blocksIn addr size s) (calls s))
      ∧ ∀ disks : List Disk, disks.length = r.numDisks →
          (∀ io ∈ (r.stripes addr size).flatMap calls, ∀ d ∈ disks, io.slot.2 < d.blocksPerDisk) →
          ∃ disks', performAll disks ((r.stripes addr size).flatMap calls) = .ok disks'
            ∧ (disks'.map Disk.countIO).sum = (disks.map Disk.countIO).sum
              + ((r.stripes addr size).map fun s => r.stripeCost (r.blocksIn addr size s)).sum := by
  have hios := @enqueue45_write_stripes r addr size hr hsize
  have hcosts : ∀ s ∈ r.stripes addr size,
      (1 ≤ r.blocksIn addr size s ∧ r.blocksIn addr size s ≤ r.blocksInStripe)
        ∧ Costs r s (r.blocksIn addr size s)
          (ParityAccess.readsOf (r.parityLayout hr) s (r.piece addr size s).2.1 (r.piece addr size s).2.2
            ++ ParityAccess.writesOf (r.parityLayout hr) s (r.piece addr size s).2.1
              (r.piece addr size s).2.2) := by
    intro s hs
    obtain ⟨hlo, hlt, hhi, -, -⟩ := mem_piece hr hsize hs
    refine ⟨?_, costs_call hr hlo hlt hhi⟩
    have hn : r.blocksIn addr size s = (r.piece addr size s).2.2 - (r.piece addr size s).2.1 := rfl
    omega
  refine ⟨_, hios, fun s hs => ⟨(hcosts s hs).1, doPartialWrite_eq hr _ _ _, (hcosts s hs).2⟩,
    fun disks hlen hcap => ?_⟩
  obtain ⟨disks', hrun⟩ := exists_performAll_enqueue45 hr hios hlen hcap
  refine ⟨disks', hrun, ?_⟩
  -- every access is charged to one disk, once
  rw [countIO_performAll hrun, List.length_flatMap]
  congr 2
  exact List.map_congr_left fun s hs => (hcosts s hs).2.length_eq

/-- Seven blocks from block `4` on, over three stripes of the default RAID 5: four accesses each. -/
theorem write_cost_defaults :
    ∃ ios disks', (defaults .five).enqueue45 ⟨4, 7, true⟩ = .ok ios
      ∧ performAll (List.replicate 4 Disk.fresh) ios = .ok disks' ∧ (disks'.map Disk.countIO).sum = 12 := by
  obtain ⟨calls, hios, -, htotal⟩ :=
    @write_cost (defaults .five) 4 7 (Or.inr rfl) (by decide)
  have hbound : ((defaults .five).enqueue45 ⟨4, 7, true⟩).toOption.any
      (fun ios => ∀ io ∈ ios, io.slot.2 < 10000) = true := by decide
  rw [hios] at hbound
  obtain ⟨disks', hrun, hsum⟩ := htotal (List.replicate 4 Disk.fresh) rfl fun io hio d hd => by
    rw [List.eq_of_mem_replicate hd, Disk.fresh, Disk.blocksPerDisk_init]
    exact of_decide_eq_true hbound io hio
  exact ⟨_, disks', hios, hrun, hsum.trans (by decide)⟩

end Raid

end Cs537
