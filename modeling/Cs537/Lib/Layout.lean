import Mathlib.Algebra.BigOperators.Intervals
import Mathlib.Data.Nat.ModEq

/-!
# Block layouts over an array of disks

A layout places the logical blocks `0, 1, 2, …` of a flat address space on the slots `(disk, row)` of
an array. Blocks are grouped into chunks of `chunk` consecutive blocks, chunks into stripes of `width`
chunks, and `place s k` names the disk that holds the `k`-th chunk of stripe `s`.

A parity layout has one more disk than data columns and gives every stripe one disk that holds no
data. Nothing else is assumed about `place` and `parity`: whether the parity stays on one disk or
rotates, the slots of the array are tiled by the blocks and the parity slots.
-/

/-- A placement of logical blocks on slots: `place s k` is the disk of the `k`-th chunk of stripe
`s`, and two chunks of one stripe never share a disk. -/
structure Layout where
  width : ℕ
  chunk : ℕ
  disks : ℕ
  place : ℕ → ℕ → ℕ
  width_pos : 0 < width
  chunk_pos : 0 < chunk
  place_lt : ∀ s k, k < width → place s k < disks
  place_inj : ∀ s k k', k < width → k' < width → place s k = place s k' → k = k'

namespace Layout

variable (L : Layout)

/-- The number of logical blocks in a stripe. -/
def blocksInStripe : ℕ := L.width * L.chunk

/-- The stripe that holds block `b`. -/
def stripe (b : ℕ) : ℕ := b / L.chunk / L.width

/-- The column of block `b`: the position of its chunk inside its stripe. -/
def col (b : ℕ) : ℕ := b / L.chunk % L.width

/-- The row of block `b`, the same on every disk of its stripe. -/
def row (b : ℕ) : ℕ := L.stripe b * L.chunk + b % L.chunk

/-- The slot `(disk, row)` of block `b`. -/
def slot (b : ℕ) : ℕ × ℕ := (L.place (L.stripe b) (L.col b), L.row b)

/-- The block in column `k` of row `o`. -/
def blockAt (o k : ℕ) : ℕ := (o / L.chunk * L.width + k) * L.chunk + o % L.chunk

/-! ## Coordinates -/

theorem blocksInStripe_pos : 0 < L.blocksInStripe := Nat.mul_pos L.width_pos L.chunk_pos

theorem col_lt (b : ℕ) : L.col b < L.width := Nat.mod_lt _ L.width_pos

/-- The disk of a block is that of its column. -/
@[simp] theorem slot_fst (b : ℕ) : (L.slot b).1 = L.place (L.stripe b) (L.col b) := rfl

@[simp] theorem slot_snd (b : ℕ) : (L.slot b).2 = L.row b := rfl

theorem stripe_eq_div (b : ℕ) : L.stripe b = b / L.blocksInStripe := by
  rw [stripe, blocksInStripe, Nat.div_div_eq_div_mul, Nat.mul_comm]

/-- The rows of a stripe make up one chunk on every disk. -/
theorem row_div (b : ℕ) : L.row b / L.chunk = L.stripe b := by
  rw [row, Nat.mul_comm, Nat.mul_add_div L.chunk_pos, Nat.div_eq_of_lt (Nat.mod_lt _ L.chunk_pos),
    Nat.add_zero]

theorem row_mod (b : ℕ) : L.row b % L.chunk = b % L.chunk := by
  rw [row, Nat.mul_comm, Nat.mul_add_mod, Nat.mod_mod]

/-- The row of a block lies in the band of `chunk` rows of its stripe. -/
theorem row_bounds (b : ℕ) :
    L.stripe b * L.chunk ≤ L.row b ∧ L.row b < (L.stripe b + 1) * L.chunk := by
  have hmod := Nat.mod_lt b L.chunk_pos
  rw [row, Nat.succ_mul]
  omega

/-- Whole bands of rows hold whole stripes. -/
theorem row_lt_mul_chunk_iff {b k : ℕ} : L.row b < k * L.chunk ↔ b < k * L.blocksInStripe := by
  rw [← Nat.div_lt_iff_lt_mul L.chunk_pos, row_div, stripe_eq_div, Nat.div_lt_iff_lt_mul L.blocksInStripe_pos]

/-- The blocks of stripe `s` are the interval `[s * B, (s + 1) * B)`. -/
theorem stripe_eq_iff (b s : ℕ) :
    L.stripe b = s ↔ s * L.blocksInStripe ≤ b ∧ b < (s + 1) * L.blocksInStripe := by
  rw [stripe_eq_div, Nat.div_eq_iff L.blocksInStripe_pos, Nat.succ_mul]
  have := L.blocksInStripe_pos
  omega

/-- A block is recovered from its row and its column. -/
theorem blockAt_row_col (b : ℕ) : L.blockAt (L.row b) (L.col b) = b := by
  rw [blockAt, row_div, row_mod, stripe, col, Nat.mul_comm (b / L.chunk / L.width),
    Nat.div_add_mod, Nat.mul_comm, Nat.div_add_mod]

/-- The chunk of a block that is given by its row and column. -/
theorem blockAt_div {o k : ℕ} :
    L.blockAt o k / L.chunk = o / L.chunk * L.width + k := by
  rw [blockAt, Nat.mul_comm _ L.chunk, Nat.mul_add_div L.chunk_pos,
    Nat.div_eq_of_lt (Nat.mod_lt _ L.chunk_pos), Nat.add_zero]

theorem stripe_blockAt {o k : ℕ} (hk : k < L.width) : L.stripe (L.blockAt o k) = o / L.chunk := by
  rw [stripe, blockAt_div, Nat.mul_comm, Nat.mul_add_div L.width_pos, Nat.div_eq_of_lt hk,
    Nat.add_zero]

theorem col_blockAt {o k : ℕ} (hk : k < L.width) : L.col (L.blockAt o k) = k := by
  rw [col, blockAt_div, Nat.mul_comm, Nat.mul_add_mod, Nat.mod_eq_of_lt hk]

theorem row_blockAt {o k : ℕ} (hk : k < L.width) : L.row (L.blockAt o k) = o := by
  have hmod : L.blockAt o k % L.chunk = o % L.chunk := by
    rw [blockAt, Nat.mul_comm, Nat.mul_add_mod, Nat.mod_mod]
  rw [row, stripe_blockAt L hk, hmod, Nat.mul_comm, Nat.div_add_mod]

/-! ## The layout is injective -/

/-- Blocks in one row and one column are the same block. -/
theorem eq_of_row_col {b b' : ℕ} (hr : L.row b = L.row b') (hc : L.col b = L.col b') : b = b' := by
  rw [← L.blockAt_row_col b, ← L.blockAt_row_col b', hr, hc]

/-- No two blocks are in the same place. -/
theorem slot_injective : Function.Injective L.slot := by
  intro b b' h
  have hrow : L.row b = L.row b' := congrArg Prod.snd h
  have hstripe : L.stripe b = L.stripe b' := by rw [← L.row_div b, hrow, L.row_div]
  have hdisk : L.place (L.stripe b') (L.col b) = L.place (L.stripe b') (L.col b') := by
    rw [← hstripe]
    exact (congrArg Prod.fst h).trans (by rw [slot_fst, hstripe])
  exact L.eq_of_row_col hrow (L.place_inj _ _ _ (L.col_lt b) (L.col_lt b') hdisk)

/-- The columns of a stripe are on different disks. -/
theorem place_injOn (s : ℕ) : Set.InjOn (L.place s) (Finset.range L.width) := fun k hk k' hk' h =>
  L.place_inj s k k' (by simpa using hk) (by simpa using hk') h

/-- The disk of a block is one of the disks. -/
theorem slot_disk_lt (b : ℕ) : (L.slot b).1 < L.disks := L.place_lt _ _ (L.col_lt b)

/-- A slot holds a block exactly when its disk is one of the data disks of its stripe. -/
theorem exists_slot_iff (d o : ℕ) :
    (∃ b, L.slot b = (d, o)) ↔ ∃ k < L.width, L.place (o / L.chunk) k = d := by
  constructor
  · rintro ⟨b, hb⟩
    have hrow : L.row b = o := congrArg Prod.snd hb
    refine ⟨L.col b, L.col_lt b, ?_⟩
    rw [← hrow, row_div]
    exact congrArg Prod.fst hb
  · rintro ⟨k, hk, hd⟩
    refine ⟨L.blockAt o k, ?_⟩
    rw [slot, stripe_blockAt L hk, col_blockAt L hk, row_blockAt L hk, hd]

/-- The blocks and the slots on data disks correspond to each other. -/
theorem bijOn_slot :
    Set.BijOn L.slot Set.univ {x | ∃ k < L.width, L.place (x.2 / L.chunk) k = x.1} := by
  refine ⟨?_, L.slot_injective.injOn, ?_⟩
  · intro b _
    exact (L.exists_slot_iff _ _).mp ⟨b, rfl⟩
  · rintro ⟨d, o⟩ hslot
    obtain ⟨b, hb⟩ := (L.exists_slot_iff d o).mpr hslot
    exact ⟨b, trivial, hb⟩

/-- Where chunk `k` of every stripe lies on disk `k`, the blocks correspond to the slots on the first
disks. -/
theorem bijOn_slot_of_place (hplace : ∀ s k, L.place s k = k) :
    Set.BijOn L.slot Set.univ {x | x.1 < L.width} := by
  have hset : {x : ℕ × ℕ | x.1 < L.width} = {x | ∃ k < L.width, L.place (x.2 / L.chunk) k = x.1} := by
    ext x
    simp only [hplace, exists_eq_right, Set.mem_ofPred_eq]
  rw [hset]
  exact L.bijOn_slot

/-- The blocks of row `o`, one per column, are the blocks of its stripe that lie in row `o`. -/
theorem sum_row {V : Type*} [AddCommMonoid V] (o : ℕ) (f : ℕ → V) :
    ∑ k ∈ Finset.range L.width, f (L.blockAt o k)
      = ∑ v ∈ Finset.Ico (o / L.chunk * L.blocksInStripe)
          (o / L.chunk * L.blocksInStripe + L.blocksInStripe), if L.row v = o then f v else 0 := by
  rw [← Finset.sum_filter]
  refine Finset.sum_bij' (fun k _ => L.blockAt o k) (fun v _ => L.col v) ?_ ?_ ?_ ?_ ?_
  · intro k hk
    have hk' := Finset.mem_range.mp hk
    have hstripe := (L.stripe_eq_iff _ _).mp (L.stripe_blockAt (o := o) hk')
    rw [Nat.succ_mul] at hstripe
    exact Finset.mem_filter.mpr ⟨Finset.mem_Ico.mpr hstripe, L.row_blockAt hk'⟩
  · intro v _
    exact Finset.mem_range.mpr (L.col_lt v)
  · intro k hk
    exact L.col_blockAt (Finset.mem_range.mp hk)
  · intro v hv
    rw [← (Finset.mem_filter.mp hv).2, L.blockAt_row_col]
  · intro k _
    rfl

/-! ## The rows of one column -/

/-- A block is recovered from its stripe, its column and its place in its chunk. -/
theorem eq_stripe_add_col (b : ℕ) :
    b = L.stripe b * L.blocksInStripe + L.col b * L.chunk + b % L.chunk := by
  conv_lhs => rw [← L.blockAt_row_col b, blockAt, row_div, row_mod]
  rw [Nat.add_mul, Nat.mul_assoc, ← blocksInStripe]

/-- The rows of column `k` before block `v` of stripe `s`, with those of all stripes before. -/
def rank (s k v : ℕ) : ℕ := s * L.chunk + min L.chunk (v - (s * L.blocksInStripe + k * L.chunk))

/-- In front of a stripe, a column has a chunk for every stripe before it. -/
theorem rank_start {s k : ℕ} : L.rank s k (s * L.blocksInStripe) = s * L.chunk := by
  rw [rank, Nat.sub_eq_zero_of_le (Nat.le_add_right _ _), Nat.min_zero, Nat.add_zero]

/-- Behind the stripe it has one more. -/
theorem rank_end {s k : ℕ} (hk : k < L.width) :
    L.rank s k (s * L.blocksInStripe + L.blocksInStripe) = (s + 1) * L.chunk := by
  have hcols : (k + 1) * L.chunk ≤ L.width * L.chunk := Nat.mul_le_mul_right _ hk
  rw [Nat.succ_mul, ← blocksInStripe] at hcols
  rw [rank, Nat.succ_mul]
  omega

/-- A block advances the rank of its own column, from its row on. -/
theorem rank_succ {s v : ℕ} (hv : L.stripe v = s) (k : ℕ) :
    L.rank s k (v + 1) = L.rank s k v + if L.col v = k then 1 else 0 := by
  have hblock := L.eq_stripe_add_col v
  have hmod := Nat.mod_lt v L.chunk_pos
  rw [hv] at hblock
  rw [rank, rank]
  rcases lt_trichotomy (L.col v) k with hlt | heq | hgt
  · have hcols : (L.col v + 1) * L.chunk ≤ k * L.chunk := Nat.mul_le_mul_right _ hlt
    rw [Nat.succ_mul] at hcols
    rw [if_neg (by omega)]
    omega
  · rw [if_pos heq]
    rw [heq] at hblock
    omega
  · have hcols : (k + 1) * L.chunk ≤ L.col v * L.chunk := Nat.mul_le_mul_right _ hgt
    rw [Nat.succ_mul] at hcols
    rw [if_neg (by omega)]
    omega

/-- The row of a block is the number of blocks in front of it in its column. -/
theorem row_eq_rank {s v : ℕ} (hv : L.stripe v = s) : L.row v = L.rank s (L.col v) v := by
  have hblock := L.eq_stripe_add_col v
  have hmod := Nat.mod_lt v L.chunk_pos
  rw [hv] at hblock
  rw [row, rank, hv]
  omega

/-- The rows of column `k` before block `v`. -/
def rankOf (k v : ℕ) : ℕ := L.rank (L.stripe v) k v

theorem row_eq_rankOf (v : ℕ) : L.row v = L.rankOf (L.col v) v := L.row_eq_rank rfl

/-- The number grows with the blocks of the column. -/
theorem rankOf_succ {k : ℕ} (hk : k < L.width) (v : ℕ) :
    L.rankOf k (v + 1) = L.rankOf k v + if L.col v = k then 1 else 0 := by
  have hstep := L.rank_succ (rfl : L.stripe v = L.stripe v) k
  obtain ⟨hlo, hhi⟩ := (L.stripe_eq_iff v (L.stripe v)).mp rfl
  rcases Nat.lt_or_ge (v + 1) ((L.stripe v + 1) * L.blocksInStripe) with hlt | hge
  · have hsame : L.stripe (v + 1) = L.stripe v := (L.stripe_eq_iff _ _).mpr ⟨by omega, hlt⟩
    rw [rankOf, hsame, hstep]
    rfl
  · -- the next block is the first one of the next stripe
    have hnext : v + 1 = (L.stripe v + 1) * L.blocksInStripe := by omega
    have hstripe : L.stripe (v + 1) = L.stripe v + 1 := by
      rw [hnext, stripe_eq_div, Nat.mul_div_cancel _ L.blocksInStripe_pos]
    have hend := L.rank_end (s := L.stripe v) hk
    rw [← Nat.succ_mul, ← hnext, hstep] at hend
    rw [rankOf, hstripe, hnext, rank_start, ← hend]
    rfl

theorem rankOf_mono {k : ℕ} (hk : k < L.width) : Monotone (L.rankOf k) :=
  monotone_nat_of_le_succ fun v => by
    rw [L.rankOf_succ hk]
    exact Nat.le_add_right _ _

/-- In front of block 0 there is nothing. -/
theorem rankOf_zero (k : ℕ) : L.rankOf k 0 = 0 := by
  unfold rankOf rank stripe
  simp only [Nat.zero_div, Nat.zero_mul, Nat.zero_add, Nat.zero_sub, Nat.min_zero]

/-- The first column is never empty. -/
theorem rankOf_pos {v : ℕ} (hv : 1 ≤ v) : 1 ≤ L.rankOf 0 v := by
  have hchunk := L.chunk_pos
  unfold rankOf rank
  rcases Nat.eq_zero_or_pos (L.stripe v) with hzero | hpos
  · rw [hzero]
    omega
  · have hrows : 1 * 1 ≤ L.stripe v * L.chunk := Nat.mul_le_mul hpos hchunk
    omega

/-- Columns further to the right are behind, by a chunk at most. -/
theorem rankOf_le {j k : ℕ} (hjk : j ≤ k) (v : ℕ) :
    L.rankOf k v ≤ L.rankOf j v ∧ L.rankOf j v ≤ L.rankOf k v + L.chunk := by
  have hcols : j * L.chunk ≤ k * L.chunk := Nat.mul_le_mul_right _ hjk
  unfold rankOf rank
  omega

/-- Between two blocks all columns advance alike, up to a chunk. -/
theorem rankOf_sub_le (a b j k : ℕ) :
    L.rankOf j b - L.rankOf j a ≤ L.rankOf k b - L.rankOf k a + L.chunk := by
  rcases Nat.le_total j k with h | h
  · have ha := L.rankOf_le h a
    have hb := L.rankOf_le h b
    omega
  · have ha := L.rankOf_le h a
    have hb := L.rankOf_le h b
    omega

end Layout

/-! ## Parity layouts -/

/-- A layout with one disk more than data columns, where `parity s` is the disk of stripe `s` that
holds none of its chunks. -/
structure ParityLayout extends Layout where
  parity : ℕ → ℕ
  disks_eq : disks = width + 1
  parity_lt : ∀ s, parity s < disks
  place_ne_parity : ∀ s k, k < width → place s k ≠ parity s

namespace ParityLayout

variable (L : ParityLayout)

/-- The parity slot of row `o`. -/
def paritySlot (o : ℕ) : ℕ × ℕ := (L.parity (o / L.chunk), o)

/-- The parity of a stripe is on a disk without its data. -/
theorem parity_notMem_image (s : ℕ) :
    L.parity s ∉ (Finset.range L.width).image (L.place s) := by
  simp only [Finset.mem_image, Finset.mem_range, not_exists, not_and]
  exact fun k hk h => L.place_ne_parity s k hk h

/-- The disks of a stripe are its parity disk and its data disks. -/
theorem insert_parity_image (s : ℕ) :
    insert (L.parity s) ((Finset.range L.width).image (L.place s)) = Finset.range L.disks := by
  refine Finset.eq_of_subset_of_card_le ?_ ?_
  · intro d hd
    simp only [Finset.mem_insert, Finset.mem_image, Finset.mem_range] at hd ⊢
    rcases hd with rfl | ⟨k, hk, rfl⟩
    · exact L.parity_lt s
    · exact L.place_lt s k hk
  · rw [Finset.card_insert_of_notMem (L.parity_notMem_image s),
      Finset.card_image_of_injOn (L.place_injOn s), Finset.card_range, Finset.card_range, L.disks_eq]

/-- Every disk other than the parity disk holds a chunk of the stripe. -/
theorem exists_place {s d : ℕ} (hd : d < L.disks) (hp : d ≠ L.parity s) :
    ∃ k < L.width, L.place s k = d := by
  have hmem : d ∈ insert (L.parity s) ((Finset.range L.width).image (L.place s)) := by
    rw [insert_parity_image]
    exact Finset.mem_range.mpr hd
  simpa [hp] using hmem

/-- A block never lies on a parity slot. -/
theorem slot_ne_paritySlot (b o : ℕ) : L.slot b ≠ L.paritySlot o := by
  intro h
  have hrow : L.row b = o := congrArg Prod.snd h
  have hdisk : L.place (L.stripe b) (L.col b) = L.parity (o / L.chunk) := congrArg Prod.fst h
  rw [← hrow, L.row_div] at hdisk
  exact L.place_ne_parity _ _ (L.col_lt b) hdisk

/-- The slots of the array are tiled by the blocks and the parity slots. -/
theorem exists_slot_iff_ne_parity {d : ℕ} (o : ℕ) (hd : d < L.disks) :
    (∃ b, L.slot b = (d, o)) ↔ d ≠ L.parity (o / L.chunk) := by
  rw [L.exists_slot_iff]
  constructor
  · rintro ⟨k, hk, rfl⟩
    exact L.place_ne_parity _ k hk
  · exact L.exists_place hd

/-- A sum over the disks of a stripe splits into the parity disk and the data columns. -/
theorem sum_disks {V : Type*} [AddCommMonoid V] (s : ℕ) (f : ℕ → V) :
    ∑ d ∈ Finset.range L.disks, f d
      = f (L.parity s) + ∑ k ∈ Finset.range L.width, f (L.place s k) := by
  rw [← L.insert_parity_image s, Finset.sum_insert (L.parity_notMem_image s),
    Finset.sum_image (L.place_injOn s)]

/-- The sum over a row splits into its parity slot and its blocks. -/
theorem sum_row_slots {V : Type*} [AddCommMonoid V] (a : ℕ × ℕ → V) (o : ℕ) :
    ∑ d ∈ Finset.range L.disks, a (d, o)
      = a (L.paritySlot o) + ∑ v ∈ Finset.Ico (o / L.chunk * L.blocksInStripe)
          (o / L.chunk * L.blocksInStripe + L.blocksInStripe),
          if L.row v = o then a (L.slot v) else 0 := by
  rw [L.sum_disks (o / L.chunk) fun d => a (d, o), ← L.sum_row o fun v => a (L.slot v), paritySlot]
  congr 1
  refine Finset.sum_congr rfl fun k hk => ?_
  have hk' := Finset.mem_range.mp hk
  rw [Layout.slot, L.stripe_blockAt hk', L.col_blockAt hk', L.row_blockAt hk']

end ParityLayout
