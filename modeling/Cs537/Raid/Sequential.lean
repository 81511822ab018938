import Cs537.Lib.Ranges
import Cs537.Raid.Pieces

/-!
# Sequential workloads

A request for consecutive blocks visits every disk in the order of its offsets, without a gap. So a striped request
keeps all disks streaming, each within a chunk of the others, and a write of whole stripes streams on all disks,
those with the parity chunks included.
-/

namespace Cs537

/-! ## Striping -/

namespace Raid

variable (r : Raid)

/-- The offsets of a striped request on disk `i` follow one another. -/
theorem offsetsOn_enqueue0 (q : Request) {i : ℕ} (hi : i < r.numDisks) :
    offsetsOn i (r.enqueue0 q) = List.range' (r.layout0.rankOf i q.addr)
      (r.layout0.rankOf i (q.addr + q.size) - r.layout0.rankOf i q.addr) := by
  have hlist : offsetsOn i (r.enqueue0 q)
      = ((List.range' q.addr q.size).filter fun v => r.layout0.col v = i).map r.layout0.row :=
    offsetsOn_data i q.op r.layout0.slot q.blocks
  rw [hlist]
  refine (Ranges.map_filter_range' (r.layout0.rankOf i) (fun v _ _ hcol => ?_) fun v _ _ => ?_).2
  · rw [← hcol]
    exact r.layout0.row_eq_rankOf v
  · exact r.layout0.rankOf_succ hi v

/-- **Striped sequential access is balanced and sequential.** -/
theorem striped_sequential (q : Request) (seekTime xferTime : ℚ)
    (hcap : ∀ io ∈ r.enqueue0 q, io.slot.2 < (Disk.init seekTime xferTime).blocksPerDisk) :
    ∃ disks, performAll (List.replicate r.numDisks (Disk.init seekTime xferTime)) (r.enqueue0 q) = .ok disks
      ∧ disks.length = r.numDisks
      ∧ (∀ d ∈ disks, ∀ e ∈ disks, d.countIO ≤ e.countIO + r.chunkSize)
      ∧ ∀ (i : ℕ) (d : Disk), disks[i]? = some d → d.countIO = (offsetsOn i (r.enqueue0 q)).length
        ∧ (1 ≤ d.countIO → d.countRand = 1 ∧ d.countSeq = d.countIO - 1 ∧ d.countNseq = 0
          ∧ d.utilTime = seekTime + d.countIO * xferTime) := by
  have hdisk : ∀ io ∈ r.enqueue0 q, io.slot.1 < r.numDisks := by
    intro io hio
    obtain ⟨b, -, rfl⟩ := List.mem_map.mp hio
    exact r.layout0.slot_disk_lt b
  have hrun := performAll_streams one_pos (by omega) hdisk hcap fun i hi => r.offsetsOn_enqueue0 q hi
  refine ⟨_, hrun, ?_, ?_, ?_⟩
  · rw [List.length_map, List.length_range]
  · intro d hd e he
    obtain ⟨i, -, rfl⟩ := List.mem_map.mp hd
    obtain ⟨j, -, rfl⟩ := List.mem_map.mp he
    rw [Disk.countIO_served, Disk.countIO_served]
    exact r.layout0.rankOf_sub_le _ _ i j
  · intro i d hd
    obtain ⟨hi, rfl⟩ := getElem?_map_range hd
    rw [r.offsetsOn_enqueue0 q hi, Disk.countIO_served, List.length_range']
    exact ⟨rfl, fun hpos => Disk.served_sequential _ hpos⟩

/-- Ten blocks from block `3` on over four disks. -/
theorem striped_sequential_defaults :
    ∃ disks, performAll (List.replicate 4 Disk.fresh) ((defaults .zero).enqueue0 ⟨3, 10, false⟩) = .ok disks
      ∧ ∀ d ∈ disks, ∀ e ∈ disks, d.countIO ≤ e.countIO + 1 := by
  have hcap : ∀ io ∈ (defaults .zero).enqueue0 ⟨3, 10, false⟩,
      io.slot.2 < (Disk.init 10 (1 / 10)).blocksPerDisk := by
    rw [Disk.blocksPerDisk_init]
    decide
  obtain ⟨disks, hrun, -, hbalance, -⟩ := (defaults .zero).striped_sequential ⟨3, 10, false⟩ 10 (1 / 10) hcap
  exact ⟨disks, hrun, hbalance⟩

end Raid

/-! ## Whole stripes -/

/-- Offsets that have been seen add nothing. -/
theorem foldl_offList_of_subset {offs acc : List ℕ} (h : ∀ o ∈ offs, o ∈ acc) :
    offs.foldl (fun l off => if off ∈ l then l else l ++ [off]) acc = acc := by
  induction offs with
  | nil => rfl
  | cons off offs ih =>
    rw [List.foldl_cons, if_pos (h off List.mem_cons_self)]
    exact ih fun o ho => h o (List.mem_cons_of_mem _ ho)

/-- Offsets that are all new are all added. -/
theorem foldl_offList_of_nodup {offs acc : List ℕ} (h : (acc ++ offs).Nodup) :
    offs.foldl (fun l off => if off ∈ l then l else l ++ [off]) acc = acc ++ offs := by
  induction offs generalizing acc with
  | nil => exact (List.append_nil acc).symm
  | cons off offs ih =>
    have hnew : off ∉ acc := fun hmem =>
      (List.nodup_append.mp h).2.2 off hmem off List.mem_cons_self rfl
    rw [List.append_cons] at h ⊢
    rw [List.foldl_cons, if_neg hnew, ih h]

/-- Repetitions behind a list without repetitions add nothing. -/
theorem offListOf_append {offs offs' : List ℕ} (hnodup : offs.Nodup) (hsub : ∀ o ∈ offs', o ∈ offs) :
    offListOf (offs ++ offs') = offs := by
  have hfirst := @foldl_offList_of_nodup offs [] hnodup
  rw [offListOf, List.foldl_append, hfirst]
  exact foldl_offList_of_subset hsub

namespace ParityAccess

variable (L : ParityLayout) {op : Op} {s d : ℕ}

/-- A whole stripe is written without reading. -/
theorem readsOf_full (s : ℕ) :
    readsOf L s (s * L.blocksInStripe) (s * L.blocksInStripe + L.blocksInStripe) = [] := by
  have hpos := L.blocksInStripe_pos
  rw [readsOf, if_neg (by omega), dataOf, dataOf, Nat.sub_self, Nat.sub_self]
  rfl

/-- The rows of a whole stripe, in order. -/
theorem rowsOf_full (s : ℕ) :
    rowsOf L (s * L.blocksInStripe) (s * L.blocksInStripe + L.blocksInStripe)
      = List.range' (s * L.chunk) L.chunk := by
  have hchunk : L.chunk ≤ L.blocksInStripe := Nat.le_mul_of_pos_left _ L.width_pos
  have hlen : L.blocksInStripe = L.chunk + (L.blocksInStripe - L.chunk) := by omega
  -- the first chunk goes through the rows, and the others meet the same rows again
  have hfirst : (List.range' (s * L.blocksInStripe) L.chunk).map L.row
      = List.range' (s * L.chunk) L.chunk := by
    rw [List.range'_eq_map_range, List.range'_eq_map_range, List.map_map]
    refine List.map_congr_left fun i hi => ?_
    have hi := List.mem_range.mp hi
    have hmod : (s * L.blocksInStripe + i) % L.chunk = i := by
      rw [Layout.blocksInStripe, ← Nat.mul_assoc, Nat.add_comm, Nat.add_mul_mod_self_right,
        Nat.mod_eq_of_lt hi]
    show L.row (s * L.blocksInStripe + i) = s * L.chunk + i
    rw [Layout.row, hmod, stripe_of_mem_piece L le_rfl le_rfl (Nat.le_add_right _ i) (by omega)]
  rw [rowsOf, Nat.add_sub_cancel_left, hlen, ← List.range'_append_1, List.map_append, ← hlen, hfirst]
  refine offListOf_append (List.nodup_range' 1) fun o ho => ?_
  obtain ⟨v, hv, rfl⟩ := List.mem_map.mp ho
  obtain ⟨h1, h2⟩ := List.mem_range'_1.mp hv
  have hstripe : L.stripe v = s := stripe_of_mem_piece L le_rfl le_rfl (by omega) (by omega)
  have hbounds := L.row_bounds v
  rw [hstripe, Nat.succ_mul] at hbounds
  exact List.mem_range'_1.mpr hbounds

/-- The chunk of a whole stripe that is on a data disk. -/
theorem offsetsOn_dataOf_full {k : ℕ} (hk : k < L.width) (hplace : L.place s k = d) :
    offsetsOn d (dataOf L op (s * L.blocksInStripe) (s * L.blocksInStripe + L.blocksInStripe))
      = List.range' (s * L.chunk) L.chunk := by
  have hcol : ∀ v, s * L.blocksInStripe ≤ v → v < s * L.blocksInStripe + L.blocksInStripe →
      ((L.slot v).1 = d ↔ L.col v = k) := by
    intro v h1 h2
    have hstripe := stripe_of_mem_piece L le_rfl le_rfl h1 h2
    rw [L.slot_fst, hstripe, ← hplace]
    exact ⟨L.place_inj s _ _ (L.col_lt v) hk, fun h => by rw [h]⟩
  rw [dataOf, offsetsOn_data, Nat.add_sub_cancel_left]
  rw [(Ranges.map_filter_range' (P := fun v => (L.slot v).1 = d) (L.rank s k)
    (fun v h1 h2 hd => ?_) fun v h1 h2 => ?_).2, L.rank_start, L.rank_end hk, Nat.succ_mul,
    Nat.add_sub_cancel_left]
  · rw [← (hcol v h1 h2).mp hd]
    exact L.row_eq_rank (stripe_of_mem_piece L le_rfl le_rfl h1 h2)
  · rw [L.rank_succ (stripe_of_mem_piece L le_rfl le_rfl h1 h2) k]
    simp only [hcol v h1 h2]

/-- Its parity disk has no data. -/
theorem offsetsOn_dataOf_parity :
    offsetsOn (L.parity s) (dataOf L op (s * L.blocksInStripe) (s * L.blocksInStripe + L.blocksInStripe))
      = [] := by
  rw [dataOf, offsetsOn_data, List.map_eq_nil_iff, List.filter_eq_nil_iff]
  intro v hv
  obtain ⟨h1, h2⟩ := List.mem_range'_1.mp hv
  rw [L.slot_fst, stripe_of_mem_piece L le_rfl le_rfl h1 (by omega), decide_eq_true_eq]
  exact L.place_ne_parity _ _ (L.col_lt v)

/-- The parity of a stripe is on one disk. -/
theorem offsetsOn_parityOf (d b e : ℕ) :
    offsetsOn d (parityOf L op s b e) = if L.parity s = d then rowsOf L b e else [] := by
  have hlist : offsetsOn d (parityOf L op s b e)
      = ((rowsOf L b e).filter fun _ => L.parity s = d).map fun o => o := by
    rw [offsetsOn, Components.opsAt, parityOf, List.map_map, List.filter_map, List.map_map]
    rfl
  rw [hlist, List.map_id']
  split
  · rename_i hd
    exact List.filter_eq_self.mpr fun o _ => decide_eq_true hd
  · rename_i hd
    exact List.filter_eq_nil_iff.mpr fun o _ => by rw [decide_eq_true_eq]; exact hd

/-- **Every disk gets one chunk of a whole stripe**, of data or of parity. -/
theorem offsetsOn_full (hd : d < L.disks) :
    offsetsOn d (readsOf L s (s * L.blocksInStripe) (s * L.blocksInStripe + L.blocksInStripe)
        ++ writesOf L s (s * L.blocksInStripe) (s * L.blocksInStripe + L.blocksInStripe))
      = List.range' (s * L.chunk) L.chunk := by
  rw [readsOf_full, List.nil_append, writesOf, offsetsOn_append, offsetsOn_parityOf, rowsOf_full]
  by_cases hp : d = L.parity s
  · rw [hp, offsetsOn_dataOf_parity, if_pos rfl, List.nil_append]
  · obtain ⟨k, hk, hplace⟩ := L.exists_place hd hp
    rw [offsetsOn_dataOf_full L hk hplace, if_neg (Ne.symm hp), List.append_nil]

end ParityAccess

namespace Raid

variable {r : Raid} {addr size : ℕ}

/-- The stripes of a request for whole stripes. -/
theorem stripes_full (hr : r.HasParity) (hsize : 1 ≤ size) (ha : r.blocksInStripe ∣ addr)
    (hs : r.blocksInStripe ∣ size) :
    r.stripes addr size = List.range' (addr / r.blocksInStripe) (size / r.blocksInStripe) := by
  have hpos := blocksInStripe_pos hr
  obtain ⟨a, rfl⟩ := ha
  obtain ⟨m, rfl⟩ := hs
  obtain ⟨m, rfl⟩ : ∃ i, m = i + 1 := by
    refine ⟨m - 1, (Nat.sub_add_cancel (Nat.pos_of_ne_zero ?_)).symm⟩
    rintro rfl
    omega
  have hlast : r.blocksInStripe * a + r.blocksInStripe * (m + 1) - 1
      = r.blocksInStripe * (a + m) + (r.blocksInStripe - 1) := by
    rw [Nat.mul_succ, Nat.mul_add]
    omega
  have hrest : (r.blocksInStripe - 1) / r.blocksInStripe = 0 := Nat.div_eq_of_lt (by omega)
  rw [stripes, hlast, Nat.mul_add_div hpos, hrest, Nat.mul_div_cancel_left _ hpos,
    Nat.mul_div_cancel_left _ hpos]
  congr 1
  omega

/-- Its pieces are whole stripes. -/
theorem piece_full (ha : r.blocksInStripe ∣ addr) (hs : r.blocksInStripe ∣ size) {s : ℕ}
    (hmem : s ∈ List.range' (addr / r.blocksInStripe) (size / r.blocksInStripe)) :
    r.piece addr size s = (s, s * r.blocksInStripe, s * r.blocksInStripe + r.blocksInStripe) := by
  obtain ⟨h1, h2⟩ := List.mem_range'_1.mp hmem
  have hlo := Nat.mul_le_mul_right r.blocksInStripe h1
  have hhi := Nat.mul_le_mul_right r.blocksInStripe (show s + 1 ≤ _ from h2)
  rw [Nat.div_mul_cancel ha] at hlo
  rw [Nat.succ_mul, Nat.add_mul, Nat.div_mul_cancel ha, Nat.div_mul_cancel hs] at hhi
  rw [piece, Nat.max_eq_right hlo, Nat.min_eq_right hhi]

/-- The accesses of a write of whole stripes. -/
theorem enqueue45_full (hr : r.HasParity) (hsize : 1 ≤ size) (ha : r.blocksInStripe ∣ addr)
    (hs : r.blocksInStripe ∣ size) :
    r.enqueue45 ⟨addr, size, true⟩ = .ok
      ((List.range' (addr / r.blocksInStripe) (size / r.blocksInStripe)).flatMap fun s =>
        ParityAccess.writesOf (r.parityLayout hr) s (s * r.blocksInStripe)
          (s * r.blocksInStripe + r.blocksInStripe)) := by
  rw [enqueue45_write_stripes hr hsize, stripes_full hr hsize ha hs]
  congr 1
  refine List.flatMap_congr fun s hmem => ?_
  have hreads := ParityAccess.readsOf_full (r.parityLayout hr) s
  rw [parityLayout_blocksInStripe hr] at hreads
  rw [piece_full ha hs hmem]
  dsimp only
  rw [hreads, List.nil_append]

/-- The offsets of several stripes on one disk. -/
theorem offsetsOn_flatMap (i : ℕ) (ss : List ℕ) (f : ℕ → List Access) :
    offsetsOn i (ss.flatMap f) = ss.flatMap fun s => offsetsOn i (f s) := by
  induction ss with
  | nil => rfl
  | cons s ss ih => rw [List.flatMap_cons, List.flatMap_cons, offsetsOn_append, ih]

/-- **Writes of whole stripes are read-free and sequential**: every disk, in every rotation, gets its chunks of data
and of parity one behind the other. -/
theorem fullStripe_sequential (hr : r.HasParity) (hsize : 1 ≤ size) (ha : r.blocksInStripe ∣ addr)
    (hs : r.blocksInStripe ∣ size) :
    ∃ ios, r.enqueue45 ⟨addr, size, true⟩ = .ok ios
      ∧ (∀ io ∈ ios, io.op = .write)
      ∧ (∀ i < r.numDisks,
          offsetsOn i ios = List.range' (addr / (r.numDisks - 1)) (size / (r.numDisks - 1)))
      ∧ ∀ seekTime xferTime : ℚ, (∀ io ∈ ios, io.slot.2 < (Disk.init seekTime xferTime).blocksPerDisk) →
          ∃ disks, performAll (List.replicate r.numDisks (Disk.init seekTime xferTime)) ios = .ok disks
            ∧ disks.length = r.numDisks
            ∧ ∀ d ∈ disks, d.countIO = size / (r.numDisks - 1) ∧ d.countRand = 1 ∧ d.countNseq = 0
              ∧ d.countSeq = size / (r.numDisks - 1) - 1
              ∧ d.utilTime = seekTime + (size / (r.numDisks - 1) : ℕ) * xferTime := by
  have hios := enqueue45_full hr hsize ha hs
  have hwidth : 0 < r.numDisks - 1 := r.width_pos_of_two_le hr.two_le
  -- a stripe has a chunk of rows, and `numDisks - 1` blocks in each
  have hdiv : ∀ n, r.blocksInStripe ∣ n → n / r.blocksInStripe * r.chunkSize = n / (r.numDisks - 1) := by
    rintro n ⟨m, rfl⟩
    rw [Nat.mul_div_cancel_left _ (blocksInStripe_pos hr), blocksInStripe, Nat.mul_assoc,
      Nat.mul_div_cancel_left _ hwidth, Nat.mul_comm]
  have hoffs : ∀ i < r.numDisks, offsetsOn i ((List.range' (addr / r.blocksInStripe)
      (size / r.blocksInStripe)).flatMap fun s => ParityAccess.writesOf (r.parityLayout hr) s
        (s * r.blocksInStripe) (s * r.blocksInStripe + r.blocksInStripe))
      = List.range' (addr / (r.numDisks - 1)) (size / (r.numDisks - 1)) := by
    intro i hi
    rw [← hdiv addr ha, ← hdiv size hs, ← Ranges.flatMap_range'_mul, offsetsOn_flatMap]
    refine List.flatMap_congr fun s _ => ?_
    have hstripe := ParityAccess.offsetsOn_full (r.parityLayout hr) (s := s) (d := i)
      (by rwa [parityLayout_disks])
    rw [ParityAccess.readsOf_full, List.nil_append, parityLayout_blocksInStripe hr, parityLayout_chunk]
      at hstripe
    exact hstripe
  refine ⟨_, hios, fun io hio => ?_, hoffs, fun seekTime xferTime hcap => ?_⟩
  · obtain ⟨s, -, hs⟩ := List.mem_flatMap.mp hio
    exact ParityAccess.op_of_mem_writesOf _ hs
  · have hcount : 1 ≤ size / (r.numDisks - 1) := by
      rw [← hdiv size hs]
      exact Nat.mul_pos (Nat.div_pos (Nat.le_of_dvd hsize hs) (blocksInStripe_pos hr)) r.chunkSize_pos
    refine ⟨_, performAll_streams one_pos (by omega) (disk_lt_of_mem_enqueue45 hr hios) hcap hoffs, ?_,
      fun d hd => ?_⟩
    · rw [List.length_map, List.length_range]
    · obtain ⟨i, -, rfl⟩ := List.mem_map.mp hd
      obtain ⟨hrand, hseq, hnseq, hutil⟩ := Disk.served_sequential _ hcount
      exact ⟨Disk.countIO_served _ _ _, hrand, hnseq, hseq, hutil⟩

/-- The stripes `1` and `2` of the default RAID 5: two writes on each disk. -/
theorem fullStripe_sequential_defaults :
    ∃ ios disks, (defaults .five).enqueue45 ⟨3, 6, true⟩ = .ok ios
      ∧ performAll (List.replicate 4 Disk.fresh) ios = .ok disks
      ∧ ∀ d ∈ disks, d.countIO = 2 ∧ d.countRand = 1 ∧ d.countSeq = 1 := by
  obtain ⟨ios, hios, -, -, hserve⟩ :=
    @fullStripe_sequential (defaults .five) 3 6 (Or.inr rfl) (by decide) (by decide) (by decide)
  have hbound : ((defaults .five).enqueue45 ⟨3, 6, true⟩).toOption.any
      (fun ios => ∀ io ∈ ios, io.slot.2 < 10000) = true := by decide
  rw [hios] at hbound
  obtain ⟨disks, hrun, -, hdisks⟩ := hserve 10 (1 / 10) fun io hio => by
    rw [Disk.blocksPerDisk_init]
    exact of_decide_eq_true hbound io hio
  refine ⟨ios, disks, hios, hrun, fun d hd => ?_⟩
  obtain ⟨hio, hrand, -, hseq, -⟩ := hdisks d hd
  exact ⟨hio, hrand, hseq⟩

end Raid

end Cs537
