import Cs537.Raid.Throughput

/-!
# Which workloads complete

The generated requests are not checked against the size of the array: an access behind the end of a disk stops the
program with the assertion of `disk.enqueue`. A run completes when every request fits, and where the chunks divide the
disks, that is a matter of its last block.
-/

namespace Cs537

namespace Raid

variable {r : Raid} {q : Request}

/-- Without parity, every access is to a copy of a block of the request. -/
theorem exists_block_of_mem_accesses (hr : ¬ r.HasParity) {io : Access} (hio : io ∈ r.accesses q) :
    ∃ b ∈ q.blocks, io.slot ∈ r.slotsOf b := by
  cases hlevel : r.raidLevel with
  | zero =>
    rw [accesses_zero hlevel] at hio
    obtain ⟨b, hb, rfl⟩ := List.mem_map.mp hio
    refine ⟨b, hb, ?_⟩
    rw [slotsOf_zero hlevel]
    exact List.mem_singleton_self _
  | one =>
    rw [accesses_one hlevel] at hio
    obtain ⟨b, hb, hio⟩ := List.mem_flatMap.mp hio
    refine ⟨b, hb, ?_⟩
    rw [slotsOf_one hlevel]
    dsimp only at hio
    split at hio
    · rcases List.mem_pair.mp hio with rfl | rfl <;> simp [Access.data]
    · split at hio <;> rw [List.mem_singleton.mp hio] <;> simp [Access.data]
  | four => exact absurd (Or.inl hlevel) hr
  | five => exact absurd (Or.inr hlevel) hr

/-- The number of disks that a stripe of data takes. -/
def dataDisks (r : Raid) : ℕ :=
  match r.raidLevel with
  | .zero => r.numDisks
  | .one => r.numDisks / 2
  | .four | .five => r.numDisks - 1

/-- With parity, all disks but one hold data. -/
theorem dataDisks_of_hasParity (hr : r.HasParity) : r.dataDisks = r.numDisks - 1 := by
  rcases hr with hlevel | hlevel <;> simp only [dataDisks, hlevel]

/-- At every level, the copies of a block are in its row of a layout. -/
theorem exists_layout (r : Raid) : ∃ L : Layout, L.width = r.dataDisks ∧ L.chunk = r.chunkSize
    ∧ ∀ b, (∃ x, x ∈ r.slotsOf b) ∧ ∀ x ∈ r.slotsOf b, x.2 = L.row b := by
  by_cases hr : r.HasParity
  · refine ⟨(r.parityLayout hr).toLayout, ?_, parityLayout_chunk hr, fun b => ?_⟩
    · have hwidth : (r.parityLayout hr).width * (r.parityLayout hr).chunk = r.blocksInStripe :=
        parityLayout_blocksInStripe hr
      rw [parityLayout_chunk] at hwidth
      rw [dataDisks_of_hasParity hr]
      exact Nat.eq_of_mul_eq_mul_right r.chunkSize_pos hwidth
    · rw [slotsOf_parity hr]
      exact ⟨⟨_, List.mem_singleton_self _⟩, fun x hx => by rw [List.mem_singleton.mp hx]; rfl⟩
  · cases hlevel : r.raidLevel with
    | zero =>
      refine ⟨r.layout0, by simp only [dataDisks, hlevel]; rfl, rfl, fun b => ?_⟩
      rw [slotsOf_zero hlevel]
      exact ⟨⟨_, List.mem_singleton_self _⟩, fun x hx => by rw [List.mem_singleton.mp hx]; rfl⟩
    | one =>
      refine ⟨r.layout1 (r.pairs_pos hlevel), by simp only [dataDisks, hlevel]; rfl, rfl, fun b => ?_⟩
      rw [slotsOf_one hlevel]
      exact ⟨⟨_, List.mem_cons_self⟩, fun x hx => by rcases List.mem_pair.mp hx with rfl | rfl <;> rfl⟩
    | four => exact absurd (Or.inl hlevel) hr
    | five => exact absurd (Or.inr hlevel) hr

/-- The blocks of the request are on the disks, and a write with parity does not read behind their end. -/
structure Fits (r : Raid) (q : Request) : Prop where
  blocks : ∀ b ∈ q.blocks, ∀ x ∈ r.slotsOf b, x.2 < 10000
  reads : q.isWrite = true → r.HasParity → ¬ r.ReadsBehindEnd q.addr q.size 10000

/-- When the blocks of a request fit, so do their rows. -/
theorem row_lt_of_blocks (hr : r.HasParity) (hblocks : ∀ b ∈ q.blocks, ∀ x ∈ r.slotsOf b, x.2 < 10000) :
    ∀ b, q.addr ≤ b → b < q.addr + q.size → (r.parityLayout hr).row b < 10000 := by
  intro b h1 h2
  refine hblocks b (Request.mem_blocks.mpr ⟨h1, h2⟩) ((r.parityLayout hr).slot b) ?_
  rw [slotsOf_parity hr]
  exact List.mem_singleton_self _

/-- **A request fits exactly when all its accesses do.** -/
theorem fits_iff (hsize : 1 ≤ q.size) : r.Fits q ↔ ∀ io ∈ r.accesses q, io.slot.2 < 10000 := by
  have hplaced := placed_enqueue hsize (r.enqueue_eq_accesses q)
  have hios := r.enqueue_eq_accesses q
  constructor
  · intro hfits io hio
    cases hw : q.isWrite with
    | false =>
      obtain ⟨-, b, hb, hrole⟩ := hplaced.read_block hw io hio
      exact hfits.blocks b hb _ (hplaced.data_slot io hio b hrole)
    | true =>
      by_cases hr : r.HasParity
      · obtain ⟨addr, size, isWrite⟩ := q
        obtain rfl : isWrite = true := hw
        rw [enqueue_eq_enqueue45 hr] at hios
        exact fits_of_not_readsBehindEnd hr hsize (row_lt_of_blocks hr hfits.blocks) (hfits.reads rfl hr) hios io hio
      · obtain ⟨b, hb, hslot⟩ := exists_block_of_mem_accesses hr hio
        exact hfits.blocks b hb _ hslot
  · intro hall
    have hblocks : ∀ b ∈ q.blocks, ∀ x ∈ r.slotsOf b, x.2 < 10000 := by
      intro b hb x hx
      cases hw : q.isWrite with
      | true => exact hall _ (hplaced.write_all hw b hb x hx)
      | false =>
        -- the copy that is read has the same offset
        obtain ⟨io, hio, hrole⟩ := hplaced.read_all hw b hb
        obtain ⟨L, -, -, hrow⟩ := r.exists_layout
        rw [(hrow b).2 x hx, ← (hrow b).2 _ (hplaced.data_slot io hio b hrole)]
        exact hall io hio
    refine ⟨hblocks, fun hw hr hbehind => ?_⟩
    obtain ⟨addr, size, isWrite⟩ := q
    obtain rfl : isWrite = true := hw
    rw [enqueue_eq_enqueue45 hr] at hios
    obtain ⟨io, hio, hge⟩ := exists_behind_end hr hsize (row_lt_of_blocks hr hblocks) hbehind hios
    exact absurd (hall io hio) (not_lt.mpr hge)

/-- Where the chunks divide the disks, the last block of a request decides whether it fits. -/
theorem fits_iff_of_dvd (hchunk : r.chunkSize ∣ 10000) (hsize : 1 ≤ q.size) :
    r.Fits q ↔ q.addr + q.size ≤ 10000 * r.dataDisks := by
  obtain ⟨L, hwidth, hL, hrow⟩ := r.exists_layout
  obtain ⟨k, hk⟩ := hchunk
  have htotal : k * L.blocksInStripe = 10000 * r.dataDisks := by
    rw [Layout.blocksInStripe, hwidth, hL, hk]
    ring
  have hlt : ∀ b, L.row b < 10000 ↔ b < 10000 * r.dataDisks := by
    intro b
    rw [← htotal, ← L.row_lt_mul_chunk_iff, hL, hk, Nat.mul_comm k]
  constructor
  · -- the last block has the last row
    intro hfits
    have hlast : q.addr + q.size - 1 ∈ q.blocks := Request.mem_blocks.mpr (by omega)
    obtain ⟨x, hx⟩ := (hrow (q.addr + q.size - 1)).1
    have hfit := hfits.blocks _ hlast x hx
    rw [(hrow _).2 x hx, hlt] at hfit
    omega
  · intro hle
    refine ⟨fun b hb x hx => ?_, fun _ hr hbehind => ?_⟩
    · have hlast := (Request.mem_blocks.mp hb).2
      rw [(hrow b).2 x hx, hlt]
      omega
    · -- no stripe is cut off
      obtain ⟨htwo, hcut, -⟩ := hbehind
      rw [dataDisks_of_hasParity hr, htwo] at hle
      have hstripe : (q.addr + q.size - 1) / r.chunkSize < k := by
        rw [Nat.div_lt_iff_lt_mul r.chunkSize_pos, Nat.mul_comm k, ← hk]
        omega
      have hend : ((q.addr + q.size - 1) / r.chunkSize + 1) * r.chunkSize ≤ k * r.chunkSize :=
        Nat.mul_le_mul_right _ hstripe
      rw [Nat.mul_comm k, ← hk] at hend
      omega

end Raid

/-! ## Runs -/

namespace Workload

variable {w : Workload} {r : Raid} {draws : ℕ → RandomDraw}

/-- All requests have the size of the workload. -/
theorem size_of_mem_requests {q : Request} (hq : q ∈ w.requests draws) : q.size = w.size := by
  have hall : ∀ n off k, ∀ q ∈ w.requestsFrom draws n off k, q.size = w.size := by
    intro n
    induction n with
    | zero => exact fun off k q hq => absurd hq List.not_mem_nil
    | succ n ih =>
      intro off k q hq
      rw [requestsFrom] at hq
      split at hq
      · rcases List.mem_cons.mp hq with rfl | hq
        · rfl
        · exact ih _ _ q hq
      · rcases List.mem_cons.mp hq with rfl | hq
        · rfl
        · exact ih _ _ q hq
  exact hall _ _ _ q hq

/-- Every access is to a disk of the array. -/
theorem disk_lt_of_mem_requests : ∀ io ∈ (w.requests draws).flatMap r.accesses,
    io.slot.1 < (List.replicate r.numDisks Disk.fresh).length := by
  intro io hio
  obtain ⟨q, -, hio⟩ := List.mem_flatMap.mp hio
  rw [List.length_replicate]
  exact r.disk_lt_of_mem_accesses q io hio

/-- The statistics are printed when all accesses have been carried out. -/
theorem main_eq_ok_iff : (∃ t lines, w.main r draws = .ok (t, lines))
    ↔ ∃ disks,
      performAll (List.replicate r.numDisks Disk.fresh) ((w.requests draws).flatMap r.accesses) = .ok disks := by
  rw [← r.serveAll_eq_performAll]
  constructor
  · rintro ⟨t, lines, hmain⟩
    obtain ⟨disks, hrun, -⟩ := Except.bind_eq_ok.mp hmain
    exact ⟨disks, hrun⟩
  · rintro ⟨disks, hrun⟩
    exact ⟨_, _, Except.bind_eq_ok.mpr ⟨disks, hrun, rfl⟩⟩

/-- A run completes when its requests fit. -/
theorem completes_iff_fits (hsize : 1 ≤ w.size) :
    (∃ t lines, w.main r draws = .ok (t, lines)) ↔ ∀ q ∈ w.requests draws, r.Fits q := by
  rw [main_eq_ok_iff]
  constructor
  · rintro ⟨disks, hrun⟩ q hq
    rw [← size_of_mem_requests hq] at hsize
    refine (Raid.fits_iff hsize).mpr fun io hio => lt_of_performAll hrun (fun d hd => ?_) io ?_
    · rw [List.eq_of_mem_replicate hd]
      exact Disk.blocksPerDisk_init
    · exact List.mem_flatMap.mpr ⟨q, hq, hio⟩
  · intro hfits
    refine exists_performAll disk_lt_of_mem_requests fun io hio d hd => ?_
    obtain ⟨q, hq, hio⟩ := List.mem_flatMap.mp hio
    rw [← size_of_mem_requests hq] at hsize
    rw [List.eq_of_mem_replicate hd]
    exact (Raid.fits_iff hsize).mp (hfits q hq) io hio

/-! ### The last block -/

/-- The number of the first block that no request reaches, whatever is drawn. -/
def reach (w : Workload) : ℕ :=
  if w.numRequests = 0 then 0
  else if w.workloadIsSequential then w.numRequests * w.size
  else w.range - 1 + w.size

/-- A sequential request ends within the blocks of the workload. -/
theorem end_le_of_mem_requestsFrom (hseq : w.workloadIsSequential = true) {n off k : ℕ} {q : Request}
    (hq : q ∈ w.requestsFrom draws n off k) : q.addr + q.size ≤ off + n * w.size := by
  induction n generalizing off k with
  | zero => exact absurd hq List.not_mem_nil
  | succ n ih =>
    rw [requestsFrom, if_pos hseq] at hq
    rw [Nat.succ_mul]
    rcases List.mem_cons.mp hq with rfl | hq
    · dsimp only
      omega
    · have hle := ih hq
      omega

/-- The last request of a sequential workload ends behind all blocks. -/
theorem exists_end_eq_of_sequential (hseq : w.workloadIsSequential = true) (n off k : ℕ) :
    ∃ q ∈ w.requestsFrom draws (n + 1) off k, q.addr + q.size = off + (n + 1) * w.size := by
  induction n generalizing off k with
  | zero =>
    rw [requestsFrom, if_pos hseq]
    exact ⟨_, List.mem_cons_self, by rw [Nat.zero_add, Nat.one_mul]⟩
  | succ n ih =>
    obtain ⟨q, hq, hend⟩ := ih (off + w.size) (k + 1)
    rw [requestsFrom, if_pos hseq]
    refine ⟨q, List.mem_cons_of_mem _ hq, ?_⟩
    rw [hend, Nat.succ_mul (n + 1)]
    omega

/-- A drawn block is within the range. -/
theorem floor_draw_le (x : RandomDraw) (n : ℕ) : ⌊(x : ℚ) * n⌋₊ ≤ n - 1 := by
  rcases Nat.eq_zero_or_pos n with rfl | hn
  · simp
  · have hlt : (x : ℚ) * n < n := by
      have hpos : (0 : ℚ) < n := by exact_mod_cast hn
      have hone := x.2.2
      nlinarith
    exact Nat.le_sub_one_of_lt ((Nat.floor_lt (mul_nonneg x.2.1 (Nat.cast_nonneg n))).mpr hlt)

/-- Some draw gives the last block of the range. -/
theorem exists_floor_draw_eq (n : ℕ) : ∃ x : RandomDraw, ⌊(x : ℚ) * n⌋₊ = n - 1 := by
  rcases Nat.eq_zero_or_pos n with rfl | hn
  · exact ⟨⟨0, by simp⟩, by simp⟩
  · have hpos : (0 : ℚ) < n := by exact_mod_cast hn
    have hlt : ((n - 1 : ℕ) : ℚ) < n := by exact_mod_cast Nat.sub_one_lt hn.ne'
    refine ⟨⟨(n - 1 : ℕ) / n, by positivity, (div_lt_one hpos).mpr hlt⟩, ?_⟩
    rw [div_mul_cancel₀ _ hpos.ne', Nat.floor_natCast]

/-- So a random request begins within the range. -/
theorem addr_le_of_mem_requestsFrom (hrand : w.workloadIsSequential = false) {n off k : ℕ} {q : Request}
    (hq : q ∈ w.requestsFrom draws n off k) : q.addr ≤ w.range - 1 := by
  induction n generalizing off k with
  | zero => exact absurd hq List.not_mem_nil
  | succ n ih =>
    rw [requestsFrom, hrand, if_neg Bool.false_ne_true] at hq
    rcases List.mem_cons.mp hq with rfl | hq
    · exact floor_draw_le _ _
    · exact ih hq

/-- No request goes beyond the reach. -/
theorem end_le_reach {q : Request} (hq : q ∈ w.requests draws) : q.addr + q.size ≤ w.reach := by
  have hsize := size_of_mem_requests hq
  unfold reach
  split
  · rename_i hnone
    rw [requests, hnone] at hq
    exact absurd hq List.not_mem_nil
  · split
    · rename_i hseq
      have hle := end_le_of_mem_requestsFrom hseq hq
      omega
    · rename_i hrand
      have hle := addr_le_of_mem_requestsFrom (Bool.eq_false_of_not_eq_true hrand) hq
      omega

/-- With some draws, a request goes up to the reach. -/
theorem exists_end_eq_reach (hsome : w.numRequests ≠ 0) :
    ∃ draws, ∃ q ∈ w.requests draws, q.addr + q.size = w.reach := by
  obtain ⟨n, hn⟩ := Nat.exists_eq_succ_of_ne_zero hsome
  obtain ⟨x, hx⟩ := exists_floor_draw_eq w.range
  unfold reach
  rw [if_neg hsome]
  split
  · rename_i hseq
    refine ⟨fun _ => x, ?_⟩
    obtain ⟨q, hq, hend⟩ := @exists_end_eq_of_sequential w (fun _ => x) hseq n 0 0
    refine ⟨q, ?_, ?_⟩
    · rw [requests, hn]
      exact hq
    · rw [hend, hn, Nat.zero_add]
  · rename_i hrand
    refine ⟨fun _ => x, ?_⟩
    rw [requests, hn, requestsFrom, if_neg hrand]
    exact ⟨_, List.mem_cons_self, by rw [hx]⟩

end Workload

/-- **A workload completes exactly when all its requests fit**; otherwise it stops with the assertion of a disk. -/
theorem completes_iff {w : Workload} {r : Raid} {draws : ℕ → RandomDraw} (hsize : 1 ≤ w.size) :
    ((∃ t lines, w.main r draws = .ok (t, lines)) ↔ ∀ q ∈ w.requests draws, r.Fits q)
      ∧ ((∃ t lines, w.main r draws = .ok (t, lines)) ∨ w.main r draws = .error .assertionError) := by
  refine ⟨Workload.completes_iff_fits hsize, ?_⟩
  rw [Workload.main_eq_ok_iff]
  refine (performAll_cases Workload.disk_lt_of_mem_requests).imp id fun hrun => ?_
  unfold Workload.main
  rw [r.serveAll_eq_performAll, hrun]
  rfl

/-- One write of nearly all blocks of a data disk. -/
def oneWrite : Workload where
  workloadIsSequential := true
  size := 9999
  numRequests := 1
  writeFrac := 1
  range := 10000

/-- With chunks of six blocks the last stripe is cut off, and the additive method reads the rest of it. -/
theorem completes_iff_oneWrite :
    oneWrite.main Raid.sixBlockChunks (fun _ => ⟨0, by simp⟩) = .error .assertionError := by
  obtain ⟨hiff, hstop⟩ := @completes_iff oneWrite Raid.sixBlockChunks (fun _ => ⟨0, by simp⟩) (by decide)
  refine hstop.resolve_left fun hdone => ?_
  have hmem : (⟨0, 9999, true⟩ : Request) ∈ oneWrite.requests fun _ => ⟨0, by simp⟩ := by
    simp [Workload.requests, Workload.requestsFrom, oneWrite]
  exact (hiff.mp hdone _ hmem).reads rfl (Or.inl rfl) (by decide)

/-- **Which workloads always complete**: where the chunks divide the disks, whatever is drawn, those whose reach is
within the data disks. -/
theorem always_completes_iff {w : Workload} {r : Raid} (hsize : 1 ≤ w.size) (hchunk : r.chunkSize ∣ 10000) :
    (∀ draws, ∃ t lines, w.main r draws = .ok (t, lines)) ↔ w.reach ≤ 10000 * r.dataDisks := by
  constructor
  · intro hall
    rcases Nat.eq_zero_or_pos w.numRequests with hnone | hsome
    · rw [Workload.reach, if_pos hnone]
      exact Nat.zero_le _
    · obtain ⟨draws, q, hq, hend⟩ := Workload.exists_end_eq_reach hsome.ne'
      have hfits := (Workload.completes_iff_fits hsize).mp (hall draws) q hq
      rw [← Workload.size_of_mem_requests hq] at hsize
      rw [← hend]
      exact (Raid.fits_iff_of_dvd hchunk hsize).mp hfits
  · intro hreach draws
    refine (Workload.completes_iff_fits hsize).mpr fun q hq => ?_
    have hend := Workload.end_le_reach hq
    rw [← Workload.size_of_mem_requests hq] at hsize
    exact (Raid.fits_iff_of_dvd hchunk hsize).mpr (hend.trans hreach)

/-- Ten random one-block requests on four mirrored disks that only have 20000 blocks. -/
def tooWide : Workload where
  workloadIsSequential := false
  size := 1
  numRequests := 10
  writeFrac := 0
  range := 20001

/-- One block of the range too many. -/
theorem always_completes_iff_tooWide :
    ¬ ∀ draws, ∃ t lines, tooWide.main (Raid.defaults .one) draws = .ok (t, lines) := by
  rw [always_completes_iff (by decide) (by decide)]
  decide

end Cs537
