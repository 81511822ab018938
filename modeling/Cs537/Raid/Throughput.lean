import Cs537.Raid.Capacity
import Cs537.Raid.Mirrors
import Cs537.Raid.Sequential
import Cs537.Raid.Workload

/-!
# Sequential workloads

The requests of a sequential workload follow one another, so that its accesses on a disk are those of one large
request. Where these follow one another too, the disk seeks once, and the statistics that `main` prints are known
beforehand.
-/

namespace Cs537

/-! ## The offsets on one disk -/

namespace Workload

variable {w : Workload} {r : Raid} {draws : ℕ → RandomDraw} {rank : ℕ → ℕ} {i : ℕ}

/-- If every request goes on where the one before it has ended on disk `i`, then so do all of them. -/
theorem offsetsOn_requestsFrom (hseq : w.workloadIsSequential = true) (hmono : Monotone rank)
    (hreq : ∀ m k, offsetsOn i (r.accesses ⟨m * w.size, w.size, (draws k : ℚ) < w.writeFrac⟩)
      = List.range' (rank (m * w.size)) (rank ((m + 1) * w.size) - rank (m * w.size))) (n m k : ℕ) :
    offsetsOn i ((w.requestsFrom draws n (m * w.size) k).flatMap r.accesses)
      = List.range' (rank (m * w.size)) (rank ((m + n) * w.size) - rank (m * w.size)) := by
  induction n generalizing m k with
  | zero =>
    rw [Nat.add_zero, Nat.sub_self]
    rfl
  | succ n ih =>
    have hnext : m * w.size + w.size = (m + 1) * w.size := (Nat.succ_mul _ _).symm
    have hfirst : rank (m * w.size) ≤ rank ((m + 1) * w.size) := hmono (Nat.mul_le_mul_right _ (Nat.le_succ m))
    have hrest : rank ((m + 1) * w.size) ≤ rank ((m + 1 + n) * w.size) :=
      hmono (Nat.mul_le_mul_right _ (Nat.le_add_right _ n))
    have hlast : m + (n + 1) = m + 1 + n := by omega
    unfold requestsFrom
    rw [if_pos hseq, List.flatMap_cons, offsetsOn_append, hreq, hnext, ih, hlast]
    have hjoin := List.range'_append_1 (s := rank (m * w.size))
      (m := rank ((m + 1) * w.size) - rank (m * w.size)) (n := rank ((m + 1 + n) * w.size) - rank ((m + 1) * w.size))
    rw [Nat.add_sub_cancel' hfirst] at hjoin
    rw [hjoin]
    congr 1
    omega

/-- All requests of the workload, from the first block on. -/
theorem offsetsOn_requests (hseq : w.workloadIsSequential = true) (hmono : Monotone rank) (hzero : rank 0 = 0)
    (hreq : ∀ m k, offsetsOn i (r.accesses ⟨m * w.size, w.size, (draws k : ℚ) < w.writeFrac⟩)
      = List.range' (rank (m * w.size)) (rank ((m + 1) * w.size) - rank (m * w.size))) :
    offsetsOn i ((w.requests draws).flatMap r.accesses) = List.range' 0 (rank (w.numRequests * w.size)) := by
  have hall := offsetsOn_requestsFrom (k := 0) hseq hmono hreq w.numRequests 0
  rw [Nat.zero_mul, Nat.zero_add, hzero, Nat.sub_zero] at hall
  exact hall

end Workload

namespace Raid

variable {r : Raid} {i : ℕ}

/-- The accesses of a request that has them. -/
theorem accesses_of_ok {q : Request} {ios : List Access} (h : r.enqueue q = .ok ios) : r.accesses q = ios := by
  rw [enqueue_eq_accesses] at h
  exact Except.ok.inj h

theorem accesses_zero (h : r.raidLevel = .zero) (q : Request) : r.accesses q = r.enqueue0 q := by
  apply accesses_of_ok
  unfold enqueue
  rw [h]

theorem accesses_one (h : r.raidLevel = .one) (q : Request) : r.accesses q = r.enqueue1 q := by
  apply accesses_of_ok
  unfold enqueue
  rw [h]

/-- The accesses of a block to its two mirrors. -/
theorem offsetsOn_mirrors (b d o i : ℕ) :
    offsetsOn i [Access.data .write b (2 * d, o), Access.data .write b (2 * d + 1, o)]
      = if d = i / 2 then [o] else [] := by
  have hlist : offsetsOn i [Access.data .write b (2 * d, o), Access.data .write b (2 * d + 1, o)]
      = ([((2 * d, o) : Slot), (2 * d + 1, o)].filter fun x => x.1 = i).map Prod.snd := rfl
  rw [hlist]
  simp only [List.filter_cons, List.filter_nil, decide_eq_true_eq]
  -- the two disks are `2 * d` and `2 * d + 1`
  by_cases hd : d = i / 2
  · rw [if_pos hd]
    by_cases hfirst : 2 * d = i
    · rw [if_pos hfirst, if_neg (by omega)]
      rfl
    · rw [if_neg hfirst, if_pos (by omega)]
      rfl
  · rw [if_neg hd, if_neg (by omega), if_neg (by omega)]
    rfl

/-- The offsets of mirrored writes on one disk are those of its pair. -/
theorem offsetsOn_flatMap_blocks (i : ℕ) (bs : List ℕ) (d o : ℕ → ℕ) :
    offsetsOn i (bs.flatMap fun b => [Access.data .write b (2 * d b, o b), Access.data .write b (2 * d b + 1, o b)])
      = (bs.filter fun b => d b = i / 2).map o := by
  induction bs with
  | nil => rfl
  | cons b bs ih =>
    rw [List.flatMap_cons, offsetsOn_append, ih, offsetsOn_mirrors, List.filter_cons]
    by_cases hd : d b = i / 2
    · rw [if_pos hd, if_pos (decide_eq_true hd)]
      rfl
    · rw [if_neg hd, if_neg (by rwa [decide_eq_true_eq])]
      rfl

/-- The offsets of a mirrored write, the same on both disks of a pair. -/
theorem offsetsOn_enqueue1_write (h : r.raidLevel = .one) {q : Request} (hwrite : q.isWrite = true)
    (hi : i / 2 < r.numDisks / 2) :
    let L := r.layout1 (r.pairs_pos h)
    offsetsOn i (r.enqueue1 q)
      = List.range' (L.rankOf (i / 2) q.addr) (L.rankOf (i / 2) (q.addr + q.size) - L.rankOf (i / 2) q.addr) := by
  intro L
  have hlist : r.enqueue1 q = q.blocks.flatMap fun b =>
      [Access.data .write b (2 * L.col b, L.row b), Access.data .write b (2 * L.col b + 1, L.row b)] := by
    unfold enqueue1
    rw [hwrite]
    rfl
  rw [hlist, offsetsOn_flatMap_blocks]
  refine (Ranges.map_filter_range' (L.rankOf (i / 2)) (fun v _ _ hcol => ?_) fun v _ _ => ?_).2
  · rw [← hcol]
    exact L.row_eq_rankOf v
  · exact L.rankOf_succ hi v

/-- RAID-4 has at least two disks. -/
theorem two_le_four (h : r.raidLevel = .four) : 2 ≤ r.numDisks := HasParity.two_le (.inl h)

/-- The layout of RAID 4. -/
theorem parityLayout_four (h : r.raidLevel = .four) : r.parityLayout (.inl h) = r.layout4 (two_le_four h) := if_pos h

/-- The offsets of a read of RAID 4 on a disk with data. -/
theorem offsetsOn_enqueue45_read (h : r.raidLevel = .four) (addr size : ℕ) :
    let L := r.layout4 (two_le_four h)
    (i < r.numDisks - 1 → offsetsOn i (r.accesses ⟨addr, size, false⟩)
      = List.range' (L.rankOf i addr) (L.rankOf i (addr + size) - L.rankOf i addr))
      ∧ (r.numDisks - 1 ≤ i → offsetsOn i (r.accesses ⟨addr, size, false⟩) = []) := by
  intro L
  have hlist : offsetsOn i (r.accesses ⟨addr, size, false⟩)
      = ((List.range' addr size).filter fun v => L.col v = i).map L.row := by
    have hios := (enqueue_eq_enqueue45 (.inl h) ⟨addr, size, false⟩).trans (enqueue45_read (.inl h) _ rfl)
    rw [parityLayout_four h] at hios
    rw [accesses_of_ok hios]
    unfold ParityAccess.dataOf
    rw [offsetsOn_data, Nat.add_sub_cancel_left]
    rfl
  rw [hlist]
  refine ⟨fun hi => ?_, fun hi => ?_⟩
  · refine (Ranges.map_filter_range' (L.rankOf i) (fun v _ _ hcol => ?_) fun v _ _ => ?_).2
    · rw [← hcol]
      exact L.row_eq_rankOf v
    · exact L.rankOf_succ hi v
  · rw [List.map_eq_nil_iff, List.filter_eq_nil_iff]
    intro v _ hcol
    have hlt : L.col v < r.numDisks - 1 := L.col_lt v
    rw [of_decide_eq_true hcol] at hlt
    omega

/-- The offsets of a write of whole stripes. -/
theorem offsetsOn_enqueue45_full (hr : r.HasParity) {addr size : ℕ} (hsize : 1 ≤ size) (ha : r.blocksInStripe ∣ addr)
    (hs : r.blocksInStripe ∣ size) (hi : i < r.numDisks) :
    offsetsOn i (r.accesses ⟨addr, size, true⟩)
      = List.range' (addr / (r.numDisks - 1)) (size / (r.numDisks - 1)) := by
  have hwidth : 0 < r.numDisks - 1 := r.width_pos_of_two_le hr.two_le
  have hdiv : ∀ n, r.blocksInStripe ∣ n → n / r.blocksInStripe * r.chunkSize = n / (r.numDisks - 1) := by
    rintro n ⟨m, rfl⟩
    rw [Nat.mul_div_cancel_left _ (blocksInStripe_pos hr), blocksInStripe, Nat.mul_assoc,
      Nat.mul_div_cancel_left _ hwidth, Nat.mul_comm]
  have hios : r.enqueue ⟨addr, size, true⟩ = .ok _ :=
    (enqueue_eq_enqueue45 hr _).trans (enqueue45_full hr hsize ha hs)
  rw [accesses_of_ok hios, ← hdiv addr ha, ← hdiv size hs, ← Ranges.flatMap_range'_mul, offsetsOn_flatMap]
  refine List.flatMap_congr fun s _ => ?_
  have hstripe := ParityAccess.offsetsOn_full (r.parityLayout hr) (s := s) (d := i) (by rwa [parityLayout_disks])
  rw [ParityAccess.readsOf_full, List.nil_append, parityLayout_blocksInStripe hr, parityLayout_chunk] at hstripe
  exact hstripe

/-- Every access is to a disk of the array. -/
theorem disk_lt_of_mem_accesses (r : Raid) (q : Request) : ∀ io ∈ r.accesses q, io.slot.1 < r.numDisks := by
  have hios := r.enqueue_eq_accesses q
  by_cases hr : r.HasParity
  · rw [enqueue_eq_enqueue45 hr] at hios
    exact disk_lt_of_mem_enqueue45 hr hios
  · intro io hio
    cases hlevel : r.raidLevel with
    | zero =>
      rw [accesses_zero hlevel] at hio
      obtain ⟨b, -, rfl⟩ := List.mem_map.mp hio
      exact r.layout0.slot_disk_lt b
    | one =>
      rw [accesses_one hlevel] at hio
      obtain ⟨b, -, hio⟩ := List.mem_flatMap.mp hio
      have heven := r.even_of_mirrored hlevel
      have hpair : (r.bmap1 b).1 + 1 < r.numDisks := by
        have hcol : (r.layout1 (r.pairs_pos hlevel)).col b < r.numDisks / 2 := (r.layout1 (r.pairs_pos hlevel)).col_lt b
        have hfirst : (r.bmap1 b).1 = 2 * (r.layout1 (r.pairs_pos hlevel)).col b := rfl
        omega
      -- a read goes to one disk of the pair, a write to both
      have hslot : io.slot.1 = (r.bmap1 b).1 ∨ io.slot.1 = (r.bmap1 b).1 + 1 := by
        dsimp only at hio
        split at hio
        · rcases List.mem_pair.mp hio with rfl | rfl
          · exact .inl rfl
          · exact .inr rfl
        · split at hio
          · exact .inl (congrArg (fun io : Access => io.slot.1) (List.mem_singleton.mp hio))
          · exact .inr (congrArg (fun io : Access => io.slot.1) (List.mem_singleton.mp hio))
      omega
    | four => exact absurd (Or.inl hlevel) hr
    | five => exact absurd (Or.inr hlevel) hr

end Raid

/-! ## Streams -/

/-- The workloads that stream, with the number of accesses on each disk. -/
inductive Workload.Streams (w : Workload) (r : Raid) : (ℕ → ℕ) → Prop
  /-- RAID 0, whatever is read or written. -/
  | striped (h : r.raidLevel = .zero) : Streams w r fun i => r.layout0.rankOf i (w.numRequests * w.size)
  /-- Writes of RAID 1. -/
  | mirrored (h : r.raidLevel = .one) (hwrite : 1 ≤ w.writeFrac) :
    Streams w r fun i => (r.layout1 (r.pairs_pos h)).rankOf (i / 2) (w.numRequests * w.size)
  /-- Reads of RAID 4, which leave the last disk alone. -/
  | parityReads (h : r.raidLevel = .four) (hread : w.writeFrac ≤ 0) :
    Streams w r fun i => if i < r.numDisks - 1
      then (r.layout4 (Raid.two_le_four h)).rankOf i (w.numRequests * w.size) else 0
  /-- Writes of whole stripes of RAID 4 and RAID 5. -/
  | stripeWrites (h : r.HasParity) (hwrite : 1 ≤ w.writeFrac) (hstripes : r.blocksInStripe ∣ w.size) :
    Streams w r fun _ => w.numRequests * w.size / (r.numDisks - 1)

namespace Workload

variable {w : Workload} {r : Raid} {draws : ℕ → RandomDraw} {share : ℕ → ℕ}

/-- With a write fraction of one or more, everything is a write. -/
theorem isWrite_eq_true (hwrite : 1 ≤ w.writeFrac) (d : RandomDraw) : decide ((d : ℚ) < w.writeFrac) = true :=
  decide_eq_true (d.2.2.trans_le hwrite)

/-- With a write fraction of zero or less, everything is a read. -/
theorem isWrite_eq_false (hread : w.writeFrac ≤ 0) (d : RandomDraw) : decide ((d : ℚ) < w.writeFrac) = false :=
  decide_eq_false (not_lt.mpr (hread.trans d.2.1))

/-- **The accesses on a disk follow one another.** -/
theorem Streams.offsetsOn (h : w.Streams r share) (hseq : w.workloadIsSequential = true) (hsize : 1 ≤ w.size) {i : ℕ}
    (hi : i < r.numDisks) : offsetsOn i ((w.requests draws).flatMap r.accesses) = List.range' 0 (share i) := by
  have hnext : ∀ m, (m + 1) * w.size = m * w.size + w.size := fun m => Nat.succ_mul m w.size
  cases h with
  | striped h =>
    refine offsetsOn_requests hseq (r.layout0.rankOf_mono hi) (r.layout0.rankOf_zero i) fun m k => ?_
    rw [Raid.accesses_zero h, r.offsetsOn_enqueue0 _ hi, hnext]
  | mirrored h hwrite =>
    have hpair : i / 2 < r.numDisks / 2 := by
      have heven := r.even_of_mirrored h
      omega
    refine offsetsOn_requests hseq ((r.layout1 (r.pairs_pos h)).rankOf_mono hpair)
      ((r.layout1 (r.pairs_pos h)).rankOf_zero (i / 2)) fun m k => ?_
    rw [Raid.accesses_one h, Raid.offsetsOn_enqueue1_write h (isWrite_eq_true hwrite (draws k)) hpair, hnext]
  | parityReads h hread =>
    dsimp only
    -- the parity disk is not read
    by_cases hdata : i < r.numDisks - 1
    · rw [if_pos hdata]
      refine offsetsOn_requests hseq ((r.layout4 (Raid.two_le_four h)).rankOf_mono hdata)
        ((r.layout4 (Raid.two_le_four h)).rankOf_zero i) fun m k => ?_
      rw [isWrite_eq_false hread, (Raid.offsetsOn_enqueue45_read h _ _).1 hdata, hnext]
    · rw [if_neg hdata]
      have hmono : Monotone fun _ : ℕ => 0 := fun _ _ _ => le_rfl
      refine offsetsOn_requests hseq hmono rfl fun m k => ?_
      rw [isWrite_eq_false hread, (Raid.offsetsOn_enqueue45_read h _ _).2 (not_lt.mp hdata)]
      rfl
  | stripeWrites h hwrite hstripes =>
    -- every disk takes its share of the data or the parity of every stripe
    have hmono : Monotone fun v => v / (r.numDisks - 1) := fun _ _ hle => Nat.div_le_div_right hle
    refine offsetsOn_requests hseq hmono (Nat.zero_div _) fun m k => ?_
    have hdvd : r.numDisks - 1 ∣ w.size := (Dvd.intro _ rfl).trans hstripes
    rw [isWrite_eq_true hwrite, Raid.offsetsOn_enqueue45_full h hsize (hstripes.mul_left m) hstripes hi, hnext,
      Nat.add_div_of_dvd_left hdvd, Nat.add_sub_cancel_left]

/-- The first disk has the most accesses, and at least one. -/
theorem Streams.share_le (h : w.Streams r share) (i : ℕ) : share i ≤ share 0 := by
  cases h with
  | striped h => exact (r.layout0.rankOf_le (Nat.zero_le i) _).1
  | mirrored h _ => exact ((r.layout1 (r.pairs_pos h)).rankOf_le (Nat.zero_le _) _).1
  | parityReads h _ =>
    dsimp only
    rw [if_pos (Nat.sub_pos_of_lt (Raid.two_le_four h))]
    split
    · exact ((r.layout4 (Raid.two_le_four h)).rankOf_le (Nat.zero_le i) _).1
    · exact Nat.zero_le _
  | stripeWrites _ _ _ => exact le_rfl

/-- The first disk has a block to hold. -/
theorem Streams.share_pos (h : w.Streams r share) (hsize : 1 ≤ w.size) (hnum : 1 ≤ w.numRequests) : 1 ≤ share 0 := by
  have htotal : 1 ≤ w.numRequests * w.size := Nat.mul_pos hnum hsize
  cases h with
  | striped h => exact r.layout0.rankOf_pos htotal
  | mirrored h _ => exact (r.layout1 (r.pairs_pos h)).rankOf_pos htotal
  | parityReads h _ =>
    dsimp only
    rw [if_pos (Nat.sub_pos_of_lt (Raid.two_le_four h))]
    exact (r.layout4 (Raid.two_le_four h)).rankOf_pos htotal
  | stripeWrites hr _ hstripes =>
    have hdvd : r.numDisks - 1 ∣ w.numRequests * w.size := ((Dvd.intro _ rfl).trans hstripes).mul_left _
    exact Nat.div_pos (Nat.le_of_dvd htotal hdvd) (r.width_pos_of_two_le hr.two_le)

end Workload

/-- Within the array, only a full disk stops a run. -/
theorem performAll_cases {disks : List Disk} {ios : List Access} (hdisk : ∀ io ∈ ios, io.slot.1 < disks.length) :
    (∃ disks', performAll disks ios = .ok disks') ∨ performAll disks ios = .error .assertionError := by
  induction ios generalizing disks with
  | nil => exact .inl ⟨disks, rfl⟩
  | cons io ios ih =>
    have hio := hdisk io List.mem_cons_self
    have hstep : performAll disks (io :: ios)
        = (disks[io.slot.1].enqueue io.slot.2).bind fun d' => performAll (disks.set io.slot.1 d') ios := by
      unfold performAll perform
      rw [List.foldlM_cons, List.getElem?_eq_getElem hio]
      dsimp only [bind, Except.bind]
      cases disks[io.slot.1].enqueue io.slot.2 <;> rfl
    rw [hstep]
    by_cases hcap : io.slot.2 < disks[io.slot.1].blocksPerDisk
    · obtain ⟨d', hd'⟩ := (Disk.enqueue_isOk_iff _ _).mpr hcap
      rw [hd']
      exact ih fun io' hio' => by
        rw [List.length_set]
        exact hdisk io' (List.mem_cons_of_mem io hio')
    · unfold Disk.enqueue
      rw [if_neg hcap]
      exact .inr rfl

/-- The line of a disk with `n` accesses that follow one another, where the busiest disk has `top`. -/
def streamLine (top n i : ℕ) : StatLine where
  disk := i
  format := if n = top then .total else if n = 0 then .zero else .other
  busy := if n = 0 then 0 else 100 * (100 + n) / (100 + top)
  countIO := n
  sequential := n - 1
  nearly := 0
  random := min n 1

/-- The line of a disk that holds `n` blocks in a row. -/
theorem statLine_served {top n : ℕ} (htop : 1 ≤ top) (i : ℕ) :
    statLine (10 + top / 10) (Disk.served 10 (1 / 10) 1 0 n) i = streamLine top n i := by
  have hpos : (0 : ℚ) < 10 + top / 10 := by positivity
  have hpos' : (0 : ℚ) < 100 + top := by positivity
  cases n with
  | zero =>
    show StatLine.mk i (if (0 : ℚ) = 10 + top / 10 then .total else if (0 : ℚ) = 0 then .zero else .other)
      (if (10 : ℚ) + top / 10 > 0 then 100 * 0 / (10 + top / 10) else 0) 0 0 0 0 = streamLine top 0 i
    unfold streamLine
    rw [if_neg hpos.ne, if_pos rfl, mul_zero, zero_div, ite_self, if_neg (by omega : ¬ 0 = top), if_pos rfl, if_pos rfl]
    rfl
  | succ n =>
    obtain ⟨hrand, hseq, hnseq, hutil⟩ := @Disk.served_sequential 10 (1 / 10) 0 (n + 1) (Nat.succ_pos n)
    have htotal : (10 : ℚ) + (n + 1 : ℕ) * (1 / 10) = 10 + top / 10 ↔ n + 1 = top := by
      rw [← Nat.cast_inj (R := ℚ)]
      constructor
      · intro heq
        linarith
      · intro heq
        rw [heq]
        ring
    have hzero : (10 : ℚ) + (n + 1 : ℕ) * (1 / 10) ≠ 0 := by positivity
    have hbusy : 100 * (10 + ((n + 1 : ℕ) : ℚ) * (1 / 10)) / (10 + top / 10)
        = 100 * (100 + (n + 1 : ℕ)) / (100 + top) := by
      field_simp
      ring
    unfold statLine streamLine
    rw [hutil, hrand, hseq, hnseq, Disk.countIO_served]
    simp only [htotal, if_neg hzero, if_neg (Nat.succ_ne_zero n), if_pos hpos, hbusy]
    congr 1
    omega

/-- No disk takes longer than the first one. -/
theorem utilTime_served_le {top n : ℕ} (h : n ≤ top) : (Disk.served 10 (1 / 10) 1 0 n).utilTime ≤ 10 + top / 10 := by
  have hle : (n : ℚ) ≤ top := by exact_mod_cast h
  cases n with
  | zero =>
    show (0 : ℚ) ≤ 10 + top / 10
    positivity
  | succ n =>
    rw [(Disk.served_sequential 0 (Nat.succ_pos n)).2.2.2]
    linarith

/-- **The statistics of a sequential workload.** A workload that streams stops with the assertion of a disk if the
first disk is to hold more than its blocks; otherwise it takes one seek and the transfers of the first disk, and
every access of a disk but its first one is sequential. -/
theorem sequential_throughput {w : Workload} {r : Raid} {draws : ℕ → RandomDraw} {share : ℕ → ℕ}
    (hseq : w.workloadIsSequential = true) (hsize : 1 ≤ w.size) (hnum : 1 ≤ w.numRequests) (h : w.Streams r share) :
    w.main r draws = if share 0 ≤ 10000
      then .ok (10 + share 0 / 10, (List.range r.numDisks).map fun i => streamLine (share 0) (share i) i)
      else .error .assertionError := by
  have hpos := h.share_pos hsize hnum
  have hoffs : ∀ i < r.numDisks, offsetsOn i ((w.requests draws).flatMap r.accesses) = List.range' 0 (share i) :=
    fun i hi => h.offsetsOn hseq hsize hi
  have hdisk : ∀ io ∈ (w.requests draws).flatMap r.accesses, io.slot.1 < r.numDisks := by
    intro io hio
    obtain ⟨q, -, hio⟩ := List.mem_flatMap.mp hio
    exact r.disk_lt_of_mem_accesses q io hio
  have hmain : w.main r draws = (performAll (List.replicate r.numDisks Disk.fresh)
      ((w.requests draws).flatMap r.accesses)).bind fun disks => .ok (go disks, stats (go disks) disks) := by
    unfold Workload.main
    rw [r.serveAll_eq_performAll]
    rfl
  rw [hmain]
  split
  · -- every disk holds the first blocks of its share, one after the other
    rename_i hfits
    have hcap : ∀ io ∈ (w.requests draws).flatMap r.accesses, io.slot.2 < Disk.fresh.blocksPerDisk := by
      intro io hio
      have hmem : io.slot.2 ∈ offsetsOn io.slot.1 ((w.requests draws).flatMap r.accesses) :=
        Components.mem_opsAt.mpr (List.mem_map_of_mem hio)
      rw [hoffs _ (hdisk io hio)] at hmem
      have hlt := (List.mem_range'_1.mp hmem).2
      have hle := h.share_le io.slot.1
      rw [Nat.zero_add] at hlt
      show io.slot.2 < 10000
      omega
    have hrun := performAll_streams (o := fun _ => 0) one_pos (by omega) hdisk hcap hoffs
    -- the first disk has the largest share
    have hgo : go ((List.range r.numDisks).map fun i => Disk.served 10 (1 / 10) 1 0 (share i)) = 10 + share 0 / 10 := by
      refine go_eq ?_ (fun d hd => ?_) (by positivity)
      · refine ⟨_, List.mem_map_of_mem (List.mem_range.mpr r.numDisks_pos), ?_⟩
        rw [(Disk.served_sequential 0 hpos).2.2.2]
        ring
      · obtain ⟨i, -, rfl⟩ := List.mem_map.mp hd
        exact utilTime_served_le (h.share_le i)
    show (performAll (List.replicate r.numDisks (Disk.init 10 (1 / 10))) _).bind _ = _
    rw [hrun]
    show Except.ok (go _, stats (go _) _) = _
    rw [hgo]
    congr 2
    unfold stats
    apply List.ext_getElem?
    intro i
    rw [List.getElem?_mapIdx, List.getElem?_map, List.getElem?_map, Option.map_map]
    cases hi : (List.range r.numDisks)[i]? with
    | none => rfl
    | some j =>
      obtain rfl : j = i := by
        have hj := List.getElem?_eq_some_iff.mp hi
        rw [← hj.2, List.getElem_range]
      exact congrArg some (statLine_served hpos j)
  · -- the first disk would have to hold a block behind its last one
    rename_i hfull
    have hmem : 10000 ∈ offsetsOn 0 ((w.requests draws).flatMap r.accesses) := by
      rw [hoffs 0 r.numDisks_pos]
      exact List.mem_range'_1.mpr ⟨Nat.zero_le _, by omega⟩
    obtain ⟨io, hio, heq⟩ := List.mem_map.mp (Components.mem_opsAt.mp hmem)
    have hdisk' : ∀ io ∈ (w.requests draws).flatMap r.accesses,
        io.slot.1 < (List.replicate r.numDisks Disk.fresh).length := by
      rwa [List.length_replicate]
    have hcap : ∀ d ∈ List.replicate r.numDisks Disk.fresh, d.blocksPerDisk = 10000 := fun d hd => by
      rw [List.eq_of_mem_replicate hd]
      exact Disk.blocksPerDisk_init
    rcases performAll_cases hdisk' with ⟨disks, hrun⟩ | hrun
    · have hlt := lt_of_performAll hrun hcap io hio
      rw [heq] at hlt
      exact absurd hlt (lt_irrefl _)
    · rw [hrun]
      rfl

/-- The first disk of four gets two of five blocks. -/
theorem sequential_throughput_fiveBlocks :
    fiveBlocks.main (Raid.defaults .zero) (fun _ => ⟨0, by decide⟩)
      = .ok (10 + 2 / 10, [streamLine 2 2 0, streamLine 2 1 1, streamLine 2 1 2, streamLine 2 1 3]) := by
  have hstreams : fiveBlocks.Streams (Raid.defaults .zero) _ := .striped rfl
  have hrun := @sequential_throughput fiveBlocks (Raid.defaults .zero) (fun _ => ⟨0, by decide⟩) _ rfl (by decide)
    (by decide) hstreams
  rw [if_pos (by decide)] at hrun
  exact hrun

end Cs537
