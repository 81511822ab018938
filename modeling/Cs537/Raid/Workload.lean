import Mathlib.Data.Rat.Floor
import Mathlib.Order.Interval.Set.Basic
import Cs537.Raid.DiskTime
import Cs537.Raid.Split

/-!
# The workload and its statistics

The rest of `main` in `raid.py`: it draws the requests and hands them to the array, takes the time of the busiest
disk for that of the workload, and prints a line of statistics for every disk. The lines are modelled by what they
show, and the mapping mode, which stops before them, is left out. Times are exact here. `raid.py` adds up floats, whose
rounding can tell disks apart that are equally busy.
-/

namespace Cs537

/-! ## The program -/

/-- A result of `random.random()`. -/
abbrev RandomDraw := Set.Ico (0 : ℚ) 1

/-- What the loop of `main` reads. `size` is in blocks, `writeFrac` in parts of one. -/
structure Workload where
  workloadIsSequential : Bool
  size : ℕ
  numRequests : ℕ
  writeFrac : ℚ
  range : ℕ

/-- The requests that are still to be generated, with `off` as in the source and the draws from the `k`-th one on. -/
def Workload.requestsFrom (w : Workload) (draws : ℕ → RandomDraw) : ℕ → ℕ → ℕ → List Request
  | 0, _, _ => []
  | n + 1, off, k =>
    if w.workloadIsSequential then
      { addr := off, size := w.size, isWrite := (draws k : ℚ) < w.writeFrac }
        :: w.requestsFrom draws n (off + w.size) (k + 1)
    else
      { addr := ⌊(draws k : ℚ) * w.range⌋₊, size := w.size, isWrite := (draws (k + 1) : ℚ) < w.writeFrac }
        :: w.requestsFrom draws n off (k + 2)

/-- The requests that `main` generates. -/
def Workload.requests (w : Workload) (draws : ℕ → RandomDraw) : List Request :=
  w.requestsFrom draws w.numRequests 0 0

/-- The calls of `raid.enqueue`. -/
def Raid.serveAll (r : Raid) (disks : List Disk) (qs : List Request) : Except PyError (List Disk) :=
  qs.foldlM r.serve disks

/-- `raid.go`: the time of the busiest disk. -/
def go (disks : List Disk) : ℚ := disks.foldl (fun tmax d => if d.utilTime > tmax then d.utilTime else tmax) 0

/-- The three formats of a line, which differ in the blanks behind `busy:`. -/
inductive BusyFormat
  | total
  | zero
  | other
  deriving DecidableEq, Repr

/-- A line of `raid.stats`. -/
structure StatLine where
  disk : ℕ
  format : BusyFormat
  busy : ℚ
  countIO : ℕ
  sequential : ℕ
  nearly : ℕ
  random : ℕ
  deriving DecidableEq

/-- The line of a disk, in exact arithmetic. On floats the first test holds for a disk with the largest sum and may
fail for another one that is as busy, when its accesses have been added in another order: on two disks the reads of
blocks 5, 9, 7, 6 and 0 give sums of 10.4 and 10.399999999999999. -/
def statLine (totalTime : ℚ) (d : Disk) (i : ℕ) : StatLine where
  disk := i
  format := if d.utilTime = totalTime then .total else if d.utilTime = 0 then .zero else .other
  busy := if totalTime > 0 then 100 * d.utilTime / totalTime else 0
  countIO := d.countIO
  sequential := d.countSeq
  nearly := d.countNseq
  random := d.countRand

/-- `raid.stats`. -/
def stats (totalTime : ℚ) (disks : List Disk) : List StatLine := disks.mapIdx fun i d => statLine totalTime d i

/-- `main` in timing mode, with the array that the options describe: the total time and the lines. -/
def Workload.main (w : Workload) (r : Raid) (draws : ℕ → RandomDraw) : Except PyError (ℚ × List StatLine) := do
  let disks ← r.serveAll (List.replicate r.numDisks Disk.fresh) (w.requests draws)
  return (go disks, stats (go disks) disks)

/-! ## The counters of a disk -/

namespace Disk

/-- What the counters of a default disk say about its time: a random access costs a seek and a transfer, a
sequential one a transfer, and one nearby less than a track of transfers. The first access is random. -/
structure Counted (d : Disk) : Prop where
  default : d.Default
  count : d.countIO = d.countSeq + d.countNseq + d.countRand
  fresh : d.countIO = 0 → d.currAddr = -10000
  random : d.countIO ≠ 0 → 0 < d.countRand
  le : (d.countSeq : ℚ) / 10 + 101 / 10 * d.countRand ≤ d.utilTime
  ge : d.utilTime ≤ (d.countSeq : ℚ) / 10 + 99 / 10 * d.countNseq + 101 / 10 * d.countRand

variable {d d' : Disk}

/-- A fresh disk has nothing on its books. -/
theorem fresh_counted : fresh.Counted := by
  refine ⟨fresh_default, rfl, fun _ => rfl, fun h => absurd rfl h, ?_, ?_⟩ <;> norm_num [fresh, init]

/-- The counter that an access moves, and its time. -/
theorem Default.enqueue_counts (h : d.Default) {addr : ℕ} (henq : d.enqueue addr = .ok d') :
    d'.countIO = d.countIO + 1 ∧ d'.currAddr = addr ∧
      ((|(addr : ℤ) - d.currAddr| = 1 ∧ d'.countSeq = d.countSeq + 1 ∧ d'.countNseq = d.countNseq
          ∧ d'.countRand = d.countRand ∧ d'.utilTime = d.utilTime + 1 / 10)
        ∨ (|(addr : ℤ) - d.currAddr| < 100 ∧ d'.countSeq = d.countSeq ∧ d'.countNseq = d.countNseq + 1
          ∧ d'.countRand = d.countRand ∧ d'.utilTime = d.utilTime + |(addr : ℤ) - d.currAddr| * (1 / 10))
        ∨ (100 ≤ |(addr : ℤ) - d.currAddr| ∧ d'.countSeq = d.countSeq ∧ d'.countNseq = d.countNseq
          ∧ d'.countRand = d.countRand + 1 ∧ d'.utilTime = d.utilTime + 101 / 10)) := by
  obtain ⟨-, hhead, htime⟩ := h.enqueue henq
  have hnear := h.near_iff addr
  obtain ⟨-, -, htracks, hblocks, -⟩ := h
  -- the distance is computed with a test of its sign
  have habs : (if (addr : ℤ) - d.currAddr < 0 then -((addr : ℤ) - d.currAddr) else (addr : ℤ) - d.currAddr)
      = |(addr : ℤ) - d.currAddr| := by
    rw [abs_eq_max_neg]
    split <;> omega
  refine ⟨(enqueue_eq_ok henq).2.2, hhead, ?_⟩
  unfold Disk.enqueue at henq
  rw [if_pos (enqueue_eq_ok henq).1] at henq
  simp only [habs, htracks, hblocks, Nat.cast_ofNat] at henq hnear
  simp only [hnear] at henq
  unfold accessTime at htime
  split at henq
  · rename_i hlt
    rw [if_pos hlt] at htime
    split at henq
    · -- the next block
      rename_i hone
      refine .inl ⟨hone, ?_⟩
      rw [htime, hone]
      cases henq
      exact ⟨rfl, rfl, rfl, by norm_num⟩
    · -- a block on the way
      refine .inr (.inl ⟨hlt, ?_⟩)
      rw [htime]
      cases henq
      exact ⟨rfl, rfl, rfl, rfl⟩
  · -- a track or more away: the head seeks
    rename_i hge
    rw [if_neg hge] at htime
    refine .inr (.inr ⟨not_lt.mp hge, ?_⟩)
    rw [htime]
    cases henq
    exact ⟨rfl, rfl, rfl, by norm_num⟩

/-- **An access keeps the books.** -/
theorem Counted.enqueue (h : d.Counted) {addr : ℕ} (henq : d.enqueue addr = .ok d') : d'.Counted := by
  obtain ⟨hio, hhead, hcases⟩ := h.default.enqueue_counts henq
  have hdefault := (h.default.enqueue henq).1
  have hcount := h.count
  have hle := h.le
  have hge := h.ge
  rcases hcases with ⟨hone, hseq, hnseq, hrand, htime⟩ | ⟨hlt, hseq, hnseq, hrand, htime⟩
    | ⟨hfar, hseq, hnseq, hrand, htime⟩
  · -- the next block: the head has been placed before, by a random access
    have hrandom : d.countIO ≠ 0 := fun hzero => by
      rw [h.fresh hzero] at hone
      rw [abs_of_nonneg (by omega)] at hone
      omega
    have hpos := h.random hrandom
    refine ⟨hdefault, by omega, fun hzero => by omega, fun _ => by omega, ?_, ?_⟩
    · rw [hseq, hrand, htime, Nat.cast_succ]
      linarith
    · rw [hseq, hnseq, hrand, htime, Nat.cast_succ]
      linarith
  · -- a nearby block takes less than a track, and the same block no time
    have hrandom : d.countIO ≠ 0 := fun hzero => by
      rw [h.fresh hzero] at hlt
      rw [abs_of_nonneg (by omega)] at hlt
      omega
    have hpos := h.random hrandom
    have hnonneg : (0 : ℚ) ≤ |(addr : ℤ) - d.currAddr| := by exact_mod_cast abs_nonneg ((addr : ℤ) - d.currAddr)
    have hbound : ((|(addr : ℤ) - d.currAddr| : ℤ) : ℚ) ≤ 99 := by exact_mod_cast Int.le_of_lt_add_one hlt
    push_cast at hnonneg hbound htime
    refine ⟨hdefault, by omega, fun hzero => by omega, fun _ => by omega, ?_, ?_⟩
    · rw [hseq, hrand, htime]
      linarith
    · rw [hseq, hnseq, hrand, htime, Nat.cast_succ]
      linarith
  · -- a seek and a transfer
    refine ⟨hdefault, by omega, fun hzero => by omega, fun _ => by omega, ?_, ?_⟩
    · rw [hseq, hrand, htime, Nat.cast_succ]
      linarith
    · rw [hseq, hnseq, hrand, htime, Nat.cast_succ]
      linarith

/-- A disk without accesses is the only one that has not been busy. -/
theorem Counted.utilTime_eq_zero_iff (h : d.Counted) : d.utilTime = 0 ↔ d.countIO = 0 := by
  have hle := h.le
  have hge := h.ge
  constructor
  · intro hzero
    by_contra hne
    have hrand : (1 : ℚ) ≤ d.countRand := by exact_mod_cast h.random hne
    have hseq : (0 : ℚ) ≤ d.countSeq := Nat.cast_nonneg _
    linarith
  · intro hzero
    have hcount := h.count
    have hseq : d.countSeq = 0 := by omega
    have hnseq : d.countNseq = 0 := by omega
    have hrand : d.countRand = 0 := by omega
    rw [hseq, hrand] at hle
    rw [hseq, hnseq, hrand] at hge
    norm_num at hle hge
    exact le_antisymm hge hle

/-- No disk has been busy for a negative time. -/
theorem Counted.utilTime_nonneg (h : d.Counted) : 0 ≤ d.utilTime := by
  have hseq : (0 : ℚ) ≤ d.countSeq := Nat.cast_nonneg _
  have hrand : (0 : ℚ) ≤ d.countRand := Nat.cast_nonneg _
  have hle := h.le
  linarith

end Disk

/-! ## Runs -/

namespace Raid

variable (r : Raid)

/-- The configuration has a mapping for every request. -/
theorem exists_enqueue (q : Request) : ∃ ios, r.enqueue q = .ok ios := by
  cases hlevel : r.raidLevel with
  | zero => exact ⟨r.enqueue0 q, by unfold enqueue; rw [hlevel]⟩
  | one => exact ⟨r.enqueue1 q, by unfold enqueue; rw [hlevel]⟩
  | four | five =>
    have hr : r.HasParity := by
      unfold HasParity
      simp only [hlevel, or_true, true_or]
    rw [enqueue_eq_enqueue45 hr]
    cases hw : q.isWrite with
    | true => exact ⟨_, enqueue45_write hr q hw⟩
    | false => exact ⟨_, enqueue45_read hr q hw⟩

/-- The accesses of a request. -/
def accesses (q : Request) : List Access := (r.enqueue q).toOption.getD []

/-- Every request has its accesses. -/
theorem enqueue_eq_accesses (q : Request) : r.enqueue q = .ok (r.accesses q) := by
  obtain ⟨ios, hios⟩ := r.exists_enqueue q
  unfold accesses
  rw [hios]
  rfl

/-- The array performs the accesses of all requests. -/
theorem serveAll_eq_performAll (disks : List Disk) (qs : List Request) :
    r.serveAll disks qs = performAll disks (qs.flatMap r.accesses) := by
  induction qs generalizing disks with
  | nil => rfl
  | cons q qs ih =>
    have hserve : r.serve disks q = performAll disks (r.accesses q) := by
      unfold serve
      rw [enqueue_eq_accesses]
      rfl
    rw [List.flatMap_cons, performAll_append, ← hserve]
    show r.serve disks q >>= (fun disks' => r.serveAll disks' qs) = _
    exact congrArg (r.serve disks q >>= ·) (funext fun disks' => ih disks')

end Raid

/-- An access keeps the books of every disk. -/
theorem perform_counted {disks disks' : List Disk} {io : Access} (h : perform disks io = .ok disks')
    (hdisks : ∀ d ∈ disks, d.Counted) : ∀ d ∈ disks', d.Counted := by
  rw [perform_eq_stepAt] at h
  obtain ⟨d, d', hd, hserve, rfl⟩ := Components.stepAt_eq_ok.mp h
  intro e he
  rcases List.mem_or_eq_of_mem_set he with hmem | rfl
  · exact hdisks e hmem
  · exact (hdisks d (List.mem_of_getElem? hd)).enqueue hserve

/-- **Every run keeps the books of every disk.** -/
theorem Raid.serveAll_counted {r : Raid} {disks disks' : List Disk} {qs : List Request}
    (h : r.serveAll disks qs = .ok disks') (hdisks : ∀ d ∈ disks, d.Counted) : ∀ d ∈ disks', d.Counted := by
  rw [r.serveAll_eq_performAll] at h
  exact Except.foldlM_invariant (fun disks => ∀ d ∈ disks, d.Counted)
    (fun _ _ _ _ hstep ht => perform_counted hstep ht) h hdisks

/-- The time of the workload is the largest of the times. -/
theorem go_eq_foldl_max (disks : List Disk) : go disks = disks.foldl (fun t d => max t d.utilTime) 0 := by
  unfold go
  congr 1
  funext t d
  rw [max_def]
  split <;> split <;> linarith

/-- What the largest number of a list is: an upper bound, and one of them unless it is the first. -/
theorem le_foldl_max (disks : List Disk) (t : ℚ) :
    t ≤ disks.foldl (fun t d => max t d.utilTime) t
      ∧ (∀ d ∈ disks, d.utilTime ≤ disks.foldl (fun t d => max t d.utilTime) t)
      ∧ (disks.foldl (fun t d => max t d.utilTime) t = t
        ∨ ∃ d ∈ disks, d.utilTime = disks.foldl (fun t d => max t d.utilTime) t) := by
  induction disks generalizing t with
  | nil => exact ⟨le_rfl, nofun, .inl rfl⟩
  | cons d disks ih =>
    rw [List.foldl_cons]
    obtain ⟨hle, hall, hex⟩ := ih (max t d.utilTime)
    refine ⟨(le_max_left _ _).trans hle, ?_, ?_⟩
    · intro e he
      rcases List.mem_cons.mp he with rfl | he
      · exact (le_max_right _ _).trans hle
      · exact hall e he
    · rcases hex with heq | ⟨e, he, heq⟩
      · rw [heq]
        rcases max_choice t d.utilTime with hmax | hmax
        · exact .inl hmax
        · exact .inr ⟨d, List.mem_cons_self, hmax.symm⟩
      · exact .inr ⟨e, List.mem_cons_of_mem d he, heq⟩

section

variable {disks : List Disk} {d : Disk}

theorem go_nonneg (disks : List Disk) : 0 ≤ go disks := by
  rw [go_eq_foldl_max]
  exact (le_foldl_max disks 0).1

/-- No disk takes longer than the workload. -/
theorem utilTime_le_go (hd : d ∈ disks) : d.utilTime ≤ go disks := by
  rw [go_eq_foldl_max]
  exact (le_foldl_max disks 0).2.1 d hd

/-- Some disk takes all the time. -/
theorem exists_utilTime_eq_go (hpos : 0 < go disks) : ∃ d ∈ disks, d.utilTime = go disks := by
  rw [go_eq_foldl_max] at hpos ⊢
  exact (le_foldl_max disks 0).2.2.resolve_left hpos.ne'

/-- How to tell the time of a workload. -/
theorem go_eq {t : ℚ} (hex : ∃ d ∈ disks, d.utilTime = t) (hle : ∀ d ∈ disks, d.utilTime ≤ t) (hpos : 0 ≤ t) :
    go disks = t := by
  obtain ⟨d, hd, hutil⟩ := hex
  apply le_antisymm
  · rcases (go_nonneg disks).eq_or_lt with hzero | hgo
    · rwa [← hzero]
    · obtain ⟨e, he, heq⟩ := exists_utilTime_eq_go hgo
      rw [← heq]
      exact hle e he
  · rw [← hutil]
    exact utilTime_le_go hd

end

/-! ## The statistics -/

/-- What a line says about its disk, when the workload has taken `t`. -/
structure StatLine.Sound (t : ℚ) (line : StatLine) : Prop where
  count : line.countIO = line.sequential + line.nearly + line.random
  percentage : 0 ≤ line.busy ∧ line.busy ≤ 100
  /-- The time behind the percentage, from the counters. -/
  time : (line.sequential : ℚ) / 10 + 101 / 10 * line.random ≤ line.busy / 100 * t
    ∧ line.busy / 100 * t ≤ (line.sequential : ℚ) / 10 + 99 / 10 * line.nearly + 101 / 10 * line.random
  /-- The first format is for disks that are busy all the time, though rounding may deny it to some of them. -/
  total : 0 < t → line.format = .total → line.busy = 100
  zero : 0 < t → (line.format = .zero ↔ line.countIO = 0)

/-- **The line of a disk is sound.** -/
theorem statLine_sound {t : ℚ} {d : Disk} (hd : d.Counted) (hle : d.utilTime ≤ t) (i : ℕ) :
    (statLine t d i).Sound t := by
  have hnonneg := hd.utilTime_nonneg
  have hzero := hd.utilTime_eq_zero_iff
  rcases (hnonneg.trans hle).eq_or_lt with rfl | hpos
  · -- nothing has been accessed
    have hutil : d.utilTime = 0 := le_antisymm hle hnonneg
    have hbusy : (statLine 0 d i).busy = 0 := by
      show (if (0 : ℚ) > 0 then 100 * d.utilTime / 0 else 0) = 0
      rw [if_neg (lt_irrefl _)]
    refine ⟨hd.count, ?_, ?_, fun h => absurd h (lt_irrefl _), fun h => absurd h (lt_irrefl _)⟩
    · rw [hbusy]
      norm_num
    · rw [mul_zero, ← hutil]
      exact ⟨hd.le, hd.ge⟩
  · -- the percentage is a share of the time of the workload
    have hbusy : (statLine t d i).busy = 100 * d.utilTime / t := if_pos hpos
    have htime : (statLine t d i).busy / 100 * t = d.utilTime := by
      rw [hbusy]
      field_simp
    refine ⟨hd.count, ?_, ?_, fun _ htotal => ?_, fun _ => ?_⟩
    · rw [hbusy, le_div_iff₀ hpos, div_le_iff₀ hpos]
      constructor <;> linarith
    · rw [htime]
      exact ⟨hd.le, hd.ge⟩
    · have hutil : d.utilTime = t := by
        by_contra hne
        unfold statLine at htotal
        dsimp only at htotal
        rw [if_neg hne] at htotal
        split at htotal <;> cases htotal
      rw [hbusy, hutil, mul_div_cancel_right₀ _ hpos.ne']
    · -- the second format is the one of the disks with a sum of zero, which no access leaves
      show _ ↔ d.countIO = 0
      rw [← hzero]
      unfold statLine
      dsimp only
      split
      · rename_i heq
        exact iff_of_false nofun (heq.trans_ne hpos.ne')
      · split
        · rename_i heq
          exact iff_of_true rfl heq
        · rename_i hne
          exact iff_of_false nofun hne

/-- **The statistics of a workload are consistent**, whatever is drawn: a line for every disk, whose counters add up
and bound its time; the accesses of all requests are counted; some disk is busy all the time and is shown so, unless
there is no access at all. -/
theorem stats_consistent {w : Workload} {r : Raid} {draws : ℕ → RandomDraw} {t : ℚ} {lines : List StatLine}
    (h : w.main r draws = .ok (t, lines)) :
    lines.length = r.numDisks
      ∧ (∀ line ∈ lines, line.Sound t)
      ∧ (∃ calls, (w.requests draws).mapM r.enqueue = .ok calls
        ∧ (lines.map StatLine.countIO).sum = calls.flatten.length)
      ∧ (0 < t → ∃ line ∈ lines, line.busy = 100 ∧ line.format = .total)
      ∧ (t = 0 ↔ ∀ line ∈ lines, line.countIO = 0) := by
  obtain ⟨disks, hrun, heq⟩ := Except.bind_eq_ok.mp h
  obtain ⟨rfl, rfl⟩ : go disks = t ∧ stats (go disks) disks = lines := by
    cases heq
    exact ⟨rfl, rfl⟩
  have hcounted : ∀ d ∈ disks, d.Counted := Raid.serveAll_counted hrun fun d hd => by
    rw [List.eq_of_mem_replicate hd]
    exact Disk.fresh_counted
  -- every line is that of a disk, and every disk has one
  have hmem : ∀ line ∈ stats (go disks) disks, ∃ d ∈ disks, ∃ i, line = statLine (go disks) d i := by
    intro line hline
    obtain ⟨i, hi, rfl⟩ := List.mem_mapIdx.mp hline
    exact ⟨disks[i], List.getElem_mem hi, i, rfl⟩
  have hline : ∀ d ∈ disks, ∃ line ∈ stats (go disks) disks, ∃ i, line = statLine (go disks) d i := by
    intro d hd
    obtain ⟨i, hi, rfl⟩ := List.getElem_of_mem hd
    exact ⟨_, List.mem_mapIdx.mpr ⟨i, hi, rfl⟩, i, rfl⟩
  have hcounts : (stats (go disks) disks).map StatLine.countIO = disks.map Disk.countIO := by
    apply List.ext_getElem?
    intro i
    simp only [stats, List.getElem?_map, List.getElem?_mapIdx, Option.map_map]
    rfl
  have hserved := hrun
  rw [r.serveAll_eq_performAll] at hserved
  refine ⟨?_, fun line hmemline => ?_, ⟨(w.requests draws).map r.accesses, ?_, ?_⟩, fun hpos => ?_, ?_, ?_⟩
  · unfold stats
    rw [List.length_mapIdx, (performAll_eq_ok.mp hserved).2.1, List.length_replicate]
  · obtain ⟨d, hd, i, rfl⟩ := hmem line hmemline
    exact statLine_sound (hcounted d hd) (utilTime_le_go hd) i
  · rw [funext r.enqueue_eq_accesses]
    exact List.mapM_pure
  · have hfresh : ((List.replicate r.numDisks Disk.fresh).map Disk.countIO).sum = 0 := by
      rw [List.map_replicate]
      exact List.sum_eq_zero fun n hn => List.eq_of_mem_replicate hn
    rw [hcounts, countIO_performAll hserved, hfresh, zero_add, List.flatMap_def]
  · -- the disk that takes all the time
    obtain ⟨d, hd, hutil⟩ := exists_utilTime_eq_go hpos
    obtain ⟨line, hmemline, i, rfl⟩ := hline d hd
    refine ⟨_, hmemline, ?_, if_pos hutil⟩
    show (if go disks > 0 then 100 * d.utilTime / go disks else 0) = 100
    rw [if_pos hpos, hutil, mul_div_cancel_right₀ _ hpos.ne']
  · intro hzero line hmemline
    obtain ⟨d, hd, i, rfl⟩ := hmem line hmemline
    have hle := utilTime_le_go hd
    rw [hzero] at hle
    exact (hcounted d hd).utilTime_eq_zero_iff.mp (le_antisymm hle (hcounted d hd).utilTime_nonneg)
  · intro hall
    by_contra hne
    obtain ⟨d, hd, hutil⟩ := exists_utilTime_eq_go ((go_nonneg disks).lt_of_ne' hne)
    obtain ⟨line, hmemline, i, rfl⟩ := hline d hd
    refine hne ?_
    rw [← hutil]
    exact (hcounted d hd).utilTime_eq_zero_iff.mpr (hall _ hmemline)

/-- Five blocks, one after the other, over the four disks of the default array. -/
def fiveBlocks : Workload where
  workloadIsSequential := true
  size := 1
  numRequests := 5
  writeFrac := 0
  range := 10000

/-- The first disk is the busiest one. -/
theorem stats_consistent_fiveBlocks :
    ∃ lines, fiveBlocks.main (Raid.defaults .zero) (fun _ => ⟨0, by decide⟩) = .ok (51 / 5, lines)
      ∧ lines.length = 4 ∧ ∃ line ∈ lines, line.busy = 100 ∧ line.format = .total := by
  obtain ⟨lines, hrun⟩ : ∃ lines,
      fiveBlocks.main (Raid.defaults .zero) (fun _ => ⟨0, by decide⟩) = .ok (51 / 5, lines) := by
    refine ⟨stats (51 / 5) ((List.range 4).map fun i => Disk.served 10 (1 / 10) 1 0 (if i = 0 then 2 else 1)), ?_⟩
    decide +kernel
  obtain ⟨hlength, -, -, hbusy, -⟩ := stats_consistent hrun
  exact ⟨lines, hrun, hlength, hbusy (by norm_num)⟩

end Cs537
