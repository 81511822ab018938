import Cs537.Graphics.FullStripe
import Cs537.Graphics.Inputs
import Cs537.Graphics.Trace

/-!
# Which blocks RAID-4 writes reach

A request marked as part of a full stripe, and not as its last one, is meant to write data only. But
`DoRaid4Scheduling` gives it to the first of its two disks that looks at it. When that is the parity disk, the
data block is never written. And where the triple runs over two rows, or a row has only such requests, nobody
writes the parity of the row. The scheduler serves the disks in order, so that the parity disk gets such a request
only while its data disk is busy.
-/

namespace Cs537.Graphics

/-- The RAID-4 parity disk. -/
def parityDisk : Disk := 3

variable {c : Config}

/-- The data disk of a RAID-4 request. -/
def Config.dataDisk (c : Config) (i : c.Index) : Disk := Fin.ofNat 4 ((c.request i).logicalAddress % 3)

/-- A full-stripe write that leaves the parity to another request. -/
def Config.LeavesParity (c : Config) (i : c.Index) : Prop :=
  (c.request i).opType = .write ∧ (c.request i).fullStripeWrite = true
    ∧ (c.request i).fullStripeWriteParity = false

instance (i : c.Index) : Decidable (c.LeavesParity i) := inferInstanceAs (Decidable (_ ∧ _ ∧ _))

namespace Core

/-- Every write has reached its data disk, and where it has, a request of the row has written the parity. -/
structure WritesArrive (s : Core c) : Prop where
  data : ∀ i, (c.request i).opType = .write → .write ∈ s.performedOn i (c.dataDisk i)
  parity : ∀ i, (c.request i).opType = .write → .write ∈ s.performedOn i (c.dataDisk i) →
    ∃ j, (c.request j).physOffset = (c.request i).physOffset ∧ .write ∈ s.performedOn j parityDisk

/-- The parity disk has not taken a request that leaves the parity to another one. -/
def ParityDiskWaits (s : Core c) : Prop :=
  ∀ i, c.LeavesParity i → Event.mk .start parityDisk i .write ∉ s.log

end Core

instance (s : Core c) : Decidable s.ParityDiskWaits :=
  inferInstanceAs (Decidable (∀ i, c.LeavesParity i → _ ∉ s.log))

/-- The row of every write has a write that does not leave the parity to another request. -/
def Config.RowsCovered (c : Config) : Prop :=
  ∀ i, (c.request i).opType = .write →
    ∃ j, (c.request j).opType = .write ∧ ¬ c.LeavesParity j
      ∧ (c.request j).physOffset = (c.request i).physOffset

instance (c : Config) : Decidable c.RowsCovered :=
  inferInstanceAs (Decidable (∀ _ : c.Index, _ → ∃ _ : c.Index, _))

/-! ## Kinds of RAID-4 requests -/

namespace Config

variable {i : c.Index}

/-- The first disk of a RAID-4 request is its data disk, the second one the parity disk. -/
theorem diskIndex_raid4 (h : c.mapping = .raid4) (i : c.Index) :
    (c.request i).diskIndex (c.dataDisk i) = some 0 ∧ (c.request i).diskIndex parityDisk = some 1 := by
  have hlist : (c.request i).physDiskList = [c.dataDisk i, parityDisk] := by
    rw [c.physDiskList_eq, h]
    rfl
  rw [c.diskIndex_eq_some_iff, c.diskIndex_eq_some_iff, hlist]
  exact ⟨rfl, rfl⟩

theorem kind_of_read (h : c.mapping = .raid4) (hop : (c.request i).opType = .read) : c.kind i = .parityRead := by
  unfold kind Request.kind
  rw [h, hop]

theorem kind_of_leavesParity (h : c.mapping = .raid4) (hleaves : c.LeavesParity i) :
    c.kind i = .stripeData := by
  obtain ⟨hop, hfull, hparity⟩ := hleaves
  unfold kind Request.kind
  rw [h, hop, hfull, hparity]
  rfl

/-- What kinds the other writes are. -/
theorem kind_of_not_leavesParity (h : c.mapping = .raid4) (hop : (c.request i).opType = .write)
    (hnot : ¬ c.LeavesParity i) : c.kind i = .smallWrite ∨ c.kind i = .stripeParity := by
  unfold kind Request.kind
  rw [h, hop]
  cases hfull : (c.request i).fullStripeWrite with
  | false => exact .inl rfl
  | true =>
    cases hparity : (c.request i).fullStripeWriteParity with
    | false => exact absurd ⟨hop, hfull, hparity⟩ hnot
    | true => exact .inr rfl

end Config

/-! ## What a complete request has written -/

namespace Core

variable {s : Core c} {i : c.Index}

/-- Any other write is performed on both disks. -/
theorem Served.write_both (h : c.mapping = .raid4) (hserved : s.Served i) (hop : (c.request i).opType = .write)
    (hnot : ¬ c.LeavesParity i) :
    .write ∈ s.performedOn i (c.dataDisk i) ∧ .write ∈ s.performedOn i parityDisk := by
  obtain ⟨hdata, hparity⟩ := c.diskIndex_raid4 h i
  obtain ⟨ops, hops, hperformed⟩ := hserved
  rw [hperformed, hperformed, hdata, hparity]
  rcases c.kind_of_not_leavesParity h hop hnot with hkind | hkind
  · rw [hkind, Kind.outcomes, List.mem_singleton] at hops
    rw [hops]
    decide
  · rw [hkind, Kind.outcomes, List.mem_singleton] at hops
    rw [hops]
    decide

/-- A write that leaves the parity to another request is performed on one of its disks. -/
theorem Served.write_one (h : c.mapping = .raid4) (hserved : s.Served i) (hleaves : c.LeavesParity i) :
    .write ∈ s.performedOn i (c.dataDisk i) ↔ .write ∉ s.performedOn i parityDisk := by
  obtain ⟨hdata, hparity⟩ := c.diskIndex_raid4 h i
  obtain ⟨ops, hops, hperformed⟩ := hserved
  rw [hperformed, hperformed, hdata, hparity]
  rw [c.kind_of_leavesParity h hleaves, Kind.outcomes, List.mem_cons, List.mem_singleton] at hops
  rcases hops with rfl | rfl
  · decide
  · decide

/-- A read writes nothing. -/
theorem Served.read (h : c.mapping = .raid4) (hserved : s.Served i) (hwrite : .write ∈ s.performedOn i parityDisk) :
    (c.request i).opType = .write := by
  obtain ⟨-, hparity⟩ := c.diskIndex_raid4 h i
  obtain ⟨ops, hops, hperformed⟩ := hserved
  cases hop : (c.request i).opType with
  | write => rfl
  | read =>
    rw [c.kind_of_read h hop, Kind.outcomes, List.mem_singleton] at hops
    rw [hperformed, hparity, hops] at hwrite
    cases hwrite

end Core

/-! ## When the parity disk takes such a request -/

namespace Core

variable {s t : Core c} {i : c.Index}

/-- The state in which the scheduler comes to the parity disk, which is the last one. -/
def dataScheduled (s : Core c) : Core c := ([0, 1, 2] : List Disk).foldl scheduleDisk s

/-- The parity disk is idle and the first request that has anything for it is `i`, whose data disk is busy. -/
structure Tempted (s : Core c) (i : c.Index) : Prop where
  idle : s.serving parityDisk = none
  busy : s.serving (c.dataDisk i) ≠ none
  eligible : s.Eligible i
  waiting : s.status i 1 = .notStarted
  first : ∀ j < i, (c.request j).doScheduling c.mapping (s.status j) parityDisk = none

instance (s : Core c) (i : c.Index) : Decidable (s.Tempted i) :=
  decidable_of_iff (s.serving parityDisk = none ∧ s.serving (c.dataDisk i) ≠ none ∧ s.Eligible i
      ∧ s.status i 1 = .notStarted ∧ ∀ j < i, (c.request j).doScheduling c.mapping (s.status j) parityDisk = none)
    ⟨fun ⟨h1, h2, h3, h4, h5⟩ => ⟨h1, h2, h3, h4, h5⟩, fun ⟨h1, h2, h3, h4, h5⟩ => ⟨h1, h2, h3, h4, h5⟩⟩

/-- The scheduler keeps the accounts, disk by disk. -/
theorem Inv.scheduleDisk (h : s.Inv) (d : Disk) : (s.scheduleDisk d).Inv := by
  rcases s.scheduleDisk_cases d with ⟨heq, -⟩ | ⟨i, op, status, htakes, heq⟩
  · rwa [heq]
  · rw [heq]
    exact h.start htakes.idle htakes.schedule

/-- The data disks of a call are served with the accounts kept. -/
theorem Inv.dataScheduled (h : s.Inv) : s.dataScheduled.Inv := ((h.scheduleDisk 0).scheduleDisk 1).scheduleDisk 2

/-- The loop of a data disk starts nothing on the parity disk. -/
theorem start_mem_scheduleDisk {d : Disk} (hd : d ≠ parityDisk) :
    Event.mk .start parityDisk i .write ∈ (s.scheduleDisk d).log ↔ Event.mk .start parityDisk i .write ∈ s.log := by
  rcases s.scheduleDisk_cases d with ⟨heq, -⟩ | ⟨j, op, status, -, heq⟩
  · rw [heq]
  · rw [heq]
    show _ ∈ s.log ++ [Event.mk .start d j op] ↔ _
    rw [List.mem_append, List.mem_singleton]
    refine or_iff_left fun hev => hd ?_
    cases hev
    rfl

theorem start_mem_dataScheduled :
    Event.mk .start parityDisk i .write ∈ s.dataScheduled.log ↔ Event.mk .start parityDisk i .write ∈ s.log := by
  show _ ∈ (((s.scheduleDisk 0).scheduleDisk 1).scheduleDisk 2).log ↔ _
  rw [start_mem_scheduleDisk (by decide), start_mem_scheduleDisk (by decide), start_mem_scheduleDisk (by decide)]

/-- Of a full-stripe write that leaves the parity to another request, either no entry has been touched or both. -/
theorem Inv.first_waits (hmapping : c.mapping = .raid4) (h : s.Inv) (hleaves : c.LeavesParity i)
    (hwaits : s.status i 1 = .notStarted) : s.status i 0 = .notStarted := by
  have hlocals := h.locals i
  rw [c.kind_of_leavesParity hmapping hleaves] at hlocals
  have hall : ∀ x ∈ Kind.stripeData.locals, (x 1).status = .notStarted → (x 0).status = .notStarted := by decide
  exact hall _ hlocals hwaits

/-- The marked requests that the parity disk takes first. -/
theorem takesFirst_parityDisk_iff (hmapping : c.mapping = .raid4) (h : s.Inv) (hleaves : c.LeavesParity i)
    (hquiet : s.QuietOn (c.dataDisk i)) : (∃ status, s.TakesFirst parityDisk i .write status) ↔ s.Tempted i := by
  obtain ⟨hdata, hparity⟩ := c.diskIndex_raid4 hmapping i
  have hschedule : (c.request i).doScheduling c.mapping (s.status i) parityDisk
      = Kind.stripeData.start (s.status i) 1 := by
    rw [c.doScheduling_eq, hparity, ← c.kind_of_leavesParity hmapping hleaves]
    rfl
  constructor
  · rintro ⟨status, htakes⟩
    have hwaits : s.status i 1 = .notStarted := by
      by_contra hne
      have hsome := htakes.schedule
      rw [hschedule, (Kind.start_eq_none_iff (k := .stripeData) (e := 1)).mpr hne] at hsome
      cases hsome
    refine ⟨htakes.idle, fun hidle => ?_, htakes.eligible, hwaits, htakes.first⟩
    -- an idle data disk would have taken the request when it was its turn
    have hnone := hquiet i hidle htakes.eligible
    rw [c.doScheduling_eq, hdata] at hnone
    exact Kind.start_ne_none (h.first_waits hmapping hleaves hwaits) hnone
  · intro htempted
    have hsome : Kind.stripeData.start (s.status i) 1
        = some (.write, ((s.status i).set 1 .doWrite).set (1 - 1) .done) := if_pos htempted.waiting
    exact ⟨_, htempted.idle, htempted.eligible, hschedule.trans hsome, htempted.first⟩

/-- **The scheduler gives the parity disk a write that leaves the parity to another request exactly when the data
disk is busy**, and no request ahead of it has anything for the parity disk. -/
theorem start_mem_scheduleDisks_iff (hmapping : c.mapping = .raid4) (h : s.Inv) (hleaves : c.LeavesParity i) :
    Event.mk .start parityDisk i .write ∈ s.scheduleDisks.log
      ↔ Event.mk .start parityDisk i .write ∈ s.log ∨ s.dataScheduled.Tempted i := by
  have hdisk : c.dataDisk i ∈ ([0, 1, 2] : List Disk) := by
    have hall : ∀ n < 3, Fin.ofNat 4 n ∈ ([0, 1, 2] : List Disk) := by decide
    exact hall _ (Nat.mod_lt _ (by decide))
  have hquiet : s.dataScheduled.QuietOn (c.dataDisk i) := foldl_scheduleDisk_quietOn s hdisk
  rw [← start_mem_dataScheduled (s := s), ← takesFirst_parityDisk_iff hmapping h.dataScheduled hleaves hquiet]
  show _ ∈ (s.dataScheduled.scheduleDisk parityDisk).log ↔ _
  rcases s.dataScheduled.scheduleDisk_cases parityDisk with ⟨heq, hnone⟩ | ⟨j, op, status, htakes, heq⟩
  · rw [heq]
    refine (or_iff_left ?_).symm
    rintro ⟨status, htakes⟩
    cases htakes.schedule.symm.trans (hnone i htakes.idle htakes.eligible)
  · rw [heq]
    show _ ∈ s.dataScheduled.log ++ [Event.mk .start parityDisk j op] ↔ _
    rw [List.mem_append, List.mem_singleton]
    refine or_congr_right ⟨fun hev => ?_, fun ⟨status', htakes'⟩ => ?_⟩
    · cases hev
      exact ⟨status, htakes⟩
    · obtain ⟨rfl, rfl⟩ := htakes'.unique htakes
      rfl

/-- The requests that `GetNextIOs` gives to the parity disk though they leave the parity to another one. -/
def misplaced (s : Core c) : List c.Index :=
  if s.requestCount = c.requestCountNeeded then []
  else (List.finRange _).filter fun i => c.LeavesParity i ∧ s.dataScheduled.Tempted i

/-- **One call of `GetNextIOs`.** -/
theorem parityDiskWaits_getNextIOs (hmapping : c.mapping = .raid4) (h : s.Inv) (hnext : s.getNextIOs = some t) :
    t.ParityDiskWaits ↔ s.ParityDiskWaits ∧ s.misplaced = [] := by
  unfold misplaced
  rcases getNextIOs_eq_some_iff.mp hnext with ⟨hcount, -, rfl⟩ | ⟨hcount, rfl⟩
  · rw [if_pos hcount]
    exact (and_iff_left rfl).symm
  · rw [if_neg hcount, List.filter_eq_nil_iff]
    have hnot : ∀ i, c.LeavesParity i → (Event.mk .start parityDisk i .write ∉ s.scheduleDisks.log
        ↔ Event.mk .start parityDisk i .write ∉ s.log ∧ ¬ s.dataScheduled.Tempted i) := fun i hleaves => by
      rw [start_mem_scheduleDisks_iff hmapping h hleaves, not_or]
    constructor
    · intro hwaits
      refine ⟨fun i hleaves => ((hnot i hleaves).mp (hwaits i hleaves)).1, fun i _ htaken => ?_⟩
      obtain ⟨hleaves, htempted⟩ := of_decide_eq_true htaken
      exact ((hnot i hleaves).mp (hwaits i hleaves)).2 htempted
    · rintro ⟨hwaits, hnone⟩ i hleaves
      refine (hnot i hleaves).mpr ⟨hwaits i hleaves, fun htempted => ?_⟩
      exact hnone i (List.mem_finRange i) (decide_eq_true ⟨hleaves, htempted⟩)

/-- Every call of a run: the requests that go to the parity disk when the I/O of a disk ends. -/
def misplacedAt (s : Core c) (d : Disk) : List c.Index := (s.finish d).elim [] misplaced

/-- **Whole runs**: what the log says about the parity disk is what the scheduler has seen, call by call. -/
theorem parityDiskWaits_run (hmapping : c.mapping = .raid4) {ds : List Disk} (hs : (untimed c).Reachable s)
    (hrun : (untimed c).run ds s = some t) :
    t.ParityDiskWaits ↔ s.ParityDiskWaits ∧ (untimed c).trace misplacedAt ds s = [] := by
  induction ds generalizing s with
  | nil =>
    cases hrun
    exact (and_iff_left rfl).symm
  | cons d ds ih =>
    obtain ⟨u, hstep, hrest⟩ := Option.bind_eq_some_iff.mp hrun
    obtain ⟨v, hfinish, hnext⟩ := Option.bind_eq_some_iff.mp hstep
    obtain ⟨i, op, status, done, hfinishes, rfl⟩ := exists_served hfinish
    have hlog : (s.served d i op status done).ParityDiskWaits ↔ s.ParityDiskWaits := by
      refine forall_congr' fun j => imp_congr_right fun _ => not_congr ?_
      show _ ∈ s.log ++ [Event.mk .finish d i op] ↔ _
      rw [List.mem_append, List.mem_singleton]
      exact or_iff_left nofun
    have hinv := (reachable_inv hs).finishes hfinishes
    have htrace : (untimed c).trace misplacedAt (d :: ds) s
        = (s.served d i op status done).misplaced ++ (untimed c).trace misplacedAt ds u := by
      show (s.finish d).elim [] misplaced ++ ((untimed c).step d s).elim [] _ = _
      rw [hfinish, hstep]
      rfl
    rw [ih (hs.step hstep) hrest, parityDiskWaits_getNextIOs hmapping hinv hnext, hlog, htrace,
      List.append_eq_nil_iff, and_assoc]

end Core

/-! ## Where the writes arrive -/

/-- **Where RAID-4 writes arrive**: in a completed run, every write has reached its data disk with the parity
of its row written exactly when the parity disk has never taken a request that leaves the parity to another
one, and every row has a write that does not. -/
theorem raid4_writesArrive_iff (c : Config) (h : c.mapping = .raid4) (s : Core c)
    (hs : (untimed c).Reachable s) (hdone : s.logicalRequests = c.addr.length) :
    s.WritesArrive ↔ s.ParityDiskWaits ∧ c.RowsCovered := by
  have hinv := Core.reachable_inv hs
  have hall := hinv.logical_iff.mp hdone
  have hseq := Core.reachable_sequential hs
  have hserved : ∀ i, s.Served i := fun i => hinv.served (hall i)
  have hflight : ∀ i d, s.flightOn i d = none := by
    intro i d
    exact Core.flightOn_of_idle (hinv.idle_of_allComplete hall d)
  -- nothing is under way any more, so that what was started was performed
  have hwaits : s.ParityDiskWaits ↔ ∀ i, c.LeavesParity i → .write ∉ s.performedOn i parityDisk := by
    constructor
    · exact fun hwaits i hleaves hmem => hwaits i hleaves (hseq.start_mem hmem)
    · exact fun hnot i hleaves hev => hnot i hleaves (hseq.performed_of_start hev (hflight i parityDisk))
  rw [hwaits]
  constructor
  · intro harrive
    have hnot : ∀ i, c.LeavesParity i → .write ∉ s.performedOn i parityDisk := fun i hleaves =>
      ((hserved i).write_one h hleaves).mp (harrive.data i hleaves.1)
    refine ⟨hnot, fun i hop => ?_⟩
    obtain ⟨j, hrow, hwrite⟩ := harrive.parity i hop (harrive.data i hop)
    exact ⟨j, (hserved j).read h hwrite, fun hleaves => hnot j hleaves hwrite, hrow⟩
  · rintro ⟨hnot, hcovered⟩
    refine ⟨fun i hop => ?_, fun i hop _ => ?_⟩
    · by_cases hleaves : c.LeavesParity i
      · exact ((hserved i).write_one h hleaves).mpr (hnot i hleaves)
      · exact ((hserved i).write_both h hop hleaves).1
    · obtain ⟨j, hop', hleaves, hrow⟩ := hcovered i hop
      exact ⟨j, hrow, ((hserved j).write_both h hop' hleaves).2⟩

/-- The writes of the full stripe arrive. -/
theorem writesArrive_writeThenRead :
    ∃ s : Core writeThenRead, (untimed writeThenRead).Reachable s ∧ s.WritesArrive := by
  have hrun : (run writeThenRead 60).any (fun s => s.logicalRequests = 4 ∧ s.core.ParityDiskWaits) = true := by
    decide +kernel
  obtain ⟨s, hs, h⟩ := (Option.any_eq_true _ _).mp hrun
  obtain ⟨hdone, hwaits⟩ := of_decide_eq_true h
  have hreachable := (reached_of_run hs).reachable
  exact ⟨s.core, hreachable,
    (raid4_writesArrive_iff writeThenRead rfl s.core hreachable hdone).mpr ⟨hwaits, by decide⟩⟩

/-- A full stripe and three reads ahead of it, all on the first disk. -/
def readsAhead : Config :=
  .ofArgs .raid4 [(0, .read), (3, .read), (6, .read), (0, .write), (1, .write), (2, .write)] 20 (-1) (by decide)

/-- While the first disk reads, the parity disk takes the write of block 0: the run ends with all requests done,
and block 0 has not been written. -/
theorem readsAhead_not_writesArrive :
    ∃ n s, run readsAhead n = some s ∧ s.isDone = true ∧ s.logicalRequests = readsAhead.addr.length
      ∧ ¬ s.core.WritesArrive := by
  have hrun : (run readsAhead 40).any (fun s => s.isDone = true ∧ s.logicalRequests = 6
      ∧ .write ∉ s.core.performedOn ⟨3, by decide⟩ 0) = true := by
    decide +kernel
  obtain ⟨s, hs, h⟩ := (Option.any_eq_true _ _).mp hrun
  obtain ⟨hdone, hlogical, hnot⟩ := of_decide_eq_true h
  exact ⟨40, s, hs, hdone, hlogical, fun harrive => hnot (harrive.data ⟨3, by decide⟩ (by decide))⟩

end Cs537.Graphics
