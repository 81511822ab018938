import Cs537.Graphics.ServiceTime

/-!
# Striped requests, disk by disk

With striping, every request has one I/O, on the disk of its block. If the window covers the queue, the disks do not
wait for each other: each of them works through its own requests, in the order of the queue, and starts the next one
in the tick in which it ends the one before. `OnTime` says where a disk is after a number of ticks.
-/

namespace Cs537.Graphics

variable {c : Config}

/-! ## The work of a disk -/

namespace Config

/-- The row of a request. -/
def row (c : Config) (i : c.Index) : ℕ := (c.request i).physOffset

/-- The requests of a disk. -/
def queueOf (c : Config) (d : Disk) : List c.Index :=
  (List.finRange c.requestQueue.length).filter fun i => (c.request i).logicalAddress % 4 = (d : ℕ)

/-- The ticks of an I/O on a row, behind one on the row `last`. -/
def ioTicks (c : Config) (last : Option ℕ) (r : ℕ) : ℕ :=
  c.seekTicks (last.getD 0) r + if r = last.elim 0 (· + 1) then 1 else 10

/-- The ticks of I/Os that follow each other. -/
def workTicks (c : Config) : Option ℕ → List c.Index → ℕ
  | _, [] => 0
  | last, i :: rest => c.ioTicks last (c.row i) + c.workTicks (some (c.row i)) rest

/-- The ticks of the first `k` requests of a disk. -/
def ticksBefore (c : Config) (d : Disk) (k : ℕ) : ℕ := c.workTicks none ((c.queueOf d).take k)

/-- The ticks of all requests of a disk. -/
def diskTicks (c : Config) (d : Disk) : ℕ := c.workTicks none (c.queueOf d)

/-- The queue of a disk holds the requests for it. -/
theorem mem_queueOf {d : Disk} {i : c.Index} : i ∈ c.queueOf d ↔ (c.request i).logicalAddress % 4 = (d : ℕ) := by
  unfold queueOf
  rw [List.mem_filter, decide_eq_true_iff]
  exact and_iff_right (List.mem_finRange i)

theorem nodup_queueOf (c : Config) (d : Disk) : (c.queueOf d).Nodup := (List.nodup_finRange _).filter _

/-- The work of one request more. -/
theorem workTicks_concat (last : Option ℕ) (jobs : List c.Index) (i : c.Index) :
    c.workTicks last (jobs ++ [i])
      = c.workTicks last jobs + c.ioTicks ((jobs.getLast?.map c.row).or last) (c.row i) := by
  induction jobs generalizing last with
  | nil => exact Nat.add_comm ..
  | cons j jobs ih =>
    have hlast : (((j :: jobs).getLast?.map c.row).or last) = ((jobs.getLast?.map c.row).or (some (c.row j))) := by
      cases jobs with
      | nil => rfl
      | cons k jobs => simp only [List.getLast?_cons, Option.map_some, Option.some_or,
        Option.getD_some]
    show c.ioTicks last (c.row j) + c.workTicks (some (c.row j)) (jobs ++ [i]) = _ + _
    rw [ih, hlast, ← Nat.add_assoc]
    rfl

/-- Part of the work takes no more ticks than all of it. -/
theorem workTicks_take_le (last : Option ℕ) (jobs : List c.Index) (k : ℕ) :
    c.workTicks last (jobs.take k) ≤ c.workTicks last jobs := by
  induction jobs generalizing last k with
  | nil => rw [List.take_nil]
  | cons i jobs ih =>
    cases k with
    | zero => exact Nat.zero_le _
    | succ k => exact Nat.add_le_add_left (ih (some (c.row i)) k) _

theorem ticksBefore_le_diskTicks (c : Config) (d : Disk) (k : ℕ) : c.ticksBefore d k ≤ c.diskTicks d :=
  workTicks_take_le none (c.queueOf d) k

theorem ticksBefore_mono (c : Config) (d : Disk) {j k : ℕ} (h : j ≤ k) : c.ticksBefore d j ≤ c.ticksBefore d k := by
  have hle := workTicks_take_le none ((c.queueOf d).take k) j
  rwa [List.take_take, min_eq_left h] at hle

/-- Every I/O takes a tick at least. -/
theorem ioTicks_pos (c : Config) (last : Option ℕ) (r : ℕ) : 0 < c.ioTicks last r := by
  unfold ioTicks
  split <;> omega

end Config

/-- The events of I/Os that follow each other on a disk. -/
def jobLog (d : Disk) (jobs : List c.Index) : List (Event c) :=
  jobs.flatMap fun i => [⟨.start, d, i, (c.request i).opType⟩, ⟨.finish, d, i, (c.request i).opType⟩]

section

variable {d : Disk} {k : ℕ}

/-- The log of one request more. -/
theorem jobLog_concat (jobs : List c.Index) (i : c.Index) :
    jobLog d (jobs ++ [i])
      = jobLog d jobs ++ [⟨.start, d, i, (c.request i).opType⟩] ++ [⟨.finish, d, i, (c.request i).opType⟩] := by
  unfold jobLog
  rw [List.flatMap_append, List.append_assoc]
  rfl

/-- The last request that a log has served. -/
theorem lastServed_jobLog (jobs : List c.Index) : lastServed (jobLog d jobs) = jobs.getLast? := by
  induction jobs using List.reverseRecOn with
  | nil => rfl
  | append_singleton jobs i =>
    rw [jobLog_concat, lastServed_finish, List.getLast?_concat]

/-- The ticks of the next request depend on the row of the one before it. -/
theorem serviceTicks_jobLog (jobs : List c.Index) (i : c.Index) :
    serviceTicks (jobLog d jobs) i = c.ioTicks (jobs.getLast?.map c.row) (c.row i) := by
  unfold serviceTicks headRow nextRow lastRow
  rw [lastServed_jobLog]
  rfl

/-- The next request of the queue of a disk. -/
theorem take_succ_queueOf (h : k < (c.queueOf d).length) :
    (c.queueOf d).take (k + 1) = (c.queueOf d).take k ++ [(c.queueOf d)[k]] := by
  rw [List.take_add_one, List.getElem?_eq_getElem h]
  rfl

/-- The ticks before the request after it. -/
theorem ticksBefore_succ (h : k < (c.queueOf d).length) :
    c.ticksBefore d (k + 1)
      = c.ticksBefore d k + serviceTicks (jobLog d ((c.queueOf d).take k)) (c.queueOf d)[k] := by
  unfold Config.ticksBefore
  rw [take_succ_queueOf h, Config.workTicks_concat, serviceTicks_jobLog, Option.or_none]

/-- All of the queue takes all of the ticks. -/
theorem ticksBefore_length (c : Config) (d : Disk) : c.ticksBefore d (c.queueOf d).length = c.diskTicks d := by
  unfold Config.ticksBefore
  rw [List.take_length]
  rfl

end

namespace State

variable {s t : State c} {d d' : Disk} {i : c.Index} {op : OpType} {status : Statuses} {j k n m : ℕ}

/-! ## The end of an I/O -/

/-- What a tick does to the disk `d`, and what it leaves alone. -/
structure Ticks (d : Disk) (s t : State c) : Prop where
  self : t.drive d = (s.drive d).tick d
  other : ∀ d', d' ≠ d → t.drive d' = s.drive d'
  startTime : t.startTime = s.startTime
  timer : t.timer = s.timer

/-- The request `i` is done. -/
structure Ended (i : c.Index) (s t : State c) : Prop where
  other : ∀ j, j ≠ i → t.status j = s.status j
  self : s.status i 0 ≠ .notStarted → t.status i 0 ≠ .notStarted
  latencyTotal : t.latencyTotal = s.latencyTotal + (s.timer - s.startTime i)

/-- A striped request that has been started stays so when it is done. -/
theorem requestLevel0Done_ne (status : Statuses) (e : Fin 2) (h : status 0 ≠ .notStarted) :
    (Request.requestLevel0Done status e).1 0 ≠ .notStarted := by
  unfold Request.requestLevel0Done
  split
  · show (if 0 = e then ReqStatus.done else status 0) ≠ .notStarted
    split
    · exact nofun
    · exact h
  · exact h

/-- Every completion of a striped request is its end. -/
theorem requestLevel0Done_done (status : Statuses) (e : Fin 2) : (Request.requestLevel0Done status e).2 = true := by
  unfold Request.requestLevel0Done
  split <;> rfl

/-- With striping, a request is done with its first I/O. -/
theorem markDone_striping (hmapping : c.mapping = .striping) (h : s.markDone d = some t) :
    ∃ i, s.currentTarget d = some i ∧ Ended i s t ∧ t.startTime = s.startTime ∧ t.timer = s.timer := by
  unfold markDone at h
  simp only [Option.bind_eq_bind, Option.bind_eq_some_iff] at h
  obtain ⟨i, htarget, op, -, e, -, ⟨status, done⟩, hdone, h⟩ := h
  unfold Request.requestDone at hdone
  rw [hmapping, Option.some_inj] at hdone
  obtain rfl : done = true := by
    rw [← requestLevel0Done_done (s.status i) e, hdone]
  refine ⟨i, htarget, ?_⟩
  cases h
  refine ⟨⟨fun j hj => Function.update_of_ne hj .., fun hne => ?_, rfl⟩, rfl, rfl⟩
  have hstatus := requestLevel0Done_ne (s.status i) e hne
  rw [hdone] at hstatus
  show Function.update s.status i status i 0 ≠ .notStarted
  rwa [Function.update_self]

/-- A tick of a busy disk leaves it busy, or ends its I/O. -/
def TickResult (d : Disk) (s t : State c) (s' : Option (State c)) : Prop :=
  (t.diskState d ≠ .null ∧ s' = some t ∧ t.status = s.status ∧ t.latencyTotal = s.latencyTotal)
    ∨ (t.diskState d = .null ∧ s' = t.getNextIOs ∧ ∃ i, s.currentTarget d = some i ∧ Ended i s t)

/-- **One tick of a transfer in striping**: the disk goes on, no other disk is touched, and at its end the scheduler is
called. -/
theorem Consistent.transferStep_striping (h : s.Consistent) (hmapping : c.mapping = .striping)
    (hbusy : s.diskState d ≠ .null) :
    ∃ t, t.Consistent ∧ t.drive d = (s.drive d).transfer d ∧ (∀ d', d' ≠ d → t.drive d' = s.drive d')
      ∧ t.startTime = s.startTime ∧ t.timer = s.timer ∧ TickResult d s t (s.transferStep d) := by
  have hcount : (s.countDown d).Consistent := ⟨h.targeted, h.inv⟩
  have htransfer : (s.drive d).transfer d = if (s.countDown d).transferCount d = 0
      then ((s.countDown d).drive d).finish d else (s.countDown d).drive d := by
    rw [countDown_transferCount, drive_countDown]
    rfl
  have hstep : s.transferStep d = if (s.countDown d).transferCount d = 0
      then ((s.countDown d).markDone d).bind fun t => (t.release d).getNextIOs else some (s.countDown d) := rfl
  rw [htransfer, hstep]
  by_cases hlast : (s.countDown d).transferCount d = 0
  · obtain ⟨t, hmark, ht⟩ := hcount.markDone (d := d) hbusy
    obtain ⟨hself, hother⟩ := drive_markDone hmark
    obtain ⟨i, htarget, hended, hstart, htimer⟩ := markDone_striping hmapping hmark
    rw [if_pos hlast, if_pos hlast, hmark]
    refine ⟨t.release d, ht, hself, fun d' hd => ?_, hstart, htimer,
      .inr ⟨Function.update_self .., rfl, i, htarget, ?_⟩⟩
    · rw [hother d' hd, drive_countDown_of_ne hd]
    · exact ⟨hended.other, hended.self, hended.latencyTotal⟩
  · rw [if_neg hlast, if_neg hlast]
    exact ⟨s.countDown d, hcount, rfl, fun d' hd => drive_countDown_of_ne hd, rfl, rfl, .inl ⟨hbusy, rfl, rfl, rfl⟩⟩

/-- **A tick of a busy disk**, under striping. -/
theorem Consistent.animateDisk_striping (h : s.Consistent) (hmapping : c.mapping = .striping)
    (hbusy : s.diskState d ≠ .null) :
    ∃ t, t.Consistent ∧ Ticks d s t ∧ TickResult d s t (s.animateDisk d) := by
  cases hstate : s.diskState d with
  | null => exact absurd hstate hbusy
  | xfer =>
    rw [animateDisk_xfer hstate]
    obtain ⟨t, ht, hself, hother, hstart, htimer, hresult⟩ := h.transferStep_striping hmapping hbusy
    rw [← Drive.tick_xfer (x := s.drive d) hstate] at hself
    exact ⟨t, ht, ⟨hself, hother, hstart, htimer⟩, hresult⟩
  | seek =>
    obtain ⟨i, op, htarget, -⟩ := h.targeted d hbusy
    by_cases hat : s.headPosition d = offsetToYpos (c.request i).physOffset
    · rw [animateDisk_arrive hstate htarget hat]
      have hbusy' : (s.arrive d i).diskState d ≠ .null := by
        rw [arrive_diskState]
        exact nofun
      obtain ⟨t, ht, hself, hother, hstart, htimer, hresult⟩ :=
        (h.arrive (i := i) hbusy).transferStep_striping hmapping hbusy'
      rw [drive_arrive, ← Drive.tick_arrive (x := s.drive d) hstate htarget hat] at hself
      refine ⟨t, ht, ⟨hself, fun d' hd => ?_, hstart, htimer⟩, ?_⟩
      · rw [hother d' hd, drive_arrive_of_ne hd]
      · -- the arrival is not seen by the requests
        rcases hresult with hgo | ⟨hnull, heq, j, hj, hended⟩
        · exact .inl hgo
        · exact .inr ⟨hnull, heq, j, hj, hended.other, hended.self, hended.latencyTotal⟩
    · rw [animateDisk_moveHead hstate htarget hat]
      refine ⟨s.moveHead d, ⟨h.targeted, h.inv⟩, ⟨?_, fun d' hd => drive_moveHead_of_ne hd, rfl, rfl⟩,
        .inl ⟨hbusy, rfl, rfl, rfl⟩⟩
      rw [Drive.tick_moveHead (x := s.drive d) hstate htarget hat, drive_moveHead]
      rfl

end State

end Cs537.Graphics
