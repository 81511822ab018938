import Cs537.Graphics.Accounting

/-!
# Progress of the scheduler

The window always reaches over some incomplete request, so when every disk is idle and the scheduler finds
nothing to start, all requests are complete. Where `request_count_needed` is the number of all I/Os, the
simulation therefore ends exactly when all requests are complete, and until then some disk is busy.
-/

namespace Cs537.Graphics

variable {c : Config}

namespace Core

variable {s : Core c} {d : Disk} {i : c.Index}

/-- Whether the simulation has ended is not the scheduler's business. -/
theorem Inv.stop (h : s.Inv) : Inv { s with isDone := true } :=
  ⟨h.locals, h.entry, h.count, h.logical, h.window, h.logged⟩

/-- `GetNextIOs` keeps the accounts. -/
theorem Inv.getNextIOs {t : Core c} (h : s.Inv) (hnext : s.getNextIOs = some t) : t.Inv :=
  getNextIOs_invariant hnext h (fun _ _ _ _ _ ht hstarts => ht.start hstarts.idle hstarts.schedule) fun _ _ => h.stop

/-- The end of an I/O keeps the invariant. -/
theorem Inv.finishes {op : OpType} {status : Statuses} {done : Bool} (h : s.Inv)
    (hfinishes : s.Finishes d i op status done) : (s.served d i op status done).Inv := by
  obtain ⟨status', done', hfinish, hinv⟩ := h.finish hfinishes.serving
  have heq := Option.some_inj.mp (hfinishes.finish_eq.symm.trans hfinish)
  rwa [heq]

/-- A step keeps the accounts. -/
theorem Inv.of_step {s' : Core c} (h : s.Inv) (hstep : Core.step d s = some s') : s'.Inv := by
  obtain ⟨t, hfinish, hnext⟩ := Option.bind_eq_some_iff.mp hstep
  obtain ⟨i, op, status, done, hfinishes, rfl⟩ := exists_served hfinish
  exact (h.finishes hfinishes).getNextIOs hnext

/-- The invariant holds in every reachable state. -/
theorem reachable_inv (h : (untimed c).Reachable s) : s.Inv :=
  h.invariant (untimed_init init_inv fun _ => init_inv.getNextIOs) fun _ _ _ hstep hinv => hinv.of_step hstep

/-! ## Quiet states -/

/-- Every request is complete. -/
def AllComplete (s : Core c) : Prop := ∀ i, (c.kind i).Complete (s.config i)

/-- The complete requests, as a set. -/
theorem completed_eq_card :
    s.completed = (Finset.univ.filter fun i => (c.kind i).Complete (s.config i)).card :=
  (Finset.card_filter _ _).symm

/-- Where all disks are idle, no request has an I/O under way. -/
theorem flight_of_idle (hidle : ∀ d, s.serving d = none) (i : c.Index) (e : Fin 2) :
    (s.config i e).flight = none := by
  show (c.request i).physDiskList[(e : ℕ)]?.bind (s.flightOn i) = none
  cases (c.request i).physDiskList[(e : ℕ)]? with
  | none => rfl
  | some d => exact flightOn_of_idle (hidle d)

/-- An incomplete request without an I/O under way can be started on one of its disks. -/
theorem Inv.exists_schedule (h : s.Inv) (hidle : ∀ d, s.serving d = none)
    (hnot : ¬ (c.kind i).Complete (s.config i)) :
    ∃ d, (c.request i).doScheduling c.mapping (s.status i) d ≠ none := by
  obtain ⟨e, op, status, hstart⟩ := Kind.exists_start (h.locals i) hnot (flight_of_idle hidle i)
  obtain ⟨d, hd⟩ := c.exists_disk_of_start hstart
  refine ⟨d, ?_⟩
  rw [c.doScheduling_eq, hd]
  show (c.kind i).start (s.status i) e ≠ none
  rw [show (c.kind i).start (s.status i) e = some (op, status) from hstart]
  exact Option.some_ne_none _

/-- With all disks idle and nothing to start, every request is complete. -/
theorem Inv.allComplete_of_quiet (h : s.Inv) (hidle : ∀ d, s.serving d = none) (hquiet : s.Quiet) :
    s.AllComplete := by
  -- otherwise the first incomplete request is within the window and some disk would start it
  have hfull : ¬ s.completed < c.requestQueue.length := by
    intro hlt
    rw [completed_eq_card] at hlt
    obtain ⟨i, hnot, hle⟩ := Finset.exists_not_le_card _ hlt
    rw [← completed_eq_card] at hle
    have helig : s.Eligible i := by
      have hwindow := h.window
      have hvalid := c.window_valid
      have hlogical := h.logical
      unfold Eligible
      split at hwindow
      · exact .inl hwindow
      · refine .inr ?_
        omega
    obtain ⟨d, hd⟩ := h.exists_schedule hidle hnot
    exact hd (hquiet d i (hidle d) helig)
  intro i
  by_contra hnot
  refine hfull ?_
  rw [completed_eq_card]
  calc (Finset.univ.filter fun i => (c.kind i).Complete (s.config i)).card
      < (Finset.univ.filter fun _ : c.Index => True).card :=
        Finset.card_filter_lt (fun _ _ => trivial) hnot trivial
    _ = c.requestQueue.length := by simp

/-- A disk with nothing under way in any request is idle. -/
theorem Inv.idle_of_allComplete (h : s.Inv) (hall : s.AllComplete) (d : Disk) : s.serving d = none := by
  by_contra hbusy
  obtain ⟨⟨i, op⟩, hserving⟩ := Option.ne_none_iff_exists'.mp hbusy
  obtain ⟨e, he⟩ := h.entry d i op hserving
  have hnone : (s.config i e).flight = none := (hall i).2 e
  rw [flight_of_serving hserving he] at hnone
  cases hnone

/-- All requests are complete exactly when all I/Os of the queue have been performed. -/
theorem Inv.allComplete_iff (h : s.Inv) : s.AllComplete ↔ s.requestCount = c.total := by
  have hcount := h.count
  constructor
  · intro hall
    have htodo : s.todo = 0 := Finset.sum_eq_zero fun i _ => (hall i).1
    have hbusy : s.busy = 0 := Finset.sum_eq_zero fun d _ => by
      rw [h.idle_of_allComplete hall d]
      rfl
    omega
  · intro htotal i
    have hbusy : s.busy = 0 := by omega
    have htodo : s.todo = 0 := by omega
    have hidle : ∀ d, s.serving d = none := by
      intro d
      have hzero := Finset.sum_eq_zero_iff.mp hbusy d (Finset.mem_univ d)
      by_contra hne
      rw [if_pos (Option.isSome_iff_ne_none.mpr hne)] at hzero
      cases hzero
    exact ⟨Finset.sum_eq_zero_iff.mp htodo i (Finset.mem_univ i), flight_of_idle hidle i⟩

/-- No more I/Os than those of the queue are performed. -/
theorem Inv.requestCount_le (h : s.Inv) : s.requestCount ≤ c.total := by
  have hcount := h.count
  omega

/-- A busy disk still has an I/O to perform. -/
theorem Inv.requestCount_lt (h : s.Inv) (hbusy : s.serving d ≠ none) : s.requestCount < c.total := by
  refine lt_of_le_of_ne h.requestCount_le fun heq => hbusy ?_
  exact h.idle_of_allComplete (h.allComplete_iff.mpr heq) d

/-- When all requests are complete, all have been counted. -/
theorem Inv.logical_of_allComplete (h : s.Inv) (hall : s.AllComplete) :
    s.logicalRequests = c.requestQueue.length := by
  rw [h.logical, completed_eq_card, Finset.filter_true_of_mem fun i _ => hall i, Finset.card_univ,
    Fintype.card_fin]

end Core

/-! ## Exact counts -/

/-- `request_count_needed` is the number of all I/Os of the queue. -/
def Config.Exact (c : Config) : Prop := c.requestCountNeeded = c.total

namespace Core

variable {s : Core c} {d : Disk}

/-- With an exact count, `GetNextIOs` never fails: at the end there is a request that is done. -/
theorem Inv.exists_getNextIOs (hexact : c.Exact) (h : s.Inv) : ∃ t, s.getNextIOs = some t := by
  by_cases hcount : s.requestCount = c.requestCountNeeded
  · have hall := h.allComplete_iff.mpr (hcount.trans hexact)
    have hne : s.logicalRequests ≠ 0 := by
      rw [h.logical_of_allComplete hall, c.length_requestQueue]
      exact List.length_eq_zero_iff.not.mpr c.addr_ne_nil
    exact ⟨_, getNextIOs_eq_some_iff.mpr (.inl ⟨hcount, hne, rfl⟩)⟩
  · exact ⟨_, getNextIOs_eq_some_iff.mpr (.inr ⟨hcount, rfl⟩)⟩

/-- `GetNextIOs` counts nothing. -/
theorem getNextIOs_requestCount {t : Core c} (hnext : s.getNextIOs = some t) : t.requestCount = s.requestCount :=
  getNextIOs_invariant (P := fun u => u.requestCount = s.requestCount) hnext rfl
    (fun _ _ _ _ _ hu _ => hu) fun _ _ => rfl

/-- What holds after the scheduler has run. -/
structure Settled (s : Core c) : Prop where
  inv : s.Inv
  done_iff : s.isDone = true ↔ s.requestCount = c.total
  busy : s.isDone = false → s.Busy

/-- `GetNextIOs` settles the simulation. -/
theorem Inv.settled {t : Core c} (hexact : c.Exact) (h : s.Inv)
    (hdone : s.isDone = true → s.requestCount = c.total) (hnext : s.getNextIOs = some t) : t.Settled := by
  have hinv := h.getNextIOs hnext
  rcases getNextIOs_eq_some_iff.mp hnext with ⟨hcount, -, rfl⟩ | ⟨hcount, rfl⟩
  · exact ⟨hinv, iff_of_true rfl (hcount.trans hexact), nofun⟩
  · have hsame : s.scheduleDisks.isDone = s.isDone :=
      scheduleDisks_invariant (P := fun t => t.isDone = s.isDone) rfl (fun _ _ _ _ _ ht _ => ht) hcount
    have hne : s.requestCount ≠ c.total := fun heq => hcount (heq.trans hexact.symm)
    refine ⟨hinv, ?_, fun _ => ?_⟩
    · rw [hsame, getNextIOs_requestCount hnext]
      exact ⟨hdone, fun heq => absurd heq hne⟩
    · rcases scheduleDisks_cases s with ⟨heq, hquiet⟩ | hbusy
      · -- nothing to start: some disk is still busy, or all is complete and the count is reached
        rw [heq]
        by_contra hidle
        have hnone : ∀ d, s.serving d = none := fun d => by
          by_contra hne
          exact hidle ⟨d, hne⟩
        exact hne (h.allComplete_iff.mp (h.allComplete_of_quiet hnone hquiet))
      · exact hbusy

/-- The end of an I/O leaves the simulation settled. -/
theorem Settled.step {s' : Core c} (hexact : c.Exact) (h : s.Settled)
    (hstep : Core.step d s = some s') : s'.Settled := by
  obtain ⟨t, hfinish, hnext⟩ := Option.bind_eq_some_iff.mp hstep
  obtain ⟨i, op, status, done, hfinishes, rfl⟩ := exists_served hfinish
  have hbusy : s.serving d ≠ none := Option.ne_none_iff_exists'.mpr ⟨_, hfinishes.serving⟩
  refine (h.inv.finishes hfinishes).settled hexact (fun hdone => ?_) hnext
  exact absurd (h.done_iff.mp hdone) (h.inv.requestCount_lt hbusy).ne

/-- **Progress**: with an exact count, the simulation is done exactly when all I/Os have been performed, and
until then some disk is busy. -/
theorem reachable_settled (hexact : c.Exact) (h : (untimed c).Reachable s) : s.Settled := by
  refine h.invariant ?_ fun _ _ _ hstep hs => hs.step hexact hstep
  obtain ⟨t, hnext⟩ := init_inv.exists_getNextIOs hexact
  have hstart : (untimed c).init = t := congrArg (fun o => o.getD (init c)) hnext
  rw [hstart]
  exact init_inv.settled hexact nofun hnext

end Core

end Cs537.Graphics
