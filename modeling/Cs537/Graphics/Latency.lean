import Cs537.Graphics.FullStripe
import Cs537.Graphics.Inputs
import Cs537.Graphics.Makespan
import Cs537.Graphics.Window

/-!
# Latencies

`PrintStats` divides `latency_total` by the number of requests. A request adds its latency when it is done, the ticks
since its first I/O was started. Added up over all requests these are the ticks in which each of them has been in
flight, so that `latency_total` counts, tick by tick, the requests in flight. A window therefore bounds it.
-/

namespace Cs537.Graphics

variable {c : Config}

/-! ## Requests in flight -/

namespace Core

variable {s : Core c} {d : Disk} {i j : c.Index} {op : OpType} {status : Statuses} {done : Bool}

/-- A start adds one request to those that have been started. -/
theorem started_start : (s.start d i op status).Started j ↔ s.Started j ∨ j = i := by
  constructor
  · rintro ⟨ev, hev, hkind, rfl⟩
    rcases List.mem_append.mp hev with hold | hnew
    · exact .inl ⟨ev, hold, hkind, rfl⟩
    · rw [List.mem_singleton.mp hnew]
      exact .inr rfl
  · rintro (⟨ev, hev, hboth⟩ | rfl)
    · exact ⟨ev, List.mem_append_left _ hev, hboth⟩
    · have hmem : Event.mk .start d j op ∈ (s.start d j op status).log :=
        List.mem_append_right _ (List.mem_singleton_self _)
      exact started_of_mem hmem

theorem started_served : (s.served d i op status done).Started j ↔ s.Started j := by
  constructor
  · rintro ⟨ev, hev, hkind, rfl⟩
    rcases List.mem_append.mp hev with hold | hnew
    · exact ⟨ev, hold, hkind, rfl⟩
    · rw [List.mem_singleton.mp hnew] at hkind
      cases hkind
  · rintro ⟨ev, hev, hboth⟩
    exact ⟨ev, List.mem_append_left _ hev, hboth⟩

/-- A start concerns its request only. -/
theorem inFlight_start_of_ne (hidle : s.serving d = none) (hj : j ≠ i) :
    (s.start d i op status).InFlight j ↔ s.InFlight j := by
  rw [InFlight, InFlight, started_start, config_start_of_ne hidle hj, or_iff_left hj]

theorem inFlight_served_of_ne (hserving : s.serving d = some (i, op)) (hj : j ≠ i) :
    (s.served d i op status done).InFlight j ↔ s.InFlight j := by
  rw [InFlight, InFlight, started_served, config_served_of_ne hserving hj]

end Core

namespace State

variable {s t : State c} {d : Disk} {i j : c.Index} {op : OpType} {status : Statuses} {total : ℤ}

/-- The ticks since a request in flight was started. -/
def waited (s : State c) (i : c.Index) : ℤ := if s.core.InFlight i then s.timer - s.startTime i else 0

/-- The number of requests in flight. -/
def inFlight (s : State c) : ℕ := (Finset.univ.filter s.core.InFlight).card

/-! ## Starting and ending an I/O -/

/-- The start time of a request is set once. -/
theorem begin_startTime_begun (hbegun : s.startTime i ≠ -1) : (s.begin d i op status).startTime = s.startTime := by
  unfold begin markStart
  rw [if_neg hbegun]
  rfl

/-- What `MarkDone` does for the request of the disk. -/
theorem Consistent.markDone_served (h : s.Consistent) (hbusy : s.diskState d ≠ .null) (hmark : s.markDone d = some t) :
    t.startTime = s.startTime ∧ t.timer = s.timer ∧ ∃ i op status done, s.core.Finishes d i op status done
      ∧ (t.release d).core = s.core.served d i op status done
      ∧ t.latencyTotal = s.latencyTotal + if done = true then s.timer - s.startTime i else 0 := by
  obtain ⟨i, op, htarget, hoptype⟩ := h.targeted d hbusy
  have hcore := core_markDone hbusy htarget hoptype
  rw [hmark] at hcore
  unfold State.markDone at hmark
  simp only [htarget, hoptype, Option.bind_eq_bind, Option.bind_some, Option.bind_eq_some_iff] at hmark
  obtain ⟨e, he, ⟨status, done⟩, hdone, hrest⟩ := hmark
  have hfinishes : s.core.Finishes d i op status done := ⟨core_serving hbusy htarget hoptype, e, he, hdone⟩
  rw [hfinishes.finish_eq] at hcore
  have hsame : t.startTime = s.startTime ∧ t.timer = s.timer
      ∧ t.latencyTotal = s.latencyTotal + if done = true then s.timer - s.startTime i else 0 := by
    cases done with
    | true =>
      cases hrest
      exact ⟨rfl, rfl, rfl⟩
    | false =>
      cases hrest
      exact ⟨rfl, rfl, (add_zero _).symm⟩
  exact ⟨hsame.1, hsame.2.1, i, op, status, done, hfinishes, Option.some.inj hcore, hsame.2.2⟩

/-! ## The account -/

/-- The latencies of the complete requests and the ticks of those in flight make up `total`. -/
structure Accounted (s : State c) (total : ℤ) : Prop where
  consistent : s.Consistent
  fresh : ∀ i, ¬ s.core.Started i → s.startTime i = -1
  begun : ∀ i, s.core.Started i → 0 ≤ s.startTime i ∧ s.startTime i ≤ s.timer
  serving : ∀ d i op, s.core.serving d = some (i, op) → s.core.Started i
  clock : 0 ≤ s.timer
  total : s.latencyTotal + ∑ i, s.waited i = total

/-- Nobody has waited for a negative time. -/
theorem Accounted.waited_nonneg (h : s.Accounted total) (i : c.Index) : 0 ≤ s.waited i := by
  unfold waited
  split
  · rename_i hflight
    have hle := (h.begun i hflight.1).2
    omega
  · exact le_rfl

/-- Starting an I/O begins the latency of its request, or changes nothing. -/
theorem Accounted.begin (h : s.Accounted total) (hnull : s.diskState d = .null)
    (hschedule : (c.request i).doScheduling c.mapping (s.status i) d = some (op, status)) :
    (s.begin d i op status).Accounted total := by
  have hidle : s.core.serving d = none := (core_serving_eq_none_iff (h.consistent.targeted d)).mpr hnull
  have hsome : (c.request i).doScheduling c.mapping (s.core.status i) d = some (op, status) := hschedule
  obtain ⟨e, he, hstart⟩ := Core.exists_entry_of_schedule hsome
  have hbefore := Core.not_complete_of_start (h.consistent.inv.locals i) (Core.flight_of_disk_idle hidle he) hstart
  have hafter : ¬ (c.kind i).Complete ((s.core.start d i op status).config i) := Core.not_complete_start hidle he
  have hother : ∀ j, j ≠ i → (s.begin d i op status).startTime j = s.startTime j := fun j hj =>
    begin_startTime_of_ne hj
  have htimer : (s.begin d i op status).timer = s.timer := begin_frame.2.1
  -- a second I/O of a request leaves its start time, the first one sets it to the timer
  have hself : s.core.Started i → (s.begin d i op status).startTime i = s.startTime i := by
    intro hi
    have hbegun := (h.begun i hi).1
    rw [begin_startTime_begun (by omega)]
  have hnew : ¬ s.core.Started i → (s.begin d i op status).startTime i = s.timer := fun hi =>
    begin_startTime_self (h.fresh i hi)
  have hclock := h.clock
  refine ⟨⟨h.consistent.targeted.begin, ?_⟩, fun j hj => ?_, fun j hj => ?_, fun d' j op' hserving => ?_, ?_, ?_⟩
  · rw [core_begin]
    exact h.consistent.inv.start hidle hsome
  · rw [core_begin, Core.started_start, not_or] at hj
    rw [hother j hj.2]
    exact h.fresh j hj.1
  · rw [core_begin, Core.started_start] at hj
    rw [htimer]
    by_cases hji : j = i
    · subst hji
      by_cases hi : s.core.Started j
      · rw [hself hi]
        exact h.begun j hi
      · rw [hnew hi]
        exact ⟨hclock, le_rfl⟩
    · rw [hother j hji]
      exact h.begun j (hj.resolve_right hji)
  · rw [core_begin, Core.start_serving] at hserving
    rw [core_begin, Core.started_start]
    split at hserving
    · cases hserving
      exact .inr rfl
    · exact .inl (h.serving d' j op' hserving)
  · rw [htimer]
    exact hclock
  · -- a request that starts has waited for no time yet
    rw [begin_frame.2.2, ← h.total]
    congr 1
    refine Finset.sum_congr rfl fun j _ => ?_
    unfold waited
    rw [htimer, core_begin]
    by_cases hji : j = i
    · subst hji
      have hflight : (s.core.start d j op status).InFlight j := ⟨Core.started_start.mpr (.inr rfl), hafter⟩
      rw [if_pos hflight]
      by_cases hj : s.core.Started j
      · rw [if_pos ⟨hj, hbefore⟩, hself hj]
      · rw [if_neg fun hboth => hj hboth.1, hnew hj, sub_self]
    · rw [hother j hji]
      simp only [Core.inFlight_start_of_ne hidle hji]

/-- `GetNextIOs` keeps the account. -/
theorem Accounted.getNextIOs (h : s.Accounted total) (hnext : s.getNextIOs = some t) : t.Accounted total := by
  rcases getNextIOs_eq_some_iff.mp hnext with ⟨-, -, rfl⟩ | ⟨-, rfl⟩
  · have hstop := h.consistent.getNextIOs hnext
    exact ⟨hstop, h.fresh, h.begun, h.serving, h.clock, h.total⟩
  · exact scheduleDisks_invariant (P := fun t => t.Accounted total)
      (fun _ _ _ _ _ ht hnull hschedule => ht.begin hnull hschedule) h

/-- The end of an I/O moves the ticks of a request that is done to the total. -/
theorem Accounted.markDone (h : s.Accounted total) (hbusy : s.diskState d ≠ .null) (hmark : s.markDone d = some t) :
    (t.release d).Accounted total := by
  have hconsistent : (t.release d).Consistent := by
    obtain ⟨t', hmark', ht'⟩ := h.consistent.markDone hbusy
    cases hmark.symm.trans hmark'
    exact ht'
  obtain ⟨hstart, htimer, i, op, status, done, hfinishes, hcore, hlatency⟩ :=
    h.consistent.markDone_served hbusy hmark
  have hbefore : s.core.InFlight i := by
    obtain ⟨e, he⟩ := h.consistent.inv.entry d i op hfinishes.serving
    exact ⟨h.serving d i op hfinishes.serving,
      Core.not_complete_of_flight (Core.flight_of_serving hfinishes.serving he)⟩
  have hafter : (t.release d).core.InFlight i ↔ ¬ done = true := by
    rw [hcore, Core.InFlight, Core.started_served, h.consistent.inv.complete_served_iff hfinishes]
    exact and_iff_right hbefore.1
  have hother : ∀ j, j ≠ i → (t.release d).waited j = s.waited j := by
    intro j hj
    show (if (t.release d).core.InFlight j then t.timer - t.startTime j else 0) = _
    rw [hcore, hstart, htimer]
    simp only [Core.inFlight_served_of_ne hfinishes.serving hj]
    rfl
  -- what the request has waited moves to the total when it is done
  have hself : t.latencyTotal + (t.release d).waited i = s.latencyTotal + s.waited i := by
    show t.latencyTotal + (if (t.release d).core.InFlight i then t.timer - t.startTime i else 0)
      = s.latencyTotal + if s.core.InFlight i then s.timer - s.startTime i else 0
    rw [hlatency, hstart, htimer, if_pos hbefore]
    by_cases hdone : done = true
    · rw [if_pos hdone, if_neg fun hflight => hafter.mp hflight hdone, add_zero]
    · rw [if_neg hdone, if_pos (hafter.mpr hdone), add_zero]
  refine ⟨hconsistent, fun j hj => ?_, fun j hj => ?_, fun d' j op' hserving => ?_, ?_, ?_⟩
  · rw [hcore, Core.started_served] at hj
    show t.startTime j = -1
    rw [hstart]
    exact h.fresh j hj
  · rw [hcore, Core.started_served] at hj
    show 0 ≤ t.startTime j ∧ t.startTime j ≤ t.timer
    rw [hstart, htimer]
    exact h.begun j hj
  · rw [hcore, Core.served_serving] at hserving
    rw [hcore, Core.started_served]
    split at hserving
    · cases hserving
    · exact h.serving d' j op' hserving
  · show 0 ≤ t.timer
    rw [htimer]
    exact h.clock
  · have hrest : ∑ j ∈ Finset.univ.erase i, (t.release d).waited j = ∑ j ∈ Finset.univ.erase i, s.waited j :=
      Finset.sum_congr rfl fun j hj => hother j (Finset.ne_of_mem_erase hj)
    have htotal := h.total
    rw [← Finset.add_sum_erase _ _ (Finset.mem_univ i)] at htotal ⊢
    rw [hrest]
    show t.latencyTotal + _ = total
    omega

/-- What is not seen by the requests keeps the account. -/
theorem Accounted.congr (h : s.Accounted total) (hconsistent : t.Consistent) (hcore : t.core = s.core)
    (hstart : t.startTime = s.startTime) (htimer : t.timer = s.timer) (hlatency : t.latencyTotal = s.latencyTotal) :
    t.Accounted total := by
  refine ⟨hconsistent, ?_, ?_, ?_, ?_, ?_⟩
  · rw [hcore, hstart]
    exact h.fresh
  · rw [hcore, hstart, htimer]
    exact h.begun
  · rw [hcore]
    exact h.serving
  · rw [htimer]
    exact h.clock
  · unfold waited
    rw [hcore, hstart, htimer, hlatency]
    exact h.total

/-- One tick of a transfer, the last one included, keeps the account. -/
theorem Accounted.transferStep (h : s.Accounted total) (hbusy : s.diskState d ≠ .null)
    (hstep : s.transferStep d = some t) : t.Accounted total := by
  have hcount : (s.countDown d).Accounted total :=
    h.congr ⟨h.consistent.targeted, h.consistent.inv⟩ rfl rfl rfl rfl
  rcases transferStep_cases hstep with ⟨-, rfl⟩ | ⟨-, u, hmark, hnext⟩
  · exact hcount
  · exact (hcount.markDone hbusy hmark).getNextIOs hnext

/-- **One disk in the loop of `Animate`.** -/
theorem Accounted.animateDisk (h : s.Accounted total) (hstep : s.animateDisk d = some t) : t.Accounted total := by
  rcases animateDisk_cases h.consistent.targeted hstep with
    ⟨-, rfl⟩ | ⟨hxfer, htransfer⟩ | ⟨i, hseek, -, ⟨-, htransfer⟩ | ⟨-, rfl⟩⟩
  · exact h
  · exact h.transferStep (by rw [hxfer]; exact nofun) htransfer
  · -- the head arrives, and the transfer begins in the same tick
    have hbusy : s.diskState d ≠ .null := by
      rw [hseek]
      exact nofun
    have harrive : (s.arrive d i).Accounted total :=
      h.congr (h.consistent.arrive hbusy) (core_arrive hbusy) rfl rfl rfl
    exact harrive.transferStep (by rw [arrive_diskState]; exact nofun) htransfer
  · exact h.congr ⟨h.consistent.targeted, h.consistent.inv⟩ rfl rfl rfl rfl

/-- The loop of `Animate` keeps the account and the timer. -/
theorem Accounted.animateDisks {disks : List Disk} (h : s.Accounted total)
    (hloop : disks.foldlM State.animateDisk s = some t) : t.timer = s.timer ∧ t.Accounted total := by
  induction disks generalizing s with
  | nil =>
    cases hloop
    exact ⟨rfl, h⟩
  | cons d disks ih =>
    rw [List.foldlM_cons] at hloop
    obtain ⟨u, hstep, hrest⟩ := Option.bind_eq_some_iff.mp hloop
    obtain ⟨htimer, ht⟩ := ih (h.animateDisk hstep) hrest
    exact ⟨htimer.trans (h.consistent.animateDisk_timer hstep), ht⟩

/-- A tick of the timer is one for every request in flight. -/
theorem Accounted.tickTimer (h : s.Accounted total) : s.tickTimer.Accounted (total + s.inFlight) := by
  have hwaited : ∀ i, s.tickTimer.waited i = s.waited i + if s.core.InFlight i then 1 else 0 := by
    intro i
    show (if s.core.InFlight i then s.timer + 1 - s.startTime i else 0)
      = (if s.core.InFlight i then s.timer - s.startTime i else 0) + if s.core.InFlight i then 1 else 0
    split
    · omega
    · rfl
  have hclock := h.clock
  refine ⟨⟨h.consistent.targeted, h.consistent.inv⟩, h.fresh, fun i hi => ?_, h.serving, ?_, ?_⟩
  · obtain ⟨h1, h2⟩ := h.begun i hi
    exact ⟨h1, h2.trans (Int.le_add_one le_rfl)⟩
  · show 0 ≤ s.timer + 1
    omega
  · rw [Finset.sum_congr rfl fun i _ => hwaited i, Finset.sum_add_distrib, ← add_assoc]
    show s.latencyTotal + _ + _ = _
    rw [h.total, Finset.sum_boole]
    rfl

/-- The requests in flight that a call of `Animate` counts. -/
def counted (s : State c) : ℕ := if s.doAnimate then s.inFlight else 0

/-- **One tick.** -/
theorem Accounted.animate (h : s.Accounted total) (hanimate : s.animate = some t) :
    t.timer = s.timer + (if s.doAnimate then 1 else 0) ∧ t.Accounted (total + s.counted) := by
  unfold State.animate at hanimate
  unfold counted
  split at hanimate
  · rename_i hgo
    rw [if_pos hgo, if_pos hgo]
    exact h.tickTimer.animateDisks hanimate
  · rename_i hstop
    cases hanimate
    rw [if_neg hstop, if_neg hstop, Nat.cast_zero, add_zero, add_zero]
    exact ⟨rfl, h⟩

/-- At the start there is nothing to account for. -/
theorem init_accounted : (State.init c).Accounted 0 := by
  have hnone : ∀ i, ¬ (State.init c).core.Started i := by
    rintro i ⟨ev, hev, -⟩
    cases hev
  refine ⟨init_consistent, fun _ _ => rfl, fun i hi => absurd hi (hnone i), fun d i op hserving => ?_, le_rfl, ?_⟩
  · cases hserving
  · show (0 : ℤ) + _ = 0
    rw [zero_add]
    exact Finset.sum_eq_zero fun i _ => if_neg fun hflight => hnone i hflight.1

end State

/-! ## Runs -/

/-- The requests in flight when the `n`-th call of `Animate` is made, as far as it does something. -/
def countedAt (c : Config) (n : ℕ) : ℕ := (afterTicks c n).elim 0 State.counted

/-- What a call counts is in the state in which it is made. -/
theorem countedAt_eq {n : ℕ} {s : State c} (hrun : afterTicks c n = some s) : countedAt c n = s.counted := by
  rw [countedAt, hrun]
  rfl

/-- After `n` calls, the account is the sum over the calls. -/
theorem afterTicks_accounted {n : ℕ} {s : State c} (hrun : afterTicks c n = some s) :
    s.Accounted (∑ k ∈ Finset.range n, countedAt c k : ℕ) := by
  induction n generalizing s with
  | zero => exact State.init_accounted.getNextIOs hrun
  | succ n ih =>
    obtain ⟨t, ht, hanimate⟩ := Option.bind_eq_some_iff.mp hrun
    rw [Finset.sum_range_succ, countedAt_eq ht, Nat.cast_add]
    exact ((ih ht).animate hanimate).2

/-- The states between the ticks are reached. -/
theorem reached_of_afterTicks {n : ℕ} {s : State c} (hrun : afterTicks c n = some s) : s.Reached := by
  cases n with
  | zero => exact State.start_reached hrun
  | succ n =>
    rw [afterTicks_succ] at hrun
    exact reached_of_run hrun

/-- A window bounds the account: in no tick are more requests in flight. -/
theorem sum_countedAt_le (hwindow : c.window ≠ -1) {n : ℕ} {s : State c} (hrun : afterTicks c n = some s) :
    ((∑ k ∈ Finset.range n, countedAt c k : ℕ) : ℤ) ≤ c.window * s.timer := by
  induction n generalizing s with
  | zero =>
    rw [(State.getNextIOs_timer hrun).1]
    exact (mul_zero _).ge
  | succ n ih =>
    obtain ⟨t, ht, hanimate⟩ := Option.bind_eq_some_iff.mp hrun
    obtain ⟨htimer, -⟩ := (afterTicks_accounted ht).animate hanimate
    have hcounted : (t.counted : ℤ) ≤ c.window * if t.doAnimate then 1 else 0 := by
      unfold State.counted
      split
      · rw [mul_one]
        exact Core.card_inFlight_le (reached_of_afterTicks ht).reachable hwindow
      · exact (mul_zero _).ge
    rw [Finset.sum_range_succ, countedAt_eq ht, htimer, mul_add, Nat.cast_add]
    exact add_le_add (ih ht) hcounted

/-- **`latency_total` counts the requests in flight, tick by tick.** -/
theorem latency_accounted (c : Config) :
    (∀ n s, run c n = some s →
        s.latencyTotal + ∑ i, s.waited i = (∑ k ∈ Finset.range (n + 1), countedAt c k : ℕ))
      ∧ ((c.mapping = .raid4 → TriplesWritten c.addr) → ∀ n s, run c n = some s → s.isDone = true →
        s.latencyTotal = (∑ k ∈ Finset.range (n + 1), countedAt c k : ℕ))
      ∧ (1 ≤ c.window → ∀ n s, run c n = some s → s.latencyTotal ≤ c.window * s.timer) := by
  have haccounted : ∀ n s, run c n = some s → s.Accounted (∑ k ∈ Finset.range (n + 1), countedAt c k : ℕ) := by
    intro n s hrun
    rw [← afterTicks_succ] at hrun
    exact afterTicks_accounted hrun
  refine ⟨fun n s hrun => (haccounted n s hrun).total, fun hcount n s hrun hdone => ?_, fun hwindow n s hrun => ?_⟩
  · have hall := ((reached_of_run hrun).isDone_iff (Config.exact_of_triplesWritten hcount)).mp hdone
    have hnone : ∑ i, s.waited i = 0 := Finset.sum_eq_zero fun i _ => if_neg fun hflight => hflight.2 (hall i)
    rw [← (haccounted n s hrun).total, hnone, add_zero]
  · have hnonneg := Finset.sum_nonneg fun i (_ : i ∈ Finset.univ) => (haccounted n s hrun).waited_nonneg i
    have htotal := (haccounted n s hrun).total
    rw [← afterTicks_succ] at hrun
    have hle := sum_countedAt_le (by omega) hrun
    omega

/-- At the end of the shared row, the latencies make up the account. -/
theorem latency_accounted_sharedRow :
    ∃ s, run sharedRow 60 = some s ∧ s.isDone = true ∧ s.latencyTotal ≤ 2 * s.timer
      ∧ s.latencyTotal = (∑ k ∈ Finset.range 61, countedAt sharedRow k : ℕ) := by
  obtain ⟨s, hrun, -⟩ := run_reached (c := sharedRow) (Config.exact_of_ne_raid4 (by decide)) 60
  have hdone : (run sharedRow 60).any (fun s => s.isDone) = true := by decide +kernel
  rw [hrun] at hdone
  obtain ⟨-, htotal, hwindow⟩ := latency_accounted sharedRow
  exact ⟨s, hrun, hdone, hwindow (by decide) 60 s hrun, htotal (by decide) 60 s hrun hdone⟩

end Cs537.Graphics
