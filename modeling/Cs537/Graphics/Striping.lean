import Mathlib.Order.Lattice.Nat
import Cs537.Graphics.Completion
import Cs537.Graphics.Lanes

/-!
# The schedule of a striped run

With striping and a window that covers the queue, a disk that ends an I/O starts the next one of its own queue in the
same tick. So the start times, the latencies and the end of the simulation follow from the request list alone.
-/

namespace Cs537.Graphics

variable {c : Config}

/-- The scheduler sees the whole queue. -/
def Config.Unbounded (c : Config) : Prop := c.window = -1 ∨ (c.addr.length : ℤ) ≤ c.window

namespace State

variable {s t : State c} {d d' : Disk} {i : c.Index} {op : OpType} {status : Statuses} {j k n m : ℕ}

/-! ## Scheduling -/

/-- No request is outside the window. -/
def Covers (s : State c) : Prop := s.window = -1 ∨ (c.requestQueue.length : ℤ) ≤ s.window

/-- Where the window covers the queue, it always does. -/
theorem Consistent.covers (h : s.Consistent) (hwindow : c.Unbounded) : s.Covers := by
  have heq : s.window = if c.window = -1 then -1 else c.window + s.logicalRequests := h.inv.window
  unfold Covers
  rw [heq, c.length_requestQueue]
  rcases hwindow with hall | hle
  · rw [if_pos hall]
    exact .inl rfl
  · split
    · exact .inl rfl
    · exact .inr (by omega)

/-- What starting an I/O leaves alone. -/
theorem begin_frame : (s.begin d i op status).window = s.window
    ∧ (s.begin d i op status).timer = s.timer ∧ (s.begin d i op status).latencyTotal = s.latencyTotal := by
  obtain ⟨startTime, hstart⟩ := markStart_eq s i
  unfold begin
  rw [hstart]
  exact ⟨rfl, rfl, rfl⟩

/-- Starting an I/O changes the statuses of its request only. -/
theorem begin_status : (s.begin d i op status).status = Function.update s.status i status := by
  obtain ⟨startTime, hstart⟩ := markStart_eq s i
  unfold begin
  rw [hstart]
  rfl

/-- The first I/O of a request sets its start time. -/
theorem begin_startTime_self (hnew : s.startTime i = -1) : (s.begin d i op status).startTime i = s.timer := by
  unfold begin markStart
  rw [if_pos hnew]
  exact Function.update_self ..

theorem begin_startTime_of_ne {i' : c.Index} (hi : i' ≠ i) :
    (s.begin d i op status).startTime i' = s.startTime i' := by
  unfold begin markStart
  split
  · exact Function.update_of_ne hi ..
  · rfl

/-- A disk that has started an I/O seeks. -/
theorem begin_diskState : (s.begin d i op status).diskState d = .seek := Function.update_self ..

theorem schedule_busy (hbusy : s.diskState d ≠ .null) : s.schedule d i = s := if_neg hbusy

theorem schedule_none (hnone : (c.request i).doScheduling c.mapping (s.status i) d = none) : s.schedule d i = s := by
  unfold schedule
  rw [hnone]
  exact ite_self s

/-- Where an idle disk finds an I/O, it starts it. -/
theorem schedule_some (hnull : s.diskState d = .null)
    (hsome : (c.request i).doScheduling c.mapping (s.status i) d = some (op, status)) :
    s.schedule d i = s.begin d i op status := by
  unfold schedule
  rw [if_pos hnull, hsome]
  rfl

/-- Looking at a request leaves the window as it is. -/
theorem Covers.schedule (h : s.Covers) (d : Disk) (i : c.Index) : (s.schedule d i).Covers := by
  refine schedule_invariant (P := Covers) (fun t d' i' op status ht _ _ => ?_) h d i
  unfold Covers
  rwa [begin_frame.1]

/-- With all requests in the window, the scheduler looks at each of them. -/
theorem Covers.scheduleDisk (h : s.Covers) (d : Disk) (rest : List c.Index) (count : ℤ)
    (hcount : count + rest.length ≤ c.requestQueue.length) :
    scheduleDisk d rest count s = rest.foldl (fun s i => s.schedule d i) s := by
  induction rest generalizing s count with
  | nil => rfl
  | cons i rest ih =>
    rw [List.length_cons, Nat.cast_succ] at hcount
    have hin : ¬(s.window ≠ -1 ∧ s.window ≤ count) := by
      rintro ⟨hne, hle⟩
      have hcover := h.resolve_left hne
      omega
    unfold State.scheduleDisk
    rw [if_neg hin, List.foldl_cons]
    exact ih (h.schedule d i) (count + 1) (by omega)

section

variable (hmapping : c.mapping = .striping)
include hmapping

/-- The scheduler of striping. -/
theorem doScheduling_striping (status : Statuses) (i : c.Index) (d : Disk) :
    (c.request i).doScheduling c.mapping status d = (c.request i).doStripeScheduling status d := by
  rw [hmapping]
  rfl

theorem schedule_off (hoff : (c.request i).logicalAddress % 4 ≠ (d : ℕ)) : s.schedule d i = s := by
  apply schedule_none
  rw [doScheduling_striping hmapping]
  exact if_neg fun hboth => hoff hboth.2

theorem schedule_begun (hbegun : s.status i 0 ≠ .notStarted) : s.schedule d i = s := by
  apply schedule_none
  rw [doScheduling_striping hmapping]
  exact if_neg fun hboth => hbegun hboth.1

/-- An idle disk starts what is waiting for it. -/
theorem schedule_waiting (hnull : s.diskState d = .null) (hon : (c.request i).logicalAddress % 4 = (d : ℕ))
    (hwaiting : s.status i 0 = .notStarted) :
    s.schedule d i
      = s.begin d i (c.request i).opType ((s.status i).set 0 (c.request i).opType.doing) := by
  apply schedule_some hnull
  rw [doScheduling_striping hmapping]
  exact if_pos ⟨hwaiting, hon⟩

/-- The scheduler passes over what is on other disks. -/
theorem foldl_schedule_queueOf (s : State c) (d : Disk) :
    (List.finRange c.requestQueue.length).foldl (fun s i => s.schedule d i) s
      = (c.queueOf d).foldl (fun s i => s.schedule d i) s := by
  unfold Config.queueOf
  rw [List.foldl_filter]
  congr 1
  funext t i
  split
  · rfl
  · rename_i hoff
    exact schedule_off hmapping fun hon => hoff (decide_eq_true hon)

/-- Where the window covers the queue, a disk goes through its own requests. -/
theorem Covers.scheduleDisk_eq (h : s.Covers) (d : Disk) :
    State.scheduleDisk d (List.finRange c.requestQueue.length) 0 s
      = (c.queueOf d).foldl (fun s i => s.schedule d i) s := by
  rw [h.scheduleDisk d _ 0 (by rw [List.length_finRange, zero_add]), foldl_schedule_queueOf hmapping]

end

theorem foldl_schedule_busy (hbusy : s.diskState d ≠ .null) (rest : List c.Index) :
    rest.foldl (fun s i => s.schedule d i) s = s := by
  induction rest with
  | nil => rfl
  | cons i rest ih =>
    rw [List.foldl_cons, schedule_busy hbusy]
    exact ih

theorem foldl_schedule_begun (hmapping : c.mapping = .striping) {rest : List c.Index}
    (hbegun : ∀ i ∈ rest, s.status i 0 ≠ .notStarted) : rest.foldl (fun s i => s.schedule d i) s = s := by
  induction rest with
  | nil => rfl
  | cons i rest ih =>
    rw [List.foldl_cons, schedule_begun hmapping (hbegun i List.mem_cons_self)]
    exact ih fun i' hi' => hbegun i' (List.mem_cons_of_mem i hi')

/-! ## Lanes -/

/-- The first `k` requests of a disk have been begun, each when the one before it has ended; the others wait. -/
structure Begun (s : State c) (d : Disk) (k : ℕ) : Prop where
  begun : ∀ j (h : j < (c.queueOf d).length), j < k →
    s.status (c.queueOf d)[j] 0 ≠ .notStarted ∧ s.startTime (c.queueOf d)[j] = c.ticksBefore d j
  waiting : ∀ j (h : j < (c.queueOf d).length), k ≤ j →
    s.status (c.queueOf d)[j] 0 = .notStarted ∧ s.startTime (c.queueOf d)[j] = -1

/-- The disk has served its first `k` requests, and is idle. -/
structure IdleAfter (s : State c) (d : Disk) (k : ℕ) : Prop where
  idle : (s.drive d).Idle
  log : (s.drive d).log = jobLog d ((c.queueOf d).take k)
  begun : s.Begun d k

/-- The disk has served its first `k` requests, and has done `n` ticks of the next one. -/
structure BusyAfter (s : State c) (d : Disk) (k n : ℕ) : Prop where
  lt : k < (c.queueOf d).length
  serving : (s.drive d).Serving d (jobLog d ((c.queueOf d).take k)) (c.queueOf d)[k]
    (c.request (c.queueOf d)[k]).opType n
  begun : s.Begun d (k + 1)

/-- After `m` ticks the disk has served `k` requests. It is idle only if these are all. -/
def OnTime (s : State c) (d : Disk) (k m : ℕ) : Prop :=
  (∃ n, s.BusyAfter d k n ∧ c.ticksBefore d k + n = m)
    ∨ (k = (c.queueOf d).length ∧ s.IdleAfter d k ∧ c.ticksBefore d k ≤ m)

/-- The same, before the scheduler has looked at the disk. -/
def Due (s : State c) (d : Disk) (k m : ℕ) : Prop :=
  s.OnTime d k m
    ∨ (k < (c.queueOf d).length ∧ s.IdleAfter d k ∧ c.ticksBefore d k = m ∧ s.timer = m)

/-- The state of the requests of a disk. -/
structure SameLane (s t : State c) (d : Disk) : Prop where
  drive : t.drive d = s.drive d
  status : ∀ i ∈ c.queueOf d, t.status i = s.status i
  startTime : ∀ i ∈ c.queueOf d, t.startTime i = s.startTime i
  timer : t.timer = s.timer

/-- Which requests have begun depends on statuses and start times. -/
theorem Begun.congr (h : s.Begun d k) (hstatus : ∀ i ∈ c.queueOf d, t.status i = s.status i)
    (hstart : ∀ i ∈ c.queueOf d, t.startTime i = s.startTime i) : t.Begun d k where
  begun j hj hlt := by
    rw [hstatus _ (List.getElem_mem hj), hstart _ (List.getElem_mem hj)]
    exact h.begun j hj hlt
  waiting j hj hle := by
    rw [hstatus _ (List.getElem_mem hj), hstart _ (List.getElem_mem hj)]
    exact h.waiting j hj hle

theorem IdleAfter.congr (h : s.IdleAfter d k) (hsame : SameLane s t d) : t.IdleAfter d k where
  idle := hsame.drive ▸ h.idle
  log := hsame.drive ▸ h.log
  begun := h.begun.congr hsame.status hsame.startTime

theorem BusyAfter.congr (h : s.BusyAfter d k n) (hsame : SameLane s t d) : t.BusyAfter d k n where
  lt := h.lt
  serving := hsame.drive ▸ h.serving
  begun := h.begun.congr hsame.status hsame.startTime

theorem OnTime.congr (h : s.OnTime d k m) (hsame : SameLane s t d) : t.OnTime d k m := by
  rcases h with ⟨n, hbusy, hm⟩ | ⟨hk, hidle, hm⟩
  · exact .inl ⟨n, hbusy.congr hsame, hm⟩
  · exact .inr ⟨hk, hidle.congr hsame, hm⟩

theorem Due.congr (h : s.Due d k m) (hsame : SameLane s t d) : t.Due d k m := by
  rcases h with htime | ⟨hk, hidle, hm, htimer⟩
  · exact .inl (htime.congr hsame)
  · exact .inr ⟨hk, hidle.congr hsame, hm, hsame.timer.trans htimer⟩

theorem BusyAfter.diskState (h : s.BusyAfter d k n) : s.diskState d ≠ .null := h.serving.diskState_ne

/-- An I/O of one disk does not concern the others. -/
theorem sameLane_begin (hi : i ∈ c.queueOf d) (hd : d' ≠ d) : SameLane s (s.begin d i op status) d' := by
  have hne : ∀ i' ∈ c.queueOf d', i' ≠ i := by
    rintro i' hi' rfl
    exact hd (Fin.ext ((Config.mem_queueOf.mp hi').symm.trans (Config.mem_queueOf.mp hi)))
  refine ⟨drive_begin_of_ne hd, fun i' hi' => ?_, fun i' hi' => begin_startTime_of_ne (hne i' hi'), begin_frame.2.1⟩
  rw [begin_status]
  exact Function.update_of_ne (hne i' hi') ..

/-- The next request of a disk begins. -/
theorem IdleAfter.begin (h : s.IdleAfter d k) (hk : k < (c.queueOf d).length) (htimer : s.timer = c.ticksBefore d k)
    (hstatus : status 0 ≠ .notStarted) :
    (s.begin d (c.queueOf d)[k] (c.request (c.queueOf d)[k]).opType status).BusyAfter d k 0 where
  lt := hk
  serving := by
    rw [drive_begin_self, ← h.log]
    exact h.idle.start
  begun := by
    have hne : ∀ j (hj : j < (c.queueOf d).length), j ≠ k → (c.queueOf d)[j] ≠ (c.queueOf d)[k] := fun j hj hjk heq =>
      hjk ((c.nodup_queueOf d).getElem_inj_iff.mp heq)
    refine ⟨fun j hj hlt => ?_, fun j hj hle => ?_⟩
    · rw [begin_status]
      by_cases hjk : j = k
      · subst hjk
        rw [Function.update_self, begin_startTime_self (h.begun.waiting j hj le_rfl).2]
        exact ⟨hstatus, htimer⟩
      · rw [Function.update_of_ne (hne j hj hjk), begin_startTime_of_ne (hne j hj hjk)]
        exact h.begun.begun j hj (by omega)
    · rw [begin_status, Function.update_of_ne (hne j hj (by omega)), begin_startTime_of_ne (hne j hj (by omega))]
      exact h.begun.waiting j hj (by omega)

/-! ## `GetNextIOs` -/

theorem SameLane.refl (s : State c) (d : Disk) : SameLane s s d := ⟨rfl, fun _ _ => rfl, fun _ _ => rfl, rfl⟩

/-- A disk on time is due. -/
theorem OnTime.due (h : s.OnTime d k m) : s.Due d k m := .inl h

/-- The scheduler looks at a disk. -/
theorem Due.scheduleDisk (hmapping : c.mapping = .striping) (hcovers : s.Covers) (h : s.Due d k m) :
    (State.scheduleDisk d (List.finRange c.requestQueue.length) 0 s).OnTime d k m
      ∧ ∀ d', d' ≠ d → SameLane s (State.scheduleDisk d (List.finRange c.requestQueue.length) 0 s) d' := by
  rw [hcovers.scheduleDisk_eq hmapping]
  rcases h with (⟨n, hbusy, hm⟩ | ⟨hk, hidle, hm⟩) | ⟨hk, hidle, hm, htimer⟩
  · -- the disk is at work
    rw [foldl_schedule_busy hbusy.diskState]
    exact ⟨.inl ⟨n, hbusy, hm⟩, fun d' _ => .refl s d'⟩
  · -- nothing is left to begin
    have hbegun : ∀ i ∈ c.queueOf d, s.status i 0 ≠ .notStarted := by
      intro i hi
      obtain ⟨j, hj, rfl⟩ := List.getElem_of_mem hi
      exact (hidle.begun.begun j hj (hk ▸ hj)).1
    rw [foldl_schedule_begun hmapping hbegun]
    exact ⟨.inr ⟨hk, hidle, hm⟩, fun d' _ => .refl s d'⟩
  · -- the scheduler passes over the first `k` requests and begins the next one
    have hmem : (c.queueOf d)[k] ∈ c.queueOf d := List.getElem_mem hk
    have hbegun : ∀ i ∈ (c.queueOf d).take k, s.status i 0 ≠ .notStarted := by
      intro i hi
      obtain ⟨j, hj, rfl⟩ := List.getElem_of_mem hi
      rw [List.length_take] at hj
      rw [List.getElem_take]
      exact (hidle.begun.begun j (by omega) (by omega)).1
    have hqueue : c.queueOf d = (c.queueOf d).take k ++ (c.queueOf d)[k] :: (c.queueOf d).drop (k + 1) := by
      rw [List.getElem_cons_drop, List.take_append_drop]
    have hloop : (c.queueOf d).foldl (fun s i => s.schedule d i) s
        = s.begin d (c.queueOf d)[k] (c.request (c.queueOf d)[k]).opType
            ((s.status (c.queueOf d)[k]).set 0 (c.request (c.queueOf d)[k]).opType.doing) := by
      conv_lhs => rw [hqueue]
      rw [List.foldl_append, List.foldl_cons, foldl_schedule_begun hmapping hbegun,
        schedule_waiting hmapping hidle.idle.diskState (Config.mem_queueOf.mp hmem) (hidle.begun.waiting k hk le_rfl).1]
      apply foldl_schedule_busy
      rw [begin_diskState]
      exact nofun
    have hdoing : (Statuses.set (s.status (c.queueOf d)[k]) 0 (c.request (c.queueOf d)[k]).opType.doing) 0
        ≠ .notStarted := by
      show (c.request (c.queueOf d)[k]).opType.doing ≠ .notStarted
      cases (c.request (c.queueOf d)[k]).opType <;> exact nofun
    rw [hloop]
    have hbegin := hidle.begin hk (htimer.trans (congrArg Nat.cast hm.symm)) hdoing
    exact ⟨.inl ⟨0, hbegin, hm⟩, fun d' hd => sameLane_begin hmem hd⟩

theorem covers_scheduleDisk (h : s.Covers) (rest : List c.Index) (count : ℤ) :
    (State.scheduleDisk d rest count s).Covers := by
  refine scheduleDisk_invariant (P := Covers) (fun t d' i' op status ht _ _ => ?_) h d rest count
  unfold Covers
  rwa [begin_frame.1]

/-- All disks, one after the other. -/
theorem due_scheduleDisks (hmapping : c.mapping = .striping) {k m : Disk → ℕ} (disks : List Disk) (hcovers : s.Covers)
    (hin : ∀ d ∈ disks, s.Due d (k d) (m d)) (hout : ∀ d, d ∉ disks → s.OnTime d (k d) (m d)) (d : Disk) :
    (disks.foldl (fun s d => State.scheduleDisk d (List.finRange c.requestQueue.length) 0 s) s).OnTime
      d (k d) (m d) := by
  induction disks generalizing s with
  | nil => exact hout d List.not_mem_nil
  | cons d₀ disks ih =>
    rw [List.foldl_cons]
    obtain ⟨htime, hother⟩ := (hin d₀ List.mem_cons_self).scheduleDisk hmapping hcovers
    refine ih (covers_scheduleDisk hcovers _ 0) (fun d' hd' => ?_) fun d' hd' => ?_
    · by_cases hd : d' = d₀
      · exact hd ▸ htime.due
      · exact (hin d' (List.mem_cons_of_mem d₀ hd')).congr (hother d' hd)
    · by_cases hd : d' = d₀
      · exact hd ▸ htime
      · refine (hout d' fun hmem => ?_).congr (hother d' hd)
        exact (List.mem_cons.mp hmem).elim hd hd'

/-- When all is performed, no disk has anything to begin. -/
theorem Due.onTime (h : s.Due d k m) (hmapping : c.mapping = .striping) (hs : s.Consistent)
    (hcount : s.requestCount = c.requestCountNeeded) : s.OnTime d k m := by
  refine h.resolve_right ?_
  rintro ⟨hk, hidle, -⟩
  have hexact : c.requestCountNeeded = c.total := Config.exact_of_ne_raid4 (by rw [hmapping]; exact nofun)
  have hall : s.core.AllComplete := hs.inv.allComplete_iff.mpr (hcount.trans hexact)
  have htodo : (c.kind (c.queueOf d)[k]).todo (s.status (c.queueOf d)[k]) = 0 := (hall _).1
  have hkind : c.kind (c.queueOf d)[k] = .stripe (c.request (c.queueOf d)[k]).opType := by
    unfold Config.kind Request.kind
    rw [hmapping]
  rw [hkind] at htodo
  have hone : (if s.status (c.queueOf d)[k] 0 = .notStarted then 1 else 0) = 0 := htodo
  rw [if_pos (hidle.begun.waiting k hk le_rfl).1] at hone
  cases hone

/-- **After `GetNextIOs` every disk is on time.** -/
theorem onTime_getNextIOs (hmapping : c.mapping = .striping) (hs : s.Consistent) (hcovers : s.Covers)
    {k m : Disk → ℕ} (h : ∀ d, s.Due d (k d) (m d)) (hnext : s.getNextIOs = some t) (d : Disk) :
    t.OnTime d (k d) (m d) := by
  rcases getNextIOs_eq_some_iff.mp hnext with ⟨hcount, -, rfl⟩ | ⟨-, rfl⟩
  · exact ((h d).onTime hmapping hs hcount).congr ⟨rfl, fun _ _ => rfl, fun _ _ => rfl, rfl⟩
  · exact due_scheduleDisks hmapping _ hcovers (fun d' _ => h d')
      (fun d' hd' => absurd (List.mem_finRange d') hd') d

/-- `GetNextIOs` adds neither to the timer nor to the latencies. -/
theorem getNextIOs_timer (hnext : s.getNextIOs = some t) : t.timer = s.timer ∧ t.latencyTotal = s.latencyTotal := by
  refine getNextIOs_invariant (P := fun t => t.timer = s.timer ∧ t.latencyTotal = s.latencyTotal) hnext ?_
    ⟨rfl, rfl⟩ ⟨rfl, rfl⟩
  intro t d i op status ht _ _
  rw [begin_frame.2.1, begin_frame.2.2]
  exact ht

/-! ## A tick -/

/-- A tick of one disk does not touch the lane of another one. -/
theorem Ticks.sameLane (h : Ticks d s t) (hd : d' ≠ d) (hstatus : ∀ i ∈ c.queueOf d', t.status i = s.status i) :
    SameLane s t d' :=
  ⟨h.other d' hd, hstatus, fun _ _ => congrFun h.startTime _, h.timer⟩

/-- The I/O of a busy disk goes on. -/
theorem BusyAfter.goOn (h : s.BusyAfter d k n) (hk : k < (c.queueOf d).length) (hticks : Ticks d s t)
    (hstatus : t.status = s.status)
    (hserving : ((s.drive d).tick d).Serving d (jobLog d ((c.queueOf d).take k)) (c.queueOf d)[k]
      (c.request (c.queueOf d)[k]).opType (n + 1)) : t.BusyAfter d k (n + 1) where
  lt := h.lt
  serving := hticks.self ▸ hserving
  begun := h.begun.congr (fun _ _ => congrFun hstatus _) fun _ _ => congrFun hticks.startTime _

/-- The I/O of a busy disk ends. -/
theorem BusyAfter.end (h : s.BusyAfter d k n) (hk : k < (c.queueOf d).length) (hticks : Ticks d s t)
    (hended : Ended (c.queueOf d)[k] s t)
    (hidle : ((s.drive d).tick d).Idle)
    (hlog : ((s.drive d).tick d).log = jobLog d ((c.queueOf d).take k)
      ++ [⟨.start, d, (c.queueOf d)[k], (c.request (c.queueOf d)[k]).opType⟩]
      ++ [⟨.finish, d, (c.queueOf d)[k], (c.request (c.queueOf d)[k]).opType⟩]) :
    t.IdleAfter d (k + 1) where
  idle := hticks.self ▸ hidle
  log := by
    rw [hticks.self, hlog, take_succ_queueOf h.lt, jobLog_concat]
  begun := by
    refine ⟨fun j hj hlt => ?_, fun j hj hle => ?_⟩
    · obtain ⟨hstatus, hstart⟩ := h.begun.begun j hj hlt
      rw [hticks.startTime]
      refine ⟨?_, hstart⟩
      by_cases heq : (c.queueOf d)[j] = (c.queueOf d)[k]
      · rw [heq] at hstatus ⊢
        exact hended.self hstatus
      · rwa [hended.other _ heq]
    · have hne : (c.queueOf d)[j] ≠ (c.queueOf d)[k] := by
        intro heq
        have hjk := (c.nodup_queueOf d).getElem_inj_iff.mp heq
        omega
      rw [hended.other _ hne, hticks.startTime]
      exact h.begun.waiting j hj hle

/-- Every disk is on time, with the number of ticks it has had, and each request done has added its own latency. -/
structure Punctual (s : State c) (k m : Disk → ℕ) : Prop where
  consistent : s.Consistent
  lanes : ∀ d, s.OnTime d (k d) (m d)
  latencyTotal : s.latencyTotal = (∑ d, c.ticksBefore d (k d) : ℕ)

/-- **One disk in the loop of `Animate`.** -/
theorem Punctual.animateDisk {k m : Disk → ℕ} (hmapping : c.mapping = .striping) (hwindow : c.Unbounded)
    (h : s.Punctual k m) (htimer : s.timer = m d + 1) :
    ∃ s' k', s.animateDisk d = some s' ∧ s'.timer = s.timer
      ∧ s'.Punctual k' (Function.update m d (m d + 1)) := by
  rcases h.lanes d with ⟨n, hbusy, hm⟩ | ⟨hk, hidle, hm⟩
  · obtain ⟨t, ht, hticks, hresult⟩ := h.consistent.animateDisk_striping hmapping hbusy.diskState
    rcases hbusy.serving.tick with ⟨-, hserving⟩ | ⟨hlast, hidle, hlog⟩
    · -- the I/O goes on
      have hbusy' : t.diskState d ≠ .null := (hticks.self ▸ hserving).diskState_ne
      rcases hresult with ⟨-, hstep, hstatus, hlatency⟩ | ⟨hnull, -⟩
      · refine ⟨t, k, hstep, hticks.timer, ht, fun d' => ?_, hlatency.trans h.latencyTotal⟩
        by_cases hd : d' = d
        · subst hd
          rw [Function.update_self]
          exact .inl ⟨n + 1, hbusy.goOn hbusy.lt hticks hstatus hserving, by omega⟩
        · rw [Function.update_of_ne hd]
          exact (h.lanes d').congr (hticks.sameLane hd fun _ _ => congrFun hstatus _)
      · exact absurd hnull hbusy'
    · -- the I/O ends, and the scheduler looks for the next one
      have hidle' : t.diskState d = .null := (hticks.self ▸ hidle).diskState
      rcases hresult with ⟨hbusy', -⟩ | ⟨-, hstep, i, htarget, hended⟩
      · exact absurd hidle' hbusy'
      · have hk := hbusy.lt
        obtain rfl : i = (c.queueOf d)[k d] :=
          Option.some_inj.mp (htarget.symm.trans hbusy.serving.currentTarget)
        have hafter : t.IdleAfter d (k d + 1) := hbusy.end hk hticks hended hidle hlog
        have hticks' : c.ticksBefore d (k d + 1) = m d + 1 := by
          rw [ticksBefore_succ hbusy.lt]
          omega
        have hstart := (hbusy.begun.begun (k d) hbusy.lt (Nat.lt_succ_self _)).2
        have hdue : ∀ d', t.Due d' (Function.update k d (k d + 1) d') (Function.update m d (m d + 1) d') := by
          intro d'
          by_cases hd : d' = d
          · subst hd
            rw [Function.update_self, Function.update_self]
            by_cases hmore : k d' + 1 < (c.queueOf d').length
            · exact .inr ⟨hmore, hafter, hticks', by rw [hticks.timer, htimer, Nat.cast_succ]⟩
            · exact .inl (.inr ⟨le_antisymm hbusy.lt (not_lt.mp hmore), hafter, hticks'.le⟩)
          · rw [Function.update_of_ne hd, Function.update_of_ne hd]
            refine ((h.lanes d').congr (hticks.sameLane hd fun i' hi' => hended.other i' ?_)).due
            rintro rfl
            exact hd (Fin.ext ((Config.mem_queueOf.mp hi').symm.trans
              (Config.mem_queueOf.mp (List.getElem_mem hbusy.lt))))
        -- only this disk has ended a request, and its latency is the time since its start
        have hsum := Finset.sum_add_of_agree (f := fun d' => c.ticksBefore d' (Function.update k d (k d + 1) d'))
          (g := fun d' => c.ticksBefore d' (k d')) d fun d' hd => by rw [Function.update_of_ne hd]
        simp only [Function.update_self] at hsum
        have hexact : c.Exact := Config.exact_of_ne_raid4 (by rw [hmapping]; exact nofun)
        obtain ⟨s', hnext⟩ := ht.exists_getNextIOs hexact
        obtain ⟨htimer', hlatency⟩ := getNextIOs_timer hnext
        refine ⟨s', Function.update k d (k d + 1), hstep.trans hnext, htimer'.trans hticks.timer,
          ht.getNextIOs hnext, onTime_getNextIOs hmapping ht (ht.covers hwindow) hdue hnext, ?_⟩
        rw [hlatency, hended.latencyTotal, hstart, h.latencyTotal, htimer]
        omega
  · -- the disk has nothing left to do
    refine ⟨s, k, animateDisk_null hidle.idle.diskState, rfl, h.consistent, fun d' => ?_, h.latencyTotal⟩
    by_cases hd : d' = d
    · subst hd
      rw [Function.update_self]
      exact .inr ⟨hk, hidle, hm.trans (Nat.le_succ _)⟩
    · rw [Function.update_of_ne hd]
      exact h.lanes d'

/-- The loop of `Animate`. -/
theorem Punctual.animateDisks {k m : Disk → ℕ} (hmapping : c.mapping = .striping) (hwindow : c.Unbounded)
    (h : s.Punctual k m) (disks : List Disk) (hnodup : disks.Nodup) (htimer : ∀ d ∈ disks, s.timer = m d + 1) :
    ∃ s' k', disks.foldlM State.animateDisk s = some s' ∧ s'.timer = s.timer
      ∧ s'.Punctual k' fun d => if d ∈ disks then m d + 1 else m d := by
  induction disks generalizing s k m with
  | nil =>
    refine ⟨s, k, rfl, rfl, ?_⟩
    simpa only [List.not_mem_nil, if_false] using h
  | cons d disks ih =>
    obtain ⟨hd, hnodup⟩ := List.nodup_cons.mp hnodup
    obtain ⟨t, k', hstep, htimer', ht⟩ := h.animateDisk hmapping hwindow (htimer d List.mem_cons_self)
    obtain ⟨s', k'', hloop, htimer'', hs'⟩ := ih ht hnodup fun d' hd' => by
      have hne : d' ≠ d := by
        rintro rfl
        exact hd hd'
      rw [htimer', Function.update_of_ne hne]
      exact htimer d' (List.mem_cons_of_mem d hd')
    refine ⟨s', k'', ?_, htimer''.trans htimer', ?_⟩
    · rw [List.foldlM_cons, hstep]
      exact hloop
    · convert hs' using 2 with d'
      by_cases heq : d' = d
      · subst heq
        rw [if_pos List.mem_cons_self, if_neg hd, Function.update_self]
      · simp only [List.mem_cons, heq, false_or, Function.update_of_ne heq]

/-! ## Runs -/

/-- At the start, every disk is due to begin. -/
theorem init_due (d : Disk) : (State.init c).Due d 0 0 := by
  have hidle : (State.init c).IdleAfter d 0 :=
    ⟨⟨rfl, rfl, rfl⟩, rfl, fun j _ hlt => absurd hlt (Nat.not_lt_zero j), fun _ _ _ => ⟨rfl, rfl⟩⟩
  rcases Nat.eq_zero_or_pos (c.queueOf d).length with hnone | hsome
  · exact .inl (.inr ⟨hnone.symm, hidle, le_rfl⟩)
  · exact .inr ⟨hsome, hidle, rfl, rfl⟩

/-- `Start`. -/
theorem start_punctual (hmapping : c.mapping = .striping) (hwindow : c.Unbounded)
    (hnext : (State.init c).getNextIOs = some s) : s.Punctual (fun _ => 0) fun _ => 0 := by
  have hinit : (State.init c).Consistent := init_consistent
  refine ⟨hinit.getNextIOs hnext, onTime_getNextIOs hmapping hinit (hinit.covers hwindow) init_due hnext, ?_⟩
  rw [(getNextIOs_timer hnext).2]
  show (0 : ℤ) = (∑ d : Disk, 0 : ℕ)
  rw [Finset.sum_const_zero, Nat.cast_zero]

end State

/-- The ticks of the disk that has most to do. -/
def Config.makespan (c : Config) : ℕ := Finset.univ.sup c.diskTicks

/-- A state between two ticks, `m` of which have gone by. -/
structure State.Scheduled (s : State c) (m : ℕ) : Prop where
  reached : s.Reached
  timer : s.timer = m
  le : m ≤ c.makespan
  punctual : ∃ k, s.Punctual k fun _ => m

namespace State

variable {s t : State c} {d : Disk} {j k m n : ℕ}

/-- A busy disk has not come to the end of its work. -/
theorem OnTime.lt (h : s.OnTime d k m) (hbusy : s.diskState d ≠ .null) : m < c.diskTicks d := by
  rcases h with ⟨n, hserving, hm⟩ | ⟨-, hidle, -⟩
  · have hlast := c.ticksBefore_le_diskTicks d (k + 1)
    rw [ticksBefore_succ hserving.lt] at hlast
    have hlt := hserving.serving.lt
    omega
  · exact absurd hidle.idle.diskState hbusy

/-- A disk on time is idle only when it has served its queue. -/
theorem OnTime.of_idle (h : s.OnTime d k m) (hnull : s.diskState d = .null) :
    k = (c.queueOf d).length ∧ c.diskTicks d ≤ m := by
  rcases h with ⟨n, hbusy, -⟩ | ⟨hk, -, hm⟩
  · exact absurd hnull hbusy.diskState
  · rw [hk, ticksBefore_length] at hm
    exact ⟨hk, hm⟩

/-- A request has its start time from the tick on in which the one before it ends. -/
theorem OnTime.startTime (h : s.OnTime d k m) (hj : j < (c.queueOf d).length) :
    s.startTime (c.queueOf d)[j] = if c.ticksBefore d j ≤ m then (c.ticksBefore d j : ℤ) else -1 := by
  rcases h with ⟨n, hbusy, hm⟩ | ⟨hk, hidle, hm⟩
  · by_cases hlt : j < k + 1
    · have hle := c.ticksBefore_mono d (Nat.le_of_lt_succ hlt)
      rw [if_pos (by omega)]
      exact (hbusy.begun.begun j hj hlt).2
    · have hle := c.ticksBefore_mono d (not_lt.mp hlt)
      have hserving := hbusy.serving.lt
      rw [ticksBefore_succ hbusy.lt] at hle
      rw [if_neg (by omega)]
      exact (hbusy.begun.waiting j hj (not_lt.mp hlt)).2
  · have hle := c.ticksBefore_mono d (hk ▸ hj.le)
    rw [if_pos (hle.trans hm)]
    exact (hidle.begun.begun j hj (hk ▸ hj)).2

/-- The tick of the timer does not touch a disk. -/
theorem OnTime.tickTimer (h : s.OnTime d k m) : s.tickTimer.OnTime d k m := by
  rcases h with ⟨n, hbusy, hm⟩ | ⟨hk, hidle, hm⟩
  · exact .inl ⟨n, ⟨hbusy.lt, hbusy.serving, hbusy.begun.begun, hbusy.begun.waiting⟩, hm⟩
  · exact .inr ⟨hk, ⟨hidle.idle, hidle.log, hidle.begun.begun, hidle.begun.waiting⟩, hm⟩

/-- The simulation is done when the last disk is. -/
theorem Scheduled.isDone_iff (hmapping : c.mapping = .striping) (h : s.Scheduled m) :
    s.isDone = true ↔ m = c.makespan := by
  have hexact : c.Exact := Config.exact_of_ne_raid4 (by rw [hmapping]; exact nofun)
  obtain ⟨k, hpunctual⟩ := h.punctual
  constructor
  · intro hdone
    have hfinished := h.reached.finished ((h.reached.isDone_iff hexact).mp hdone)
    apply le_antisymm h.le
    exact Finset.sup_le fun d _ => ((hpunctual.lanes d).of_idle (hfinished.idle d)).2
  · intro hm
    by_contra hnot
    rw [Bool.not_eq_true] at hnot
    obtain ⟨d, hbusy⟩ := h.reached.busy ((Core.reachable_settled hexact h.reached.reachable).busy hnot)
    have hlt := (hpunctual.lanes d).lt hbusy
    have hle : c.diskTicks d ≤ c.makespan := Finset.le_sup (Finset.mem_univ d)
    omega

/-- **One tick.** -/
theorem Scheduled.animate (hmapping : c.mapping = .striping) (hwindow : c.Unbounded) (h : s.Scheduled m) :
    ∃ s', s.animate = some s' ∧ s'.Scheduled (min (m + 1) c.makespan) := by
  obtain ⟨k, hpunctual⟩ := h.punctual
  have hexact : c.Exact := Config.exact_of_ne_raid4 (by rw [hmapping]; exact nofun)
  obtain ⟨s', hanimate⟩ := h.reached.exists_animate hexact
  obtain ⟨hreached, hstop, -⟩ := h.reached.animate hanimate
  refine ⟨s', hanimate, ?_⟩
  by_cases hdone : s.isDone = true
  · have hm := (h.isDone_iff hmapping).mp hdone
    rw [hstop hdone, min_eq_right (by omega), ← hm]
    exact h
  · have hm : m ≠ c.makespan := fun heq => hdone ((h.isDone_iff hmapping).mpr heq)
    have hgo : s.doAnimate = true := h.reached.doAnimate_of_not (Bool.eq_false_iff.mpr hdone)
    have hticked : s.tickTimer.Punctual k fun _ => m :=
      ⟨⟨hpunctual.consistent.targeted, hpunctual.consistent.inv⟩,
        fun d => (hpunctual.lanes d).tickTimer, hpunctual.latencyTotal⟩
    obtain ⟨t, k', hloop, htimer, ht⟩ := hticked.animateDisks hmapping hwindow (List.finRange 4)
      (List.nodup_finRange 4) fun d _ => congrArg (· + 1) h.timer
    unfold State.animate at hanimate
    rw [if_pos hgo] at hanimate
    obtain rfl : t = s' := Option.some_inj.mp (hloop.symm.trans hanimate)
    have hle := h.le
    rw [min_eq_left (by omega)]
    refine ⟨hreached, ?_, by omega, k', ?_⟩
    · rw [htimer, Nat.cast_succ, ← h.timer]
      rfl
    · simpa only [List.mem_finRange, if_true] using ht

/-- **Whole runs follow the schedule.** -/
theorem run_scheduled (hmapping : c.mapping = .striping) (hwindow : c.Unbounded) (n : ℕ) :
    ∃ s, run c n = some s ∧ s.Scheduled (min (n + 1) c.makespan) := by
  induction n with
  | zero =>
    have hexact : c.Exact := Config.exact_of_ne_raid4 (by rw [hmapping]; exact nofun)
    obtain ⟨t, hnext⟩ := init_consistent.exists_getNextIOs hexact
    have hstart : t.Scheduled 0 :=
      ⟨start_reached hnext, (getNextIOs_timer hnext).1, Nat.zero_le _, _, start_punctual hmapping hwindow hnext⟩
    obtain ⟨s, hanimate, hs⟩ := hstart.animate hmapping hwindow
    refine ⟨s, ?_, hs⟩
    show (State.init c).getNextIOs.bind State.animate = some s
    rw [hnext]
    exact hanimate
  | succ n ih =>
    obtain ⟨s, hrun, hs⟩ := ih
    obtain ⟨s', hanimate, hs'⟩ := hs.animate hmapping hwindow
    refine ⟨s', ?_, ?_⟩
    · show (run c n).bind State.animate = some s'
      rw [hrun]
      exact hanimate
    · have hmin : min (min (n + 1) c.makespan + 1) c.makespan = min (n + 1 + 1) c.makespan := by omega
      exact hmin ▸ hs'

end State

/-- **The schedule of a striped run**, from the request list alone: a disk serves its own requests in the order of the
list, each begins in the tick in which the one before it ends, the simulation is done when the disk that has most to
do is, and the latencies then sum up to the ticks of all disks. -/
theorem striping_schedule (c : Config) (hmapping : c.mapping = .striping) (hwindow : c.Unbounded) (n : ℕ) :
    ∃ s, run c n = some s
      ∧ s.timer = (min (n + 1) c.makespan : ℕ)
      ∧ (s.isDone = true ↔ c.makespan ≤ n + 1)
      ∧ (∀ (d : Disk) (j : ℕ) (h : j < (c.queueOf d).length),
        s.startTime (c.queueOf d)[j] = if c.ticksBefore d j ≤ n + 1 then (c.ticksBefore d j : ℤ) else -1)
      ∧ (s.isDone = true → s.latencyTotal = (∑ d, c.diskTicks d : ℕ)
        ∧ ∀ d, (s.log.filter fun ev => ev.disk = d) = jobLog d (c.queueOf d)) := by
  obtain ⟨s, hrun, hs⟩ := State.run_scheduled hmapping hwindow n
  have hdone := hs.isDone_iff hmapping
  obtain ⟨k, hpunctual⟩ := hs.punctual
  refine ⟨s, hrun, hs.timer, ?_, fun d j hj => ?_, fun hd => ?_⟩
  · rw [hdone]
    omega
  · rw [(hpunctual.lanes d).startTime hj]
    have hle : c.ticksBefore d j ≤ c.makespan :=
      (c.ticksBefore_le_diskTicks d j).trans (Finset.le_sup (Finset.mem_univ d))
    simp only [le_min_iff, hle, and_true]
  · have hexact : c.Exact := Config.exact_of_ne_raid4 (by rw [hmapping]; exact nofun)
    have hfinished := hs.reached.finished ((hs.reached.isDone_iff hexact).mp hd)
    have hall : ∀ d, k d = (c.queueOf d).length := fun d =>
      ((hpunctual.lanes d).of_idle (hfinished.idle d)).1
    refine ⟨?_, fun d => ?_⟩
    · simp only [hpunctual.latencyTotal, hall, ticksBefore_length]
    · rcases hpunctual.lanes d with ⟨n', hbusy, -⟩ | ⟨-, hidle, -⟩
      · exact absurd (hfinished.idle d) hbusy.diskState
      · have hlog := hidle.log
        rw [hall d, List.take_length] at hlog
        exact hlog

/-- Three requests on two disks. The second disk has most to do: 12 ticks and then 3. -/
def twoDisks : Config :=
  .ofArgs .striping [(5, .read), (9, .write), (0, .read)] 10 (-1) (by decide)

/-- Two disks with two requests each take fifteen ticks. -/
theorem striping_schedule_twoDisks :
    ∃ s, run twoDisks 14 = some s ∧ s.timer = 15 ∧ s.isDone = true ∧ s.latencyTotal = 16 := by
  obtain ⟨s, hrun, htimer, hdone, -, hend⟩ := striping_schedule twoDisks rfl (.inl rfl) 14
  have hspan : twoDisks.makespan = 15 := by decide
  have hsum : ∑ d, twoDisks.diskTicks d = 16 := by decide
  rw [hspan] at htimer hdone
  have hisDone := hdone.mpr le_rfl
  refine ⟨s, hrun, htimer, hisDone, ?_⟩
  rw [(hend hisDone).1, hsum]
  rfl

end Cs537.Graphics
