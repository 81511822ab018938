import Cs537.Graphics.FullStripe
import Cs537.Graphics.Striping

/-!
# Keys

The scheduler leaves no disk idle that could start an I/O, and starting one I/O does not make another one possible.
Running it again before an I/O has ended therefore changes nothing, and whatever keys are pressed, and whenever, the
disks do what they do in a run without keys that has as many ticks as there were outside the pauses.
-/

namespace Cs537.Graphics

variable {c : Config}

/-! ## Idle disks -/

namespace Kind

variable {k : Kind} {status status' : Statuses} {e e' : Fin 2} {op : OpType}

/-- An I/O can be started on the entry. -/
def Ready (k : Kind) (e : Fin 2) (value : ReqStatus) : Prop :=
  match k with
  | stripe _ | parityRead => e = 0 ∧ value = .notStarted
  | smallWrite => value = .notStarted ∨ value = .parityWritePhaseBegin
  | _ => value = .notStarted

/-- Nothing starts on an entry exactly when it is not ready. -/
theorem start_eq_none_iff : k.start status e = none ↔ ¬ k.Ready e (status e) := by
  cases k with
  | smallWrite =>
    simp only [start, Request.subtractiveParity, Ready]
    split
    · simp [*]
    · split <;> simp [*]
  | stripe op | parityRead =>
    simp only [start, Ready, ite_eq_right_iff, reduceCtorEq, imp_false]
    refine not_congr (and_congr_right fun he => ?_)
    rw [he]
  | _ => simp [start, Ready]

/-- The I/O on the entry is under way or over. -/
def Taken (value : ReqStatus) : Prop := value = .doRead ∨ value = .doWrite ∨ value = .done

/-- An entry that is taken is not ready. -/
theorem Taken.not_ready {value : ReqStatus} (h : Taken value) : ¬ k.Ready e value := by
  rcases h with rfl | rfl | rfl <;> cases k <;> simp [Ready]

/-- What an I/O leaves in its entry takes it. -/
theorem taken_doing (op : OpType) : Taken op.doing := by
  cases op <;> simp [Taken, OpType.doing]

/-- Each entry is as it was, or taken. -/
def Taking (status status' : Statuses) : Prop := ∀ i, status' i = status i ∨ Taken (status' i)

theorem Taking.refl (status : Statuses) : Taking status status := fun _ => .inl rfl

/-- Taking one entry more. -/
theorem Taking.set {value : ReqStatus} (h : Taking status status') (hvalue : Taken value) (index : Fin 2) :
    Taking status (status'.set index value) := by
  intro i
  unfold Statuses.set
  split
  · exact .inr hvalue
  · exact h i

/-- A start takes entries and touches no other ones. -/
theorem start_taking (hstart : k.start status e = some (op, status')) : Taking status status' := by
  have hread := (Taking.refl status).set (taken_doing .read)
  have hwrite := (Taking.refl status).set (taken_doing .write)
  have hdone : Taken .done := .inr (.inr rfl)
  cases k with
  | stripe op' =>
    obtain ⟨-, heq⟩ := Option.ite_none_right_eq_some.mp hstart
    cases heq
    exact (Taking.refl status).set (taken_doing op) 0
  | mirrorRead =>
    obtain ⟨-, heq⟩ := Option.ite_none_right_eq_some.mp hstart
    cases heq
    exact (hread e).set hdone (1 - e)
  | mirrorWrite | stripeParity =>
    obtain ⟨-, heq⟩ := Option.ite_none_right_eq_some.mp hstart
    cases heq
    exact hwrite e
  | parityRead =>
    obtain ⟨-, heq⟩ := Option.ite_none_right_eq_some.mp hstart
    cases heq
    exact hread 0
  | stripeData =>
    obtain ⟨-, heq⟩ := Option.ite_none_right_eq_some.mp hstart
    cases heq
    exact (hwrite e).set hdone (1 - e)
  | smallWrite =>
    -- both phases take the entry of the asking disk
    simp only [start, Request.subtractiveParity] at hstart
    split at hstart
    · cases hstart
      exact hread e
    · obtain ⟨-, heq⟩ := Option.ite_none_right_eq_some.mp hstart
      cases heq
      exact hwrite e

/-- Starting an I/O does not make another one possible. -/
theorem start_eq_none (hstart : k.start status e = some (op, status')) (hnone : k.start status e' = none) :
    k.start status' e' = none := by
  rw [start_eq_none_iff] at hnone ⊢
  rcases start_taking hstart e' with heq | htaken
  · rwa [heq]
  · exact htaken.not_ready

/-- Whatever has not been started can be started on its first disk. -/
theorem start_ne_none (h : status 0 = .notStarted) : k.start status 0 ≠ none := by
  cases k <;> simp [start, Request.subtractiveParity, h]

end Kind

namespace Core

variable {s : Core c} {d d' : Disk} {i : c.Index}

/-- A start leaves the other disks with nothing to start. -/
theorem QuietOn.start {op : OpType} {status : Statuses} (h : s.QuietOn d') (hd : d' ≠ d)
    (hschedule : (c.request i).doScheduling c.mapping (s.status i) d = some (op, status)) :
    (s.start d i op status).QuietOn d' := by
  intro j hidle helig
  rw [start_serving, if_neg hd] at hidle
  have hnone := h j hidle helig
  rw [start_status]
  by_cases hj : j = i
  · subst hj
    rw [if_pos rfl]
    rw [c.doScheduling_eq] at hnone hschedule ⊢
    cases hentry : (c.request j).diskIndex d' with
    | none => rfl
    | some e' =>
      obtain ⟨e, -, hstart⟩ := Option.bind_eq_some_iff.mp hschedule
      rw [hentry] at hnone
      exact Kind.start_eq_none hstart hnone
  · rw [if_neg hj]
    exact hnone

/-- When the scheduler is done with a disk, the disk is busy or has nothing to start. -/
theorem scheduleDisk_quietOn (s : Core c) (d : Disk) : (s.scheduleDisk d).QuietOn d := by
  rcases s.scheduleDisk_cases d with ⟨heq, hquiet⟩ | ⟨i, op, status, -, heq⟩
  · rwa [heq]
  · intro j hidle
    rw [heq, start_serving, if_pos rfl] at hidle
    cases hidle

/-- The loop of any disk leaves the others with nothing to start. -/
theorem QuietOn.scheduleDisk (h : s.QuietOn d') (d : Disk) : (s.scheduleDisk d).QuietOn d' := by
  by_cases hd : d' = d
  · exact hd ▸ scheduleDisk_quietOn s d
  · rcases s.scheduleDisk_cases d with ⟨heq, -⟩ | ⟨i, op, status, htakes, heq⟩
    · rwa [heq]
    · rw [heq]
      exact h.start hd htakes.schedule

/-- After the loop over the disks, none that is idle has anything to start. -/
theorem foldl_scheduleDisk_quietOn (s : Core c) {disks : List Disk} (hd : d ∈ disks) :
    (disks.foldl Core.scheduleDisk s).QuietOn d := by
  induction disks generalizing s with
  | nil => cases hd
  | cons d' disks ih =>
    rw [List.foldl_cons]
    rcases List.mem_cons.mp hd with rfl | hd
    · exact List.foldlRecOn (motive := fun t : Core c => t.QuietOn d) _ _ (scheduleDisk_quietOn s d)
        fun t ht d' _ => ht.scheduleDisk d'
    · exact ih _ hd

/-- **After `GetNextIOs`**, no idle disk has anything to start, unless the simulation is done. -/
theorem getNextIOs_quiet {t : Core c} (hnext : s.getNextIOs = some t) (hgo : t.isDone = false) :
    t.requestCount ≠ c.requestCountNeeded ∧ t.Quiet := by
  rw [getNextIOs_requestCount hnext]
  rcases getNextIOs_eq_some_iff.mp hnext with ⟨-, -, rfl⟩ | ⟨hcount, rfl⟩
  · cases hgo
  · exact ⟨hcount, fun d i => foldl_scheduleDisk_quietOn s (List.mem_finRange d) i⟩

/-- Before the end, every reachable state is quiet, unless `Start` has failed. -/
theorem reachable_quiet (hneeded : c.requestCountNeeded ≠ 0) (h : (untimed c).Reachable s) (hgo : s.isDone = false) :
    s.requestCount ≠ c.requestCountNeeded ∧ s.Quiet := by
  have hstart : (init c).getNextIOs = some (untimed c).init := by
    have hnext : (init c).getNextIOs = some (init c).scheduleDisks :=
      getNextIOs_eq_some_iff.mpr (.inr ⟨hneeded.symm, rfl⟩)
    rw [hnext]
    exact congrArg (fun o => some (o.getD (init c))) hnext.symm
  refine h.invariant (I := fun t => t.isDone = false → t.requestCount ≠ c.requestCountNeeded ∧ t.Quiet)
    (getNextIOs_quiet hstart) (fun d t t' hstep _ => ?_) hgo
  obtain ⟨u, -, hnext⟩ := Option.bind_eq_some_iff.mp hstep
  exact getNextIOs_quiet hnext

end Core

/-- **The scheduler is work-conserving**: between two ticks and before the end, an idle disk has nothing to start for
any request within the window. In particular the first disk of a request that waits there is busy. No tick fails,
unless RAID-4 takes reads for a full stripe. -/
theorem work_conserving (c : Config) (n : ℕ) :
    (∀ s, run c n = some s → s.isDone = false → ∀ d, s.diskState d = .null →
      ∀ i : c.Index, s.window = -1 ∨ (i : ℤ) < s.window →
        (c.request i).doScheduling c.mapping (s.status i) d = none
          ∧ ((c.request i).physDiskList[0]? = some d → s.status i 0 ≠ .notStarted))
      ∧ ((c.mapping = .raid4 → TriplesWritten c.addr) → ∃ s, run c n = some s) := by
  refine ⟨fun s hrun hgo d hnull i helig => ?_, fun hcount => ?_⟩
  · have hs := reached_of_run hrun
    have hidle : s.core.serving d = none := (State.core_serving_eq_none_iff (hs.timing.targeted d)).mpr hnull
    have hnone := (Core.reachable_quiet hs.needed hs.reachable hgo).2 d i hidle helig
    refine ⟨hnone, fun hfirst hwaiting => ?_⟩
    have hentry : (c.request i).diskIndex d = some 0 := c.diskIndex_eq_some_iff.mpr hfirst
    rw [c.doScheduling_eq, hentry] at hnone
    exact Kind.start_ne_none hwaiting hnone
  · obtain ⟨s, hrun, -⟩ := run_reached (Config.exact_of_triplesWritten hcount) n
    exact ⟨s, hrun⟩

/-- Once the full stripe is written, the last read leaves three disks idle. -/
theorem work_conserving_writeThenRead :
    ∃ s, run writeThenRead 3 = some s ∧ s.diskState 0 = .null
      ∧ ∀ i : writeThenRead.Index, (writeThenRead.request i).doScheduling .raid4 (s.status i) 0 = none := by
  obtain ⟨hidle, hrun⟩ := work_conserving writeThenRead 3
  obtain ⟨s, hs⟩ := hrun (by decide)
  have hstate : (run writeThenRead 3).any (fun s =>
      s.isDone = false ∧ s.diskState 0 = .null ∧ s.window = -1) = true := by decide +kernel
  rw [hs] at hstate
  obtain ⟨hgo, hnull, hwindow⟩ := of_decide_eq_true hstate
  exact ⟨s, hs, hnull, fun i => (hidle s hs hgo 0 hnull i (.inl hwindow)).1⟩

/-! ## Running the scheduler again -/

namespace State

variable {s t : State c}

/-- Looking at a request that calls for nothing changes nothing. -/
theorem schedule_eq_self {d : Disk} {i : c.Index}
    (hnone : s.diskState d = .null → (c.request i).doScheduling c.mapping (s.status i) d = none) :
    s.schedule d i = s := by
  by_cases hnull : s.diskState d = .null
  · exact schedule_none (hnone hnull)
  · exact schedule_busy hnull

/-- A loop over requests that are none of the disk's business, or outside the window. -/
theorem scheduleDisk_eq_self {d : Disk} {rest : List c.Index} {k : ℕ} {count : ℤ}
    (hrest : rest.map Fin.val = List.range' k rest.length)
    (hcount : count = k ∨ (s.window ≠ -1 ∧ s.window ≤ count ∧ s.window ≤ k))
    (hquiet : ∀ i : c.Index, s.core.Eligible i → s.diskState d = .null →
      (c.request i).doScheduling c.mapping (s.status i) d = none) : scheduleDisk d rest count s = s := by
  induction rest generalizing k count with
  | nil => rfl
  | cons i rest ih =>
    rw [List.map_cons, List.length_cons, List.range'_succ, List.cons.injEq] at hrest
    obtain ⟨hi, hrest⟩ := hrest
    unfold scheduleDisk
    split
    · exact ih hrest (by omega)
    · have helig : s.core.Eligible i := by
        by_cases hall : s.window = -1
        · exact .inl hall
        · refine .inr ?_
          show ((i : ℕ) : ℤ) < s.window
          omega
      rw [schedule_eq_self (hquiet i helig)]
      exact ih hrest (by omega)

/-- Between two ticks and before the end, the scheduler finds nothing to start. -/
theorem Reached.scheduleDisks_eq (h : s.Reached) (hgo : s.isDone = false) : s.scheduleDisks = s := by
  have hquiet := (Core.reachable_quiet h.needed h.reachable hgo).2
  have hdisk : ∀ d, scheduleDisk d (List.finRange c.requestQueue.length) 0 s = s := fun d => by
    refine scheduleDisk_eq_self (k := 0) ?_ (.inl rfl) fun i helig hnull => ?_
    · rw [List.map_coe_finRange_eq_range, List.length_finRange, List.range_eq_range']
    · exact hquiet d i ((core_serving_eq_none_iff (h.timing.targeted d)).mpr hnull) helig
  exact List.foldlRecOn (motive := fun t => t = s) _ _ rfl fun t ht d _ => ht ▸ hdisk d

/-! ## Keys -/

/-- The state, paused or not. -/
def setAnimate (s : State c) (on : Bool) : State c := { s with doAnimate := on }

/-- Starting an I/O does not look at `do_animate`. -/
theorem begin_setAnimate (s : State c) (on : Bool) (d : Disk) (i : c.Index) (op : OpType) (status : Statuses) :
    (s.setAnimate on).begin d i op status = (s.begin d i op status).setAnimate on := by
  unfold State.begin markStart setAnimate
  split <;> rfl

/-- Whether it is paused is not the scheduler's business. -/
theorem schedule_setAnimate (s : State c) (on : Bool) (d : Disk) (i : c.Index) :
    (s.setAnimate on).schedule d i = (s.schedule d i).setAnimate on := by
  by_cases hnull : s.diskState d = .null
  · cases hsome : (c.request i).doScheduling c.mapping (s.status i) d with
    | none => rw [schedule_none hsome, schedule_none (s := s.setAnimate on) hsome]
    | some r =>
      rw [schedule_some hnull hsome, schedule_some (s := s.setAnimate on) hnull hsome, begin_setAnimate]
  · rw [schedule_busy hnull, schedule_busy (s := s.setAnimate on) hnull]

theorem scheduleDisk_setAnimate (s : State c) (on : Bool) (d : Disk) (rest : List c.Index) (count : ℤ) :
    scheduleDisk d rest count (s.setAnimate on) = (scheduleDisk d rest count s).setAnimate on := by
  induction rest generalizing s count with
  | nil => rfl
  | cons i rest ih =>
    have hwindow : (s.setAnimate on).window = s.window := rfl
    unfold scheduleDisk
    rw [hwindow]
    split
    · exact ih s count
    · rw [schedule_setAnimate]
      exact ih _ _

theorem scheduleDisks_setAnimate (s : State c) (on : Bool) :
    (s.setAnimate on).scheduleDisks = s.scheduleDisks.setAnimate on := by
  have hloop : ∀ (disks : List Disk) (t : State c),
      disks.foldl (fun s d => scheduleDisk d (List.finRange c.requestQueue.length) 0 s) (t.setAnimate on)
        = (disks.foldl (fun s d => scheduleDisk d (List.finRange c.requestQueue.length) 0 s) t).setAnimate on := by
    intro disks
    induction disks with
    | nil => exact fun t => rfl
    | cons d disks ih =>
      intro t
      rw [List.foldl_cons, List.foldl_cons, scheduleDisk_setAnimate]
      exact ih _
  exact hloop _ s

/-- **Between two ticks `GetNextIOs` does nothing** before the end, also in a pause. -/
theorem Reached.getNextIOs_setAnimate (h : s.Reached) (hgo : s.isDone = false) (on : Bool) :
    (s.setAnimate on).getNextIOs = some (s.setAnimate on) := by
  have hcount : (s.setAnimate on).requestCount ≠ c.requestCountNeeded :=
    (Core.reachable_quiet h.needed h.reachable hgo).1
  refine getNextIOs_eq_some_iff.mpr (.inr ⟨hcount, ?_⟩)
  rw [scheduleDisks_setAnimate, h.scheduleDisks_eq hgo]

/-- The state `s` of a run with keys is at the state `t` of a run without: only the two clocks may differ, and before
the end only by a pause. -/
structure Follows (on : Bool) (s t : State c) : Prop where
  same : { s with doAnimate := t.doAnimate, timer := t.timer } = t
  going : t.isDone = false → s = t.setAnimate on
  reached : t.Reached

variable {on : Bool}

/-- A press of `p` turns the animation on or off, and nothing else. -/
theorem Follows.pause (h : Follows on s t) : Follows (!on) s.pause t where
  same := h.same
  going hgo := by rw [h.going hgo]; rfl
  reached := h.reached

/-- Before the end, `GetNextIOs` starts nothing, whatever keys have been pressed. -/
theorem Follows.getNextIOs_eq (h : Follows on s t) (hgo : t.isDone = false) : s.getNextIOs = some s := by
  rw [h.going hgo]
  exact h.reached.getNextIOs_setAnimate hgo on

/-- After the end, the disks are idle and only the timer goes on. -/
theorem Follows.animate_done (hexact : c.Exact) (h : Follows on s t) (hdone : t.isDone = true) :
    ∃ s', s.animate = some s' ∧ Follows on s' t := by
  have hidle := (h.reached.finished ((h.reached.isDone_iff hexact).mp hdone)).idle
  have hnull : ∀ d, s.diskState d = .null := fun d => by
    rw [← h.same] at hidle
    exact hidle d
  have hloop : ∀ disks : List Disk, disks.foldlM animateDisk s.tickTimer = some s.tickTimer := by
    intro disks
    induction disks with
    | nil => rfl
    | cons d disks ih =>
      rw [List.foldlM_cons, animateDisk_null (s := s.tickTimer) (hnull d)]
      exact ih
  unfold animate
  split
  · exact ⟨s.tickTimer, hloop _, h.same, fun hgo => absurd (hgo.symm.trans hdone) nofun, h.reached⟩
  · exact ⟨s, rfl, h⟩

/-- **One tick of `Animate`.** -/
theorem Follows.animate (hexact : c.Exact) (h : Follows on s t) :
    ∃ s' t', s.animate = some s' ∧ (if on then t.animate else some t) = some t' ∧ Follows on s' t' := by
  obtain ⟨t', hanimate⟩ := h.reached.exists_animate hexact
  obtain ⟨hreached, hstop, -⟩ := h.reached.animate hanimate
  cases hdone : t.isDone with
  | true =>
    obtain ⟨s', hs', hfollows⟩ := h.animate_done hexact hdone
    refine ⟨s', t, hs', ?_, hfollows⟩
    rw [hanimate, hstop hdone, ite_self]
  | false =>
    have hs := h.going hdone
    cases on with
    | false =>
      refine ⟨s, t, ?_, rfl, h⟩
      rw [hs]
      rfl
    | true =>
      have hgo : ∀ u : State c, u.Reached → u.isDone = false → u = u.setAnimate true := fun u hu hnot => by
        have hanimate := hu.timing.animate
        rw [hnot] at hanimate
        rw [setAnimate, ← Bool.not_false, ← hanimate]
      rw [← hgo t h.reached hdone] at hs
      subst hs
      exact ⟨t', t', hanimate, hanimate, rfl, hgo t' hreached, hreached⟩

/-- `Start` is one more tick. -/
theorem Follows.start (hexact : c.Exact) (h : Follows on s t) :
    ∃ s' t', s.react .start = some s' ∧ (if on then t.animate else some t) = some t' ∧ Follows on s' t' := by
  suffices hnext : ∃ u, s.getNextIOs = some u ∧ Follows on u t by
    obtain ⟨u, hu, hfollows⟩ := hnext
    obtain ⟨s', t', hs', ht', hfollows'⟩ := hfollows.animate hexact
    refine ⟨s', t', ?_, ht', hfollows'⟩
    show s.getNextIOs.bind State.animate = some s'
    rw [hu]
    exact hs'
  cases hdone : t.isDone with
  | false => exact ⟨s, h.getNextIOs_eq hdone, h⟩
  | true =>
    -- all is done, and some request is, so that the statistics can be printed once more
    have hall := (h.reached.isDone_iff hexact).mp hdone
    have hcount : s.requestCount = c.requestCountNeeded := by
      have htotal := (Core.reachable_inv h.reached.reachable).allComplete_iff.mp hall
      rw [← h.same] at htotal
      exact htotal.trans hexact.symm
    have hlogical : s.logicalRequests ≠ 0 := by
      have hlength := (h.reached.finished hall).logical
      rw [← h.same] at hlength
      exact hlength.trans_ne (List.length_eq_zero_iff.not.mpr c.addr_ne_nil)
    have hisDone : s.isDone = true := (congrArg State.isDone h.same).trans hdone
    refine ⟨_, getNextIOs_eq_some_iff.mpr (.inl ⟨hcount, hlogical, rfl⟩), Eq.trans ?_ h.same,
      fun hgo => absurd (hgo.symm.trans hdone) nofun, h.reached⟩
    rw [hisDone]

end State

/-- `Start`, and then `n` ticks of the animation: the first of them is part of `Start`. -/
def afterTicks (c : Config) : ℕ → Option (State c)
  | 0 => (State.init c).getNextIOs
  | n + 1 => (afterTicks c n).bind State.animate

/-- The first tick is part of `Start`. -/
theorem afterTicks_succ (c : Config) (n : ℕ) : afterTicks c (n + 1) = run c n := by
  induction n with
  | zero => rfl
  | succ n ih =>
    rw [afterTicks, ih]
    rfl

/-- A tick more, where the animation is on. -/
theorem afterTicks_add {t t' : State c} {n : ℕ} {on : Bool} (hn : afterTicks c n = some t)
    (ht' : (if on then t.animate else some t) = some t') : afterTicks c (n + if on then 1 else 0) = some t' := by
  cases on with
  | true =>
    show (afterTicks c n).bind State.animate = some t'
    rw [hn]
    exact ht'
  | false => exact hn.trans ht'

/-- The ticks that keys and the timer of the window amount to, where `on` tells that there is no pause. -/
def activeTicks : Bool → List Input → ℕ
  | _, [] => 0
  | on, .pause :: inputs => activeTicks (!on) inputs
  | on, _ :: inputs => (if on then 1 else 0) + activeTicks on inputs

namespace State

variable {s t : State c} {on : Bool} {n : ℕ}

/-- One key, or the timer of the window. -/
theorem Follows.react (hexact : c.Exact) (h : Follows on s t) (hn : afterTicks c n = some t) (input : Input) :
    ∃ s' t' on' k, s.react input = some s' ∧ afterTicks c (n + k) = some t' ∧ Follows on' s' t'
      ∧ ∀ inputs, activeTicks on (input :: inputs) = k + activeTicks on' inputs := by
  cases input with
  | pause => exact ⟨s.pause, t, !on, 0, rfl, hn, h.pause, fun inputs => (Nat.zero_add _).symm⟩
  | start =>
    obtain ⟨s', t', hs', ht', hfollows⟩ := h.start hexact
    exact ⟨s', t', on, _, hs', afterTicks_add hn ht', hfollows, fun inputs => rfl⟩
  | animate =>
    obtain ⟨s', t', hs', ht', hfollows⟩ := h.animate hexact
    exact ⟨s', t', on, _, hs', afterTicks_add hn ht', hfollows, fun inputs => rfl⟩

/-- **A run with keys.** -/
theorem Follows.run (hexact : c.Exact) (h : Follows on s t) (hn : afterTicks c n = some t) (inputs : List Input) :
    ∃ s' t' on', (program c).run inputs s = some s' ∧ afterTicks c (n + activeTicks on inputs) = some t'
      ∧ Follows on' s' t' := by
  induction inputs generalizing s t on n with
  | nil => exact ⟨s, t, on, rfl, hn, h⟩
  | cons input inputs ih =>
    obtain ⟨u, t₁, on₁, k, hreact, hk, hu, hticks⟩ := h.react hexact hn input
    obtain ⟨s', t', on', hrun, ht', hs'⟩ := ih hu hk
    refine ⟨s', t', on', ((program c).run_cons hreact).trans hrun, ?_, hs'⟩
    rw [hticks, ← Nat.add_assoc]
    exact ht'

/-- Pauses before `Start`. -/
theorem run_pauses (c : Config) (presses : ℕ) :
    (program c).run (List.replicate presses .pause) (State.init c)
      = some ((State.init c).setAnimate (presses % 2 = 0)) := by
  induction presses with
  | zero => rfl
  | succ presses ih =>
    rw [List.replicate_succ', (program c).run_append, ih]
    show some ((State.init c).setAnimate _).pause = _
    rw [pause, setAnimate, setAnimate]
    rcases Nat.mod_two_eq_zero_or_one presses with hmod | hmod
    · simp [hmod, Nat.add_mod]
    · simp [hmod, Nat.add_mod]

/-- There is something to do. -/
theorem init_requestCount_ne (hexact : c.Exact) : (State.init c).requestCount ≠ c.requestCountNeeded := by
  intro hcount
  obtain ⟨t, hnext⟩ := init_consistent.exists_getNextIOs hexact
  exact (start_reached hnext).needed hcount.symm

end State

/-- **Whatever keys are pressed**, and however often `Start` is: with an exact count, the disks, the requests, the
statistics and the log are those of a run without keys that has as many ticks as there were outside the pauses. The
timer is too, as long as the simulation is not done, and then `GetNextIOs` starts nothing if it runs once more. -/
theorem keys_agree (c : Config) (hcount : c.mapping = .raid4 → TriplesWritten c.addr) (presses : ℕ)
    (inputs : List Input) :
    ∃ s t, (program c).run (List.replicate presses .pause ++ .start :: inputs) (State.init c) = some s
      ∧ afterTicks c (activeTicks (presses % 2 = 0) (.start :: inputs)) = some t
      ∧ { s with doAnimate := t.doAnimate, timer := t.timer } = t
      ∧ (t.isDone = false → s.timer = t.timer ∧ s.getNextIOs = some s) := by
  have hexact := Config.exact_of_triplesWritten hcount
  have hne : (State.init c).requestCount ≠ c.requestCountNeeded := State.init_requestCount_ne hexact
  generalize hon : decide (presses % 2 = 0) = on
  have hnext : (State.init c).getNextIOs = some (State.init c).scheduleDisks :=
    State.getNextIOs_eq_some_iff.mpr (.inr ⟨hne, rfl⟩)
  have hnext' : ((State.init c).setAnimate on).getNextIOs = some ((State.init c).scheduleDisks.setAnimate on) :=
    State.getNextIOs_eq_some_iff.mpr (.inr ⟨hne, (State.scheduleDisks_setAnimate _ on).symm⟩)
  have hstart : ((State.init c).scheduleDisks.setAnimate on).Follows on (State.init c).scheduleDisks :=
    ⟨rfl, fun _ => rfl, State.start_reached hnext⟩
  obtain ⟨s₁, t₁, hs₁, ht₁, h₁⟩ := hstart.animate hexact
  have hfirst : ((State.init c).setAnimate on).react .start = some s₁ := by
    show ((State.init c).setAnimate on).getNextIOs.bind State.animate = some s₁
    rw [hnext']
    exact hs₁
  obtain ⟨s, t, on', hrun, ht, hs⟩ := h₁.run hexact (afterTicks_add (n := 0) hnext ht₁) inputs
  refine ⟨s, t, ?_, ?_, hs.same, fun hgo => ⟨by rw [hs.going hgo]; rfl, hs.getNextIOs_eq hgo⟩⟩
  · rw [(program c).run_append, State.run_pauses, hon]
    show (program c).run (.start :: inputs) _ = _
    rw [(program c).run_cons (show (program c).step .start _ = some s₁ from hfirst)]
    exact hrun
  · rw [Nat.zero_add] at ht
    exact ht

/-- A pause, during which a tick is lost, and `Start` in the place of a tick. -/
theorem keys_agree_writeThenRead :
    ∃ s t, (program writeThenRead).run [.pause, .pause, .start, .animate, .pause, .animate, .pause, .start]
        (State.init _) = some s
      ∧ run writeThenRead 2 = some t ∧ s.log = t.log ∧ s.latencyTotal = t.latencyTotal := by
  obtain ⟨s, t, hrun, ht, hsame, -⟩ := keys_agree writeThenRead (fun _ => by decide) 2
    [.animate, .pause, .animate, .pause, .start]
  have hlog := congrArg State.log hsame
  have hlatency := congrArg State.latencyTotal hsame
  rw [← afterTicks_succ]
  exact ⟨s, t, hrun, ht, hlog, hlatency⟩

end Cs537.Graphics
