import Cs537.Graphics.FullStripe
import Cs537.Graphics.Striping

/-!
# The length of a run

Under every mapping, a disk that has something to do is never stopped, and as long as the simulation is not done, some
disk is at work in every tick. The ticks of a run therefore lie between those of the disk that works longest and those
of all disks together.
-/

namespace Cs537.Graphics

variable {c : Config}

/-! ## The work in a log -/

/-- The requests of the I/Os that have ended, in order. -/
def servedBy (log : List (Event c)) : List c.Index := (log.filter fun ev => ev.kind = .finish).map Event.index

/-- The ticks of the I/Os that have ended on a disk. -/
def logTicks (log : List (Event c)) : ℕ := c.workTicks none (servedBy log)

section

variable {log : List (Event c)} {d : Disk} {i : c.Index} {op : OpType}

/-- A served request is the last of the order. -/
theorem servedBy_served :
    servedBy (log ++ [⟨.start, d, i, op⟩] ++ [⟨.finish, d, i, op⟩]) = servedBy log ++ [i] := by
  simp [servedBy]

/-- A start alone does not count. -/
theorem servedBy_start : servedBy (log ++ [⟨.start, d, i, op⟩]) = servedBy log := by
  simp [servedBy]

/-- A served request adds its ticks. -/
theorem logTicks_served : logTicks (log ++ [⟨.start, d, i, op⟩] ++ [⟨.finish, d, i, op⟩])
    = logTicks log + serviceTicks log i := by
  have hlast : (servedBy log).getLast?.map c.row = lastRow log := by
    rw [lastRow, lastServed, servedBy, List.getLast?_map]
    rfl
  rw [logTicks, servedBy_served, Config.workTicks_concat, Option.or_none, hlast]
  rfl

end

namespace Config

variable {jobs : List c.Index}

/-- A disk has twenty rows. -/
theorem row_lt (i : c.Index) : c.row i < 20 := by
  obtain ⟨a, ha, heq⟩ := c.exists_addr i
  have hrow : c.row i = c.mapping.physOffset a.1 := congrArg Request.physOffset heq
  have haddr := c.addr_lt a ha
  rw [hrow]
  generalize c.mapping = mapping at haddr ⊢
  cases mapping <;> exact Nat.div_lt_of_lt_mul haddr

/-- Every request takes a tick at least. -/
theorem length_le_workTicks (last : Option ℕ) : jobs.length ≤ c.workTicks last jobs := by
  induction jobs generalizing last with
  | nil => exact Nat.zero_le _
  | cons i jobs ih =>
    have hpos := c.ioTicks_pos last (c.row i)
    have hrest := ih (some (c.row i))
    rw [List.length_cons, workTicks]
    omega

/-- The ticks of the longest I/O: the head crosses the disk, and the transfer is not sequential. -/
def maxTicks (c : Config) : ℕ := 19 * 20 / c.seekSpeed.toNat + 10

theorem ioTicks_le {last : Option ℕ} {r : ℕ} (hlast : last.getD 0 < 20) (hr : r < 20) :
    c.ioTicks last r ≤ c.maxTicks := by
  have hseek : c.seekTicks (last.getD 0) r ≤ 19 * 20 / c.seekSpeed.toNat := by
    refine Nat.div_le_div_right (Nat.mul_le_mul_right 20 ?_)
    omega
  rw [ioTicks, maxTicks]
  split <;> omega

/-- So the work is bounded by the number of requests. -/
theorem workTicks_le (last : Option ℕ) (hlast : last.getD 0 < 20) :
    c.workTicks last jobs ≤ jobs.length * c.maxTicks := by
  induction jobs generalizing last with
  | nil => exact Nat.zero_le _
  | cons i jobs ih =>
    have hrow := c.row_lt i
    have hfirst := ioTicks_le (c := c) hlast hrow
    have hrest := ih (some (c.row i)) hrow
    rw [workTicks, List.length_cons, Nat.succ_mul]
    omega

end Config

/-- Rows are below 20. -/
theorem lastRow_lt (log : List (Event c)) : (lastRow log).getD 0 < 20 := by
  rw [lastRow]
  cases lastServed log with
  | none => exact Nat.zero_lt_succ _
  | some i => exact c.row_lt i

/-- No request of a log takes longer than the longest possible one. -/
theorem serviceTicks_le (log : List (Event c)) (i : c.Index) : serviceTicks log i ≤ c.maxTicks :=
  Config.ioTicks_le (lastRow_lt log) (c.row_lt i)

/-! ## The work of a disk -/

namespace Drive

/-- The disk has worked for `w` ticks. -/
def Worked (d : Disk) (x : Drive c) (w : ℕ) : Prop :=
  (x.Idle ∧ w = logTicks x.log) ∨ ∃ before i op n, x.Serving d before i op n ∧ w = logTicks before + n

variable {x y : Drive c} {d : Disk} {w : ℕ}

/-- An idle disk has worked for what its log says. -/
theorem Worked.of_idle (h : x.Worked d w) (hnull : x.diskState = .null) : w = logTicks x.log := by
  rcases h with ⟨-, hw⟩ | ⟨before, i, op, n, hserving, -⟩
  · exact hw
  · exact absurd hnull hserving.diskState_ne

/-- Starting an I/O is no work yet. -/
theorem Worked.mayStart (h : x.Worked d w) (hstart : MayStart d x y) : y.Worked d w := by
  rcases h with ⟨hidle, hw⟩ | ⟨before, i, op, n, hserving, hw⟩
  · rcases hstart with rfl | ⟨-, i, op, rfl⟩
    · exact .inl ⟨hidle, hw⟩
    · exact .inr ⟨x.log, i, op, 0, hidle.start, hw⟩
  · rw [hserving.eq_of_mayStart hstart]
    exact .inr ⟨before, i, op, n, hserving, hw⟩

/-- A tick is a tick of work if the disk is not idle. -/
theorem Worked.tick (h : x.Worked d w) : (x.tick d).Worked d (w + if x.diskState = .null then 0 else 1) := by
  rcases h with ⟨hidle, hw⟩ | ⟨before, i, op, n, hserving, hw⟩
  · rw [if_pos hidle.diskState, tick_null hidle.diskState]
    exact .inl ⟨hidle, hw⟩
  · rw [if_neg hserving.diskState_ne]
    rcases hserving.tick with ⟨-, hnext⟩ | ⟨hlast, hidle, hlog⟩
    · exact .inr ⟨before, i, op, n + 1, hnext, by omega⟩
    · refine .inl ⟨hidle, ?_⟩
      rw [hlog, logTicks_served]
      omega

/-- An I/O is ended or under way. -/
theorem Worked.le (h : x.Worked d w) :
    w ≤ ((servedBy x.log).length + if x.diskState = .null then 0 else 1) * c.maxTicks := by
  have hfirst : (none : Option ℕ).getD 0 < 20 := Nat.zero_lt_succ _
  have hended : ∀ log : List (Event c), logTicks log ≤ (servedBy log).length * c.maxTicks := fun log =>
    Config.workTicks_le none hfirst
  rcases h with ⟨hidle, hw⟩ | ⟨before, i, op, n, hserving, hw⟩
  · rw [if_pos hidle.diskState, hw]
    exact hended x.log
  · rw [if_neg hserving.diskState_ne, hserving.log, servedBy_start, Nat.succ_mul, hw]
    exact Nat.add_le_add (hended before) (hserving.lt.le.trans (serviceTicks_le before i))

/-- What the log says has been worked. -/
theorem Worked.logTicks_le (h : x.Worked d w) : logTicks x.log ≤ w := by
  rcases h with ⟨-, hw⟩ | ⟨before, i, op, n, hserving, hw⟩
  · exact hw.ge
  · have hlog : logTicks x.log = logTicks before := by
      rw [hserving.log, logTicks, servedBy_start]
      rfl
    rw [hlog, hw]
    exact Nat.le_add_right _ _

end Drive

/-! ## The work of all disks -/

namespace State

variable {s s' t : State c} {d : Disk} {w : Disk → ℕ}

/-- The disks have worked for as many ticks as `w` says. -/
structure Worked (s : State c) (w : Disk → ℕ) : Prop where
  sound : s.Sound
  drives : ∀ d, (s.drive d).Worked d (w d)

/-- At the start no disk has worked. -/
theorem init_worked : (State.init c).Worked fun _ => 0 :=
  ⟨init_sound, fun _ => .inl ⟨⟨rfl, rfl, rfl⟩, rfl⟩⟩

theorem markDone_timer (h : s.markDone d = some t) : t.timer = s.timer := by
  unfold markDone at h
  simp only [Option.bind_eq_bind, Option.bind_eq_some_iff] at h
  obtain ⟨i, -, op, -, e, -, ⟨status, done⟩, -, h⟩ := h
  cases done <;> cases h <;> rfl

/-- A tick of a transfer leaves the timer alone. -/
theorem transferStep_timer (h : s.transferStep d = some s') : s'.timer = s.timer := by
  rcases transferStep_cases h with ⟨-, rfl⟩ | ⟨-, t, hmark, hnext⟩
  · rfl
  · have htimer : t.timer = (s.countDown d).timer := markDone_timer hmark
    exact (getNextIOs_timer hnext).1.trans htimer

/-- Only the loop of `Animate` moves the timer on. -/
theorem Consistent.animateDisk_timer (h : s.Consistent) (hstep : s.animateDisk d = some s') :
    s'.timer = s.timer := by
  rcases animateDisk_cases h.targeted hstep with
    ⟨-, rfl⟩ | ⟨-, htransfer⟩ | ⟨i, -, -, ⟨-, htransfer⟩ | ⟨-, rfl⟩⟩
  · rfl
  · exact transferStep_timer htransfer
  · exact transferStep_timer (s := s.arrive d i) htransfer
  · rfl

/-- **One action**: a disk that is not idle has worked for one more tick if it is the one that the action is about. -/
theorem Worked.step {a : Action} (h : s.Worked w) (hstep : (animation c).step a s = some t) :
    t.timer = s.timer + (if a = .tickTimer then 1 else 0)
      ∧ (∀ d, s.diskState d ≠ .null → a ≠ .animateDisk d → t.diskState d ≠ .null)
      ∧ t.Worked fun d => w d + if a = .animateDisk d ∧ s.diskState d ≠ .null then 1 else 0 := by
  obtain ⟨hsound, hdrives⟩ := h.sound.step hstep
  refine ⟨?_, fun d hbusy ha => ?_, hsound, fun d => ?_⟩
  · cases a with
    | getNextIOs => exact (getNextIOs_timer hstep).1.trans (add_zero _).symm
    | pause => exact (Option.some_inj.mp hstep) ▸ (add_zero _).symm
    | tickTimer => exact (Option.some_inj.mp hstep) ▸ rfl
    | animateDisk d => exact (h.sound.consistent.animateDisk_timer hstep).trans (add_zero _).symm
  · have hdrive := hdrives d
    rw [Action.on, if_neg ha] at hdrive
    rcases hdrive with heq | ⟨hnull, -⟩
    · exact (congrArg Drive.diskState heq).trans_ne hbusy
    · exact absurd hnull hbusy
  · have hdrive := hdrives d
    by_cases ha : a = .animateDisk d
    · rw [Action.on, if_pos ha] at hdrive
      have htick := ((h.drives d).tick).mayStart hdrive
      have hiff : (if (s.drive d).diskState = .null then 0 else 1)
          = if a = .animateDisk d ∧ s.diskState d ≠ .null then 1 else 0 := by
        by_cases hnull : s.diskState d = .null <;> simp [ha, State.drive, hnull]
      exact hiff ▸ htick
    · rw [Action.on, if_neg ha] at hdrive
      rw [if_neg fun hand => ha hand.1]
      exact (h.drives d).mayStart hdrive

/-- **A run**: no disk works for more ticks than it is given, and one that is busy to begin with works in the first
of its ticks. -/
theorem Worked.run (h : s.Worked w) {acts : List Action} (hrun : (animation c).run acts s = some s') :
    ∃ w', s'.timer = s.timer + acts.count .tickTimer ∧ s'.Worked w'
      ∧ ∀ d, w d ≤ w' d ∧ w' d ≤ w d + acts.count (.animateDisk d)
        ∧ (s.diskState d ≠ .null → .animateDisk d ∈ acts → w d < w' d) := by
  induction acts generalizing s w with
  | nil =>
    cases hrun
    exact ⟨w, (add_zero _).symm, h, fun d => ⟨le_rfl, le_rfl, fun _ hmem => nomatch hmem⟩⟩
  | cons a acts ih =>
    obtain ⟨t, hstep, hrest⟩ := Option.bind_eq_some_iff.mp hrun
    obtain ⟨htimer, hbusy, ht⟩ := h.step hstep
    obtain ⟨w', htimer', hs', hworked⟩ := ih ht hrest
    refine ⟨w', ?_, hs', fun d => ?_⟩
    · -- the timer counts its own actions
      rw [htimer', htimer, List.count_cons]
      by_cases ha : a = .tickTimer
      · simp [ha]
        omega
      · simp [ha]
    · -- a disk works in its own actions, as long as it is not idle
      obtain ⟨hle, hlt, hworks⟩ := hworked d
      by_cases ha : a = .animateDisk d
      · subst ha
        rw [List.count_cons_self]
        by_cases hnull : s.diskState d = .null
        · rw [if_neg fun hand => hand.2 hnull] at hle hlt
          exact ⟨hle, by omega, fun hne => absurd hnull hne⟩
        · rw [if_pos ⟨rfl, hnull⟩] at hle hlt
          exact ⟨by omega, by omega, fun _ _ => by omega⟩
      · rw [if_neg fun hand => ha hand.1] at hle hlt hworks
        rw [List.count_cons_of_ne ha]
        refine ⟨hle, hlt, fun hne hmem => ?_⟩
        exact hworks (hbusy d hne ha) ((List.mem_cons.mp hmem).resolve_left (Ne.symm ha))

end State

/-! ## The I/Os that have ended -/

/-- Every request that was served was served by one disk. -/
theorem sum_servedBy (log : List (Event c)) :
    ∑ d : Disk, (servedBy (log.filter fun ev => ev.disk = d)).length = (servedBy log).length := by
  simp only [servedBy, List.length_map]
  rw [← List.sum_length_filter_key Event.disk (log.filter fun ev => ev.kind = .finish)]
  exact Finset.sum_congr rfl fun d _ => congrArg List.length (List.filter_comm ..)

/-- `request_count` is the number of I/Os that have ended. -/
theorem Core.reachable_servedBy {s : Core c} (h : (untimed c).Reachable s) :
    ((servedBy s.log).length : ℤ) = s.requestCount := by
  refine reachable_of_events (P := fun t => ((servedBy t.log).length : ℤ) = t.requestCount) h rfl
    (fun t d i op status ht _ => ?_) (fun t d i op status done ht _ => ?_) fun _ ht => ht
  · show ((servedBy (t.log ++ [_])).length : ℤ) = t.requestCount
    rw [servedBy_start, ht]
  · have hlog : servedBy (t.served d i op status done).log = servedBy t.log ++ [i] := by
      show servedBy (t.log ++ [_]) = _
      simp [servedBy]
    rw [hlog, List.length_append, Nat.cast_add, ht]
    rfl

namespace State

variable {s s' : State c} {m n : ℕ}

/-- A state between two ticks, after `m` ticks in each of which some disk was at work. -/
structure Spent (s : State c) (m : ℕ) : Prop where
  reached : s.Reached
  timer : s.timer = m
  works : ∃ w, s.Worked w ∧ (∀ d, w d ≤ m) ∧ m ≤ ∑ d, w d

/-- `Start` takes no time. -/
theorem start_spent (hnext : (State.init c).getNextIOs = some s) : s.Spent 0 := by
  obtain ⟨-, -, hs⟩ := init_worked.step (a := Action.getNextIOs) hnext
  exact ⟨start_reached hnext, (getNextIOs_timer hnext).1, _, hs, fun d => by simp, Nat.zero_le _⟩

/-- **One tick**, before the end. -/
theorem Spent.animate (hexact : c.Exact) (h : s.Spent m) :
    ∃ s', s.animate = some s' ∧ (s.isDone = true → s' = s) ∧ (s.isDone = false → s'.Spent (m + 1)) := by
  obtain ⟨s', hanimate⟩ := h.reached.exists_animate hexact
  obtain ⟨hreached, hstop, -⟩ := h.reached.animate hanimate
  refine ⟨s', hanimate, hstop, fun hgo => ?_⟩
  obtain ⟨w, hw, hle, hsum⟩ := h.works
  have hloop : s.loop = .tickTimer :: (List.finRange 4).map .animateDisk := by
    rw [loop, h.reached.doAnimate_of_not hgo]
    rfl
  obtain ⟨w', htimer, ht, hworks⟩ := hw.run ((run_loop s).trans hanimate)
  have hticks : ∀ d, s.loop.count (.animateDisk d) = 1 := by
    rw [hloop]
    decide
  refine ⟨hreached, ?_, w', ht, fun d => ?_, ?_⟩
  · rw [htimer, hloop, h.timer]
    rfl
  · have hone := (hworks d).2.1
    rw [hticks d] at hone
    exact hone.trans (Nat.succ_le_succ (hle d))
  · -- a disk that is busy before the tick works in it
    obtain ⟨d, hbusy⟩ := h.reached.busy ((Core.reachable_settled hexact h.reached.reachable).busy hgo)
    have hmem : Action.animateDisk d ∈ s.loop := List.count_pos_iff.mp (by rw [hticks d]; exact one_pos)
    have hlt : ∑ d, w d < ∑ d, w' d :=
      Finset.sum_lt_sum (fun d _ => (hworks d).1) ⟨d, Finset.mem_univ d, (hworks d).2.2 hbusy hmem⟩
    omega

/-- **Whole runs**: before the end, every call is a tick of work for some disk. -/
theorem run_spent (hexact : c.Exact) (n : ℕ) :
    ∃ s m, run c n = some s ∧ s.Spent m ∧ (s.isDone = false → m = n + 1) := by
  induction n with
  | zero =>
    obtain ⟨t, hnext⟩ := init_consistent.exists_getNextIOs hexact
    have ht := start_spent hnext
    obtain ⟨s, hanimate, hstop, hgo⟩ := ht.animate hexact
    have hrun : run c 0 = some s := by
      show (State.init c).getNextIOs.bind State.animate = some s
      rw [hnext]
      exact hanimate
    cases hdone : t.isDone with
    | true => exact ⟨t, 0, hstop hdone ▸ hrun, ht, fun hnot => absurd (hnot.symm.trans hdone) nofun⟩
    | false => exact ⟨s, 1, hrun, hgo hdone, fun _ => rfl⟩
  | succ n ih =>
    obtain ⟨s, m, hrun, hs, hm⟩ := ih
    obtain ⟨s', hanimate, hstop, hgo⟩ := hs.animate hexact
    have hnext : run c (n + 1) = some s' := by
      show (run c n).bind State.animate = some s'
      rw [hrun]
      exact hanimate
    cases hdone : s.isDone with
    | true => exact ⟨s, m, hstop hdone ▸ hnext, hs, fun hnot => absurd (hnot.symm.trans hdone) nofun⟩
    | false => exact ⟨s', m + 1, hnext, hgo hdone, fun _ => congrArg (· + 1) (hm hdone)⟩

/-- No more I/Os are ended or under way than there are. -/
theorem Spent.le (h : s.Spent m) : m ≤ c.total * c.maxTicks := by
  obtain ⟨w, hw, -, hsum⟩ := h.works
  have hinv := Core.reachable_inv h.reached.reachable
  have hserved := Core.reachable_servedBy h.reached.reachable
  rw [← sum_servedBy] at hserved
  have hbusy : s.core.busy = ∑ d, if s.diskState d = .null then 0 else 1 := by
    refine Finset.sum_congr rfl fun d _ => ?_
    have hiff := core_serving_eq_none_iff (h.reached.timing.targeted d)
    by_cases hnull : s.diskState d = .null
    · rw [if_pos hnull, hiff.mpr hnull]
      rfl
    · rw [if_neg hnull, if_pos (Option.isSome_iff_ne_none.mpr (mt hiff.mp hnull))]
  have hcount := hinv.count
  have htotal : ∑ d, (servedBy (s.drive d).log).length + ∑ d, (if s.diskState d = .null then 0 else 1) ≤ c.total := by
    rw [← hbusy]
    have hsame : (∑ d, (servedBy (s.drive d).log).length : ℕ) = s.core.requestCount := hserved
    omega
  calc m ≤ ∑ d, w d := hsum
    _ ≤ ∑ d, ((servedBy (s.drive d).log).length + if s.diskState d = .null then 0 else 1) * c.maxTicks :=
      Finset.sum_le_sum fun d _ => (hw.drives d).le
    _ = (∑ d, (servedBy (s.drive d).log).length + ∑ d, if s.diskState d = .null then 0 else 1) * c.maxTicks := by
      rw [← Finset.sum_mul, Finset.sum_add_distrib]
    _ ≤ c.total * c.maxTicks := Nat.mul_le_mul_right _ htotal

end State

/-- **How long a simulation takes**, under every mapping and window: no longer than the longest I/Os, one after the
other. No disk is done with more work than there have been ticks, and at the end the timer is between the work of any
disk and that of all disks together, so that there are at most four I/Os for every tick. -/
theorem makespan_bounds (c : Config) (hcount : c.mapping = .raid4 → TriplesWritten c.addr) (n : ℕ) :
    ∃ s, run c n = some s
      ∧ (∀ d, (logTicks (s.drive d).log : ℤ) ≤ s.timer)
      ∧ s.timer ≤ c.requestCountNeeded * c.maxTicks
      ∧ (s.isDone = false → s.timer = n + 1)
      ∧ (c.requestCountNeeded * c.maxTicks ≤ n → s.isDone = true)
      ∧ (s.isDone = true → s.timer ≤ (∑ d, logTicks (s.drive d).log : ℕ) ∧ c.requestCountNeeded ≤ 4 * s.timer) := by
  have hexact := Config.exact_of_triplesWritten hcount
  obtain ⟨s, m, hrun, hs, hm⟩ := State.run_spent hexact n
  have hle := hs.le
  obtain ⟨w, hw, hmax, hsum⟩ := hs.works
  have hlog : ∀ d, logTicks (s.drive d).log ≤ w d := fun d => (hw.drives d).logTicks_le
  have hcast : (m : ℤ) ≤ c.requestCountNeeded * c.maxTicks := by
    rw [hexact]
    exact_mod_cast hle
  refine ⟨s, hrun, fun d => ?_, hs.timer.trans_le hcast, fun hgo => ?_, fun hlate => ?_, fun hdone => ?_⟩
  · rw [hs.timer]
    exact_mod_cast (hlog d).trans (hmax d)
  · rw [hs.timer, hm hgo]
    rfl
  · by_contra hnot
    have hticks := hm (Bool.eq_false_iff.mpr hnot)
    omega
  · have hall := (hs.reached.isDone_iff hexact).mp hdone
    have hidle := (hs.reached.finished hall).idle
    -- at the end all disks are idle, so that all of their work is in the log
    have hwork : ∑ d, w d = ∑ d, logTicks (s.drive d).log :=
      Finset.sum_congr rfl fun d _ => (hw.drives d).of_idle (hidle d)
    have hserved := Core.reachable_servedBy hs.reached.reachable
    rw [(Core.reachable_inv hs.reached.reachable).allComplete_iff.mp hall, ← sum_servedBy] at hserved
    -- every I/O takes a tick of one of four disks
    have hticks : ∑ d, (servedBy (s.drive d).log).length ≤ 4 * m :=
      calc ∑ d, (servedBy (s.drive d).log).length ≤ ∑ d : Disk, m :=
            Finset.sum_le_sum fun d _ => (Config.length_le_workTicks none).trans ((hlog d).trans (hmax d))
        _ = 4 * m := by simp
    rw [hs.timer, hexact, ← hserved]
    exact ⟨by exact_mod_cast hwork ▸ hsum, by exact_mod_cast hticks⟩

/-- The four writes of a stripe and a read are performed within 525 ticks, and not within one. -/
theorem makespan_bounds_writeThenRead :
    ∃ s, run writeThenRead 525 = some s ∧ s.isDone = true ∧ 2 ≤ s.timer ∧ s.timer ≤ 525 := by
  obtain ⟨s, hrun, -, hle, -, hlate, hend⟩ := makespan_bounds writeThenRead (fun _ => by decide) 525
  have hcount : writeThenRead.requestCountNeeded = 5 := by decide
  have hticks : writeThenRead.maxTicks = 105 := rfl
  rw [hcount, hticks] at hle hlate
  have hdone := hlate (by decide)
  have hfour := (hend hdone).2
  rw [hcount] at hfour
  exact ⟨s, hrun, hdone, by omega, by omega⟩

end Cs537.Graphics
