import Cs537.Graphics.Drive
import Cs537.Graphics.FullStripe

/-!
# The time of an I/O

A seek takes as many ticks as there are moves of the head between two rows, and a transfer takes one tick on the row
behind the last one and ten on any other. So it is known from the start of an I/O when it ends, whatever the other
disks do.
-/

namespace Cs537.Graphics

variable {c : Config}

/-! ## Rows -/

/-- The request that the disk of a log has served last. -/
def lastServed (log : List (Event c)) : Option c.Index :=
  (log.filter fun ev => ev.kind = .finish).getLast?.map Event.index

/-- Its row. -/
def lastRow (log : List (Event c)) : Option ℕ := (lastServed log).map fun i => (c.request i).physOffset

/-- The row on which an idle disk stands. -/
def headRow (log : List (Event c)) : ℕ := (lastRow log).getD 0

/-- The row whose transfer takes a single tick. -/
def nextRow (log : List (Event c)) : ℕ := (lastRow log).elim 0 (· + 1)

/-- The moves of the head between two rows. -/
def Config.seekTicks (c : Config) (p r : ℕ) : ℕ := ((r : ℤ) - p).natAbs * 20 / c.seekSpeed.toNat

/-- The ticks of an I/O that starts behind a log. -/
def serviceTicks (log : List (Event c)) (i : c.Index) : ℕ :=
  c.seekTicks (headRow log) (c.request i).physOffset + if (c.request i).physOffset = nextRow log then 1 else 10

section

variable {log : List (Event c)} {d : Disk} {i : c.Index} {op : OpType} {p r : ℕ}

theorem lastServed_finish : lastServed (log ++ [⟨.finish, d, i, op⟩]) = some i := by
  unfold lastServed
  rw [List.filter_append]
  simp

/-- Rows keep their order on the canvas. -/
theorem offsetToYpos_lt_iff : offsetToYpos p < offsetToYpos r ↔ p < r := by
  unfold offsetToYpos
  omega

/-- The moves lead from the one row to the other. -/
theorem seekTicks_mul (c : Config) (p r : ℕ) :
    offsetToYpos r - offsetToYpos p = c.seekTicks p r * if p < r then c.seekSpeed else -c.seekSpeed := by
  obtain ⟨v, hv⟩ := Int.eq_ofNat_of_zero_le c.seekSpeed_pos.le
  have hdvd : v ∣ ((r : ℤ) - p).natAbs * 20 := by
    have h := c.seekSpeed_dvd
    rw [hv] at h
    exact Dvd.dvd.mul_left (Int.natCast_dvd_natCast.mp h) _
  have hmul : c.seekTicks p r * v = ((r : ℤ) - p).natAbs * 20 := by
    unfold Config.seekTicks
    rw [hv, Int.toNat_natCast]
    exact Nat.div_mul_cancel hdvd
  have hmul' : (c.seekTicks p r : ℤ) * v = |(r : ℤ) - p| * 20 := by
    rw [Int.abs_eq_natAbs]
    exact_mod_cast hmul
  unfold offsetToYpos
  rw [hv]
  split
  · rename_i hlt
    rw [hmul', abs_of_nonneg (by omega)]
    omega
  · rename_i hge
    rw [mul_neg, hmul', abs_of_nonpos (by omega)]
    omega

end

namespace Drive

/-! ## Idle and busy disks -/

/-- The disk is idle and stands on the row that it has served last. -/
structure Idle (x : Drive c) : Prop where
  diskState : x.diskState = .null
  headPosition : x.headPosition = offsetToYpos (headRow x.log)
  currentTarget : x.currentTarget = lastServed x.log

/-- The disk has done `n` ticks of an I/O, that has been started behind the log `before`. -/
structure Serving (d : Disk) (before : List (Event c)) (i : c.Index) (op : OpType) (n : ℕ) (x : Drive c) : Prop where
  log : x.log = before ++ [⟨.start, d, i, op⟩]
  lastTarget : x.lastTarget = lastServed before
  currentTarget : x.currentTarget = some i
  currentOptype : x.currentOptype = some op
  lt : n < serviceTicks before i
  /-- The head is on its way, without having passed the row. -/
  seek : n ≤ c.seekTicks (headRow before) (c.request i).physOffset →
    x.diskState = .seek
      ∧ x.seekDelta = (if headRow before < (c.request i).physOffset then c.seekSpeed else -c.seekSpeed)
      ∧ x.headPosition = offsetToYpos (headRow before) + n * x.seekDelta
  /-- The head is on the row, and there are ticks left. -/
  xfer : c.seekTicks (headRow before) (c.request i).physOffset < n →
    x.diskState = .xfer ∧ x.headPosition = offsetToYpos (c.request i).physOffset
      ∧ x.transferCount = serviceTicks before i - n

variable {x y : Drive c} {d : Disk} {before : List (Event c)} {i : c.Index} {op : OpType} {n : ℕ}

/-- A disk that serves is not idle. -/
theorem Serving.diskState_ne (h : x.Serving d before i op n) : x.diskState ≠ .null := by
  rcases le_or_gt n (c.seekTicks (headRow before) (c.request i).physOffset) with hle | hgt
  · rw [(h.seek hle).1]
    decide
  · rw [(h.xfer hgt).1]
    decide

/-- A busy disk is left alone. -/
theorem Serving.eq_of_mayStart (h : x.Serving d before i op n) (hstart : MayStart d x y) : y = x :=
  hstart.resolve_right fun hidle => h.diskState_ne hidle.1

/-- An idle disk that starts an I/O serves it from now on. -/
theorem Idle.start (h : x.Idle) : (x.start d i op).Serving d x.log i op 0 where
  log := rfl
  lastTarget := h.currentTarget
  currentTarget := rfl
  currentOptype := rfl
  lt := by
    unfold serviceTicks
    split <;> omega
  seek _ := by
    refine ⟨rfl, ?_, ?_⟩
    · show (if x.headPosition < _ then _ else _) = _
      rw [h.headPosition, blockOffset_eq]
      simp only [offsetToYpos_lt_iff]
    · rw [Nat.cast_zero, zero_mul, add_zero]
      exact h.headPosition
  xfer hlt := absurd hlt (Nat.not_lt_zero _)

/-- A tick of a transfer, of which `n` ticks of the I/O are over. -/
theorem transfer_serving (hlog : x.log = before ++ [⟨.start, d, i, op⟩]) (hlast : x.lastTarget = lastServed before)
    (htarget : x.currentTarget = some i) (hoptype : x.currentOptype = some op) (hxfer : x.diskState = .xfer)
    (hhead : x.headPosition = offsetToYpos (c.request i).physOffset)
    (hcount : x.transferCount = serviceTicks before i - n)
    (hn : c.seekTicks (headRow before) (c.request i).physOffset ≤ n) (hlt : n < serviceTicks before i) :
    (n + 1 < serviceTicks before i ∧ (x.transfer d).Serving d before i op (n + 1))
      ∨ (n + 1 = serviceTicks before i ∧ (x.transfer d).Idle
        ∧ (x.transfer d).log = before ++ [⟨.start, d, i, op⟩] ++ [⟨.finish, d, i, op⟩]) := by
  by_cases hone : n + 1 = serviceTicks before i
  · -- the last tick: the head stays on the row of the request, which is now the last one served
    refine .inr ⟨hone, ?_⟩
    have htransfer : x.transfer d = { x with
        transferCount := x.transferCount - 1
        diskState := .null
        log := x.log ++ [⟨.finish, d, i, op⟩] } := by
      unfold transfer
      rw [if_pos (by show x.transferCount - 1 = 0; omega)]
      unfold finish
      rw [htarget, hoptype]
    rw [htransfer]
    refine ⟨⟨rfl, ?_, ?_⟩, by rw [hlog]⟩
    · show x.headPosition = offsetToYpos (headRow (x.log ++ _))
      unfold headRow lastRow
      rw [lastServed_finish]
      exact hhead
    · exact htarget.trans lastServed_finish.symm
  · -- the transfer goes on
    have htransfer : x.transfer d = { x with transferCount := x.transferCount - 1 } := by
      unfold transfer
      rw [if_neg (by show x.transferCount - 1 ≠ 0; omega)]
    rw [htransfer]
    refine .inl ⟨by omega, hlog, hlast, htarget, hoptype, by omega, fun hle => by omega, fun _ => ⟨hxfer, hhead, ?_⟩⟩
    show x.transferCount - 1 = _
    rw [hcount, Nat.cast_succ]
    omega

/-- `StartTransfer` asks for the row behind the last one. -/
theorem startTransfer_count (hlast : x.lastTarget = lastServed before) :
    (x.startTransfer i).transferCount = if (c.request i).physOffset = nextRow before then 1 else 10 := by
  unfold startTransfer nextRow lastRow
  rw [hlast]
  cases lastServed before with
  | none =>
    show (if ((c.request i).physOffset : ℤ) = -1 + 1 then (1 : ℤ) else 10)
      = if (c.request i).physOffset = 0 then 1 else 10
    simp only [Int.reduceNeg, neg_add_cancel, Nat.cast_eq_zero]
  | some last =>
    show (if ((c.request i).physOffset : ℤ) = (c.request last).physOffset + 1 then (1 : ℤ) else 10)
      = if (c.request i).physOffset = (c.request last).physOffset + 1 then 1 else 10
    norm_cast

/-- **One tick of a busy disk**: it is one tick further, and with the last one it is idle. -/
theorem Serving.tick (h : x.Serving d before i op n) :
    (n + 1 < serviceTicks before i ∧ (x.tick d).Serving d before i op (n + 1))
      ∨ (n + 1 = serviceTicks before i ∧ (x.tick d).Idle
        ∧ (x.tick d).log = before ++ [⟨.start, d, i, op⟩] ++ [⟨.finish, d, i, op⟩]) := by
  have hrows := seekTicks_mul c (headRow before) (c.request i).physOffset
  have hpos := c.seekSpeed_pos
  rcases lt_trichotomy n (c.seekTicks (headRow before) (c.request i).physOffset) with hlt | heq | hgt
  · -- on the way: the rest of the moves is not zero
    obtain ⟨hseek, hdelta, hhead⟩ := h.seek hlt.le
    rw [← hdelta] at hrows
    have hne : x.seekDelta ≠ 0 := by
      rw [hdelta]
      split <;> omega
    have haway : x.headPosition ≠ offsetToYpos (c.request i).physOffset := by
      intro hat
      have hmoves : (n : ℤ) * x.seekDelta
          = c.seekTicks (headRow before) (c.request i).physOffset * x.seekDelta := by omega
      exact hlt.ne (Nat.cast_injective (mul_right_cancel₀ hne hmoves))
    rw [tick_moveHead hseek h.currentTarget haway]
    have hservice : n + 1 < serviceTicks before i := by
      unfold serviceTicks
      split <;> omega
    refine .inl ⟨hservice, h.log, h.lastTarget, h.currentTarget, h.currentOptype, hservice, fun _ => ?_, fun hlt' => ?_⟩
    · refine ⟨hseek, hdelta, ?_⟩
      show x.headPosition + x.seekDelta = _
      rw [hhead, Nat.cast_succ, add_mul, one_mul, add_assoc]
    · omega
  · -- on the row: the transfer begins
    obtain ⟨hseek, hdelta, hhead⟩ := h.seek heq.le
    have hat : x.headPosition = offsetToYpos (c.request i).physOffset := by
      rw [hhead, hdelta, heq, ← hrows, add_sub_cancel]
    rw [tick_arrive hseek h.currentTarget hat]
    refine transfer_serving h.log h.lastTarget h.currentTarget h.currentOptype rfl hat ?_ heq.ge h.lt
    rw [startTransfer_count h.lastTarget]
    unfold serviceTicks
    split <;> omega
  · obtain ⟨hxfer, hhead, hcount⟩ := h.xfer hgt
    rw [tick_xfer hxfer]
    exact transfer_serving h.log h.lastTarget h.currentTarget h.currentOptype hxfer hhead hcount hgt.le h.lt

/-- A disk is idle or busy. -/
def Valid (d : Disk) (x : Drive c) : Prop := x.Idle ∨ ∃ before i op n, x.Serving d before i op n

/-- A valid disk without a target is at the row of its last request. -/
theorem Valid.idle (h : x.Valid d) (hnull : x.diskState = .null) : x.Idle := by
  rcases h with hidle | ⟨before, i, op, n, hserving⟩
  · exact hidle
  · exact absurd hnull hserving.diskState_ne

/-- Starting an I/O keeps a disk valid. -/
theorem Valid.mayStart (h : x.Valid d) (hstart : MayStart d x y) : y.Valid d := by
  rcases hstart with rfl | ⟨hnull, i, op, rfl⟩
  · exact h
  · exact .inr ⟨_, _, _, _, (h.idle hnull).start⟩

/-- **One tick keeps a disk valid.** -/
theorem Valid.tick (h : x.Valid d) : (x.tick d).Valid d := by
  rcases h with hidle | ⟨before, i, op, n, hserving⟩
  · rw [tick_null hidle.diskState]
    exact .inl hidle
  · rcases hserving.tick with ⟨-, hnext⟩ | ⟨-, hidle, -⟩
    · exact .inr ⟨_, _, _, _, hnext⟩
    · exact .inl hidle

/-- A tick logs the end of an I/O, or nothing. -/
theorem Valid.tick_log (h : x.Valid d) :
    (x.tick d).log = x.log ∨ ∃ i op, (x.tick d).log = x.log ++ [⟨.finish, d, i, op⟩] := by
  rcases h with hidle | ⟨before, i, op, n, hserving⟩
  · rw [tick_null hidle.diskState]
    exact .inl rfl
  · rcases hserving.tick with ⟨-, hnext⟩ | ⟨-, -, hlog⟩
    · exact .inl (hnext.log.trans hserving.log.symm)
    · exact .inr ⟨i, op, by rw [hlog, hserving.log]⟩

end Drive

/-! ## Runs -/

/-- Every disk is idle or busy, in a consistent state. -/
structure State.Sound (s : State c) : Prop where
  consistent : s.Consistent
  drives : ∀ d, (s.drive d).Valid d

namespace State

variable {s s' : State c} {d : Disk} {before : List (Event c)} {i : c.Index} {op : OpType} {n : ℕ}

/-- All disks are valid at the start. -/
theorem init_sound : (State.init c).Sound :=
  ⟨init_consistent, fun _ => .inl ⟨rfl, rfl, rfl⟩⟩

/-- What an action does to a disk keeps it valid. -/
theorem Sound.on (h : s.Sound) (a : Action) (d : Disk) : (a.on d (s.drive d)).Valid d := by
  unfold Action.on
  split
  · exact (h.drives d).tick
  · exact h.drives d

/-- **One action** keeps the disks sound, and may start I/Os on idle ones. -/
theorem Sound.step {a : Action} (h : s.Sound) (hstep : (animation c).step a s = some s') :
    s'.Sound ∧ ∀ d, Drive.MayStart d (a.on d (s.drive d)) (s'.drive d) := by
  obtain ⟨hconsistent, hdrives⟩ := h.consistent.step hstep
  exact ⟨⟨hconsistent, fun d => (h.on a d).mayStart (hdrives d)⟩, hdrives⟩

/-- All disks are sound in every state of a run. -/
theorem reachable_sound (h : (animation c).Reachable s) : s.Sound :=
  h.invariant init_sound fun _ _ _ hstep hs => (hs.step hstep).1

/-- An action only adds to the log of a disk. -/
theorem Sound.on_log (h : s.Sound) (a : Action) (d : Disk) : (s.drive d).log <+: (a.on d (s.drive d)).log := by
  unfold Action.on
  split
  · rcases (h.drives d).tick_log with heq | ⟨i, op, heq⟩
    · rw [heq]
    · rw [heq]
      exact List.prefix_append _ _
  · exact List.prefix_rfl

/-- Starting an I/O adds to the log of the disk. -/
theorem mayStart_log {x y : Drive c} (h : Drive.MayStart d x y) : x.log <+: y.log := by
  rcases h with rfl | ⟨-, i, op, rfl⟩
  · exact List.prefix_rfl
  · exact List.prefix_append _ _

/-- Runs only add to the log. -/
theorem Sound.run (h : s.Sound) (d : Disk) {acts : List Action} (hrun : (animation c).run acts s = some s') :
    (s.drive d).log <+: (s'.drive d).log := by
  induction acts generalizing s with
  | nil =>
    cases hrun
    exact List.prefix_rfl
  | cons a acts ih =>
    obtain ⟨t, hstep, hrest⟩ := Option.bind_eq_some_iff.mp hrun
    obtain ⟨ht, hdrives⟩ := h.step hstep
    exact ((h.on_log a d).trans (mayStart_log (hdrives d))).trans (ih ht hrest)

/-- **With an exact count, no run gets stuck.** -/
theorem Sound.exists_run (hexact : c.Exact) (h : s.Sound) (acts : List Action) :
    ∃ s', (animation c).run acts s = some s' := by
  induction acts generalizing s with
  | nil => exact ⟨s, rfl⟩
  | cons a acts ih =>
    obtain ⟨t, hstep⟩ := h.consistent.exists_step hexact a
    obtain ⟨s', hrest⟩ := ih (h.step hstep).1
    exact ⟨s', ((animation c).run_cons hstep).trans hrest⟩

/-- **A run from a busy disk**: the ticks of the disk are counted until its I/O ends. -/
theorem Sound.serves (h : s.Sound) (hserving : (s.drive d).Serving d before i op n) {acts : List Action}
    (hrun : (animation c).run acts s = some s') :
    if n + acts.count (.animateDisk d) < serviceTicks before i
    then (s'.drive d).Serving d before i op (n + acts.count (.animateDisk d))
    else before ++ [⟨.start, d, i, op⟩] ++ [⟨.finish, d, i, op⟩] <+: (s'.drive d).log := by
  induction acts generalizing s n with
  | nil =>
    cases hrun
    rw [List.count_nil, Nat.add_zero, if_pos hserving.lt]
    exact hserving
  | cons a acts ih =>
    obtain ⟨t, hstep, hrest⟩ := Option.bind_eq_some_iff.mp hrun
    obtain ⟨ht, hdrives⟩ := h.step hstep
    have hdrive := hdrives d
    by_cases ha : a = .animateDisk d
    · subst ha
      rw [List.count_cons_self, ← Nat.add_assoc, Nat.add_right_comm]
      unfold Action.on at hdrive
      rw [if_pos rfl] at hdrive
      rcases hserving.tick with ⟨-, hnext⟩ | ⟨hlast, -, hlog⟩
      · rw [← hnext.eq_of_mayStart hdrive] at hnext
        exact ih ht hnext hrest
      · -- the last tick: what follows only adds to the log
        rw [if_neg (by omega), ← hlog]
        exact (mayStart_log hdrive).trans (ht.run d hrest)
    · -- an action of another disk, or of the timer
      rw [List.count_cons_of_ne ha]
      unfold Action.on at hdrive
      rw [if_neg ha] at hdrive
      rw [← hserving.eq_of_mayStart hdrive] at hserving
      exact ih ht hserving hrest

/-- An event that starts an I/O comes with its start. -/
theorem Sound.started (h : s.Sound) {a : Action} (hdrive : Drive.MayStart d (a.on d (s.drive d)) (s'.drive d))
    (hlog : (s'.drive d).log = before ++ [⟨.start, d, i, op⟩]) (hnew : (s.drive d).log.length ≤ before.length) :
    (s'.drive d).Serving d before i op 0 := by
  rcases hdrive with heq | ⟨hnull, j, op', heq⟩
  · -- a tick does not log a start
    exfalso
    rw [heq] at hlog
    unfold Action.on at hlog
    split at hlog
    · rcases (h.drives d).tick_log with htick | ⟨j, op', htick⟩
      · rw [← htick, hlog, List.length_append] at hnew
        exact absurd hnew (Nat.not_succ_le_self _)
      · rw [htick] at hlog
        cases List.singleton_injective (List.append_inj' hlog rfl).2
    · rw [hlog, List.length_append] at hnew
      exact absurd hnew (Nat.not_succ_le_self _)
  · have hidle := (h.on a d).idle hnull
    have hstarted : (a.on d (s.drive d)).log ++ [⟨.start, d, j, op'⟩] = before ++ [⟨.start, d, i, op⟩] := by
      rw [← hlog, heq]
      rfl
    obtain ⟨hbefore, hevent⟩ := List.append_inj' hstarted rfl
    cases List.singleton_injective hevent
    rw [heq, ← hbefore]
    exact hidle.start

end State

/-- **The time of an I/O.** Between two actions of a run, an idle disk stands on the row that it has served last. An I/O
that is started then takes as many ticks of its disk as there are moves of the head and ticks of the transfer,
whatever happens on the other disks; until then the head does not pass its row and the transfer has ticks left. Unless
RAID-4 takes reads for a full stripe, no action ever fails. -/
theorem service_time (c : Config) (d : Disk) :
    (∀ s, (program c).Reachable s → (animation c).Reachable s)
      ∧ (∀ s, (animation c).Reachable s →
        ((c.mapping = .raid4 → TriplesWritten c.addr) → ∀ acts, ∃ s', (animation c).run acts s = some s')
          ∧ (s.diskState d = .null → s.headPosition d = offsetToYpos (headRow (s.drive d).log)))
      ∧ ∀ s a s₁, (animation c).Reachable s → (animation c).step a s = some s₁ → ∀ before i op,
        (s₁.drive d).log = before ++ [⟨.start, d, i, op⟩] → (s.drive d).log.length ≤ before.length →
        s₁.headPosition d = offsetToYpos (headRow before)
          ∧ ∀ acts s₂, (animation c).run acts s₁ = some s₂ →
            if acts.count (.animateDisk d) < serviceTicks before i
            then (s₂.drive d).Serving d before i op (acts.count (.animateDisk d))
            else before ++ [⟨.start, d, i, op⟩] ++ [⟨.finish, d, i, op⟩] <+: (s₂.drive d).log := by
  refine ⟨fun s hs => reachable_animation hs, fun s hs => ⟨fun hcount acts => ?_, fun hnull => ?_⟩, ?_⟩
  · exact (State.reachable_sound hs).exists_run (Config.exact_of_triplesWritten hcount) acts
  · exact ((State.reachable_sound hs).drives d).idle hnull |>.headPosition
  · intro s a s₁ hs hstep before i op hlog hnew
    obtain ⟨ht, hdrives⟩ := (State.reachable_sound hs).step hstep
    have hserving := (State.reachable_sound hs).started (hdrives d) hlog hnew
    refine ⟨?_, fun acts s₂ hrun => ?_⟩
    · obtain ⟨-, -, hhead⟩ := hserving.seek (Nat.zero_le _)
      rw [Nat.cast_zero, zero_mul, add_zero] at hhead
      exact hhead
    · have hs₂ := ht.serves hserving hrun
      rwa [Nat.zero_add] at hs₂

/-- One read, on row 1 of the first disk. -/
def readRowOne : Config :=
  .ofArgs .striping [(4, .read)] 4 (-1) (by decide)

/-- Five moves and ten ticks. -/
theorem service_time_readRowOne :
    (∃ s, (animation readRowOne).run (.getNextIOs :: List.replicate 14 (.animateDisk 0)) (State.init _) = some s
        ∧ s.diskState 0 = .xfer ∧ s.transferCount 0 = 1)
      ∧ ∃ s, (animation readRowOne).run (.getNextIOs :: List.replicate 15 (.animateDisk 0)) (State.init _) = some s
        ∧ [Event.mk .start 0 ⟨0, by decide⟩ .read, ⟨.finish, 0, ⟨0, by decide⟩, .read⟩] <+: (s.drive 0).log := by
  obtain ⟨-, hreachable, hservice⟩ := service_time readRowOne 0
  obtain ⟨hruns, -⟩ := hreachable (State.init _) ⟨[], rfl⟩
  have hstep : (animation readRowOne).step .getNextIOs (State.init _) = some (State.init _).scheduleDisks := rfl
  obtain ⟨-, hends⟩ := hservice _ _ _ ⟨[], rfl⟩ hstep [] ⟨0, by decide⟩ .read (by rfl) (by decide)
  have hticks : serviceTicks [] (⟨0, by decide⟩ : readRowOne.Index) = 15 := by decide
  rw [hticks] at hends
  have hcons : ∀ {acts : List Action} {s : State readRowOne},
      (animation readRowOne).run (.getNextIOs :: acts) (State.init _) = some s →
      (animation readRowOne).run acts (State.init _).scheduleDisks = some s :=
    fun hrun => ((animation readRowOne).run_cons hstep).symm.trans hrun
  refine ⟨?_, ?_⟩
  · obtain ⟨s, hrun⟩ := hruns nofun (.getNextIOs :: List.replicate 14 (.animateDisk 0))
    have hs := hends _ s (hcons hrun)
    rw [List.count_replicate_self, if_pos (by decide)] at hs
    obtain ⟨hxfer, -, hcount⟩ := hs.xfer (by decide)
    refine ⟨s, hrun, hxfer, hcount.trans ?_⟩
    rw [hticks]
    rfl
  · obtain ⟨s, hrun⟩ := hruns nofun (.getNextIOs :: List.replicate 15 (.animateDisk 0))
    have hs := hends _ s (hcons hrun)
    rw [List.count_replicate_self, if_neg (by decide)] at hs
    exact ⟨s, hrun, hs⟩

end Cs537.Graphics
