import Cs537.Graphics.Clock
import Cs537.Lib.Transition

/-!
# One disk of the simulator

What the program reacts to, as a transition system, and as a system with one action for each disk in the loop of
`Animate`. On its own, a disk ticks, and every tick of another disk leaves it alone, up to an I/O that is started on
it while it is idle.
-/

namespace Cs537.Graphics

variable {c : Config}

/-! ## The program -/

/-- `Pause`. -/
def State.pause (s : State c) : State c := { s with doAnimate := !s.doAnimate }

/-- The timer of a tick. -/
def State.tickTimer (s : State c) : State c := { s with timer := s.timer + 1 }

/-- The two keys, and the timer of the window. -/
inductive Input
  | start
  | pause
  | animate

/-- `Start`, `Pause` and `Animate`. -/
def State.react (input : Input) (s : State c) : Option (State c) :=
  match input with
  | .start => s.getNextIOs.bind State.animate
  | .pause => some s.pause
  | .animate => s.animate

/-- The program, whatever keys are pressed. -/
def program (c : Config) : Transition.System (State c) Input where
  init := State.init c
  step := State.react

/-- What the program is made of. -/
inductive Action
  | getNextIOs
  | pause
  | tickTimer
  | animateDisk (disk : Disk)
  deriving DecidableEq

/-- The same in any order, and with one disk at a time. -/
def animation (c : Config) : Transition.System (State c) Action where
  init := State.init c
  step
    | .getNextIOs, s => s.getNextIOs
    | .pause, s => some s.pause
    | .tickTimer, s => some s.tickTimer
    | .animateDisk disk, s => s.animateDisk disk

/-- The actions of `Animate`. -/
def State.loop (s : State c) : List Action :=
  if s.doAnimate then .tickTimer :: (List.finRange 4).map .animateDisk else []

/-- The actions behind a key or the timer. -/
def State.actions (s : State c) : Input → List Action
  | .start => .getNextIOs :: s.getNextIOs.elim [] State.loop
  | .pause => [.pause]
  | .animate => s.loop

/-- The loop of `Animate` is a run of the single disks. -/
theorem run_animateDisk (disks : List Disk) (s : State c) :
    (animation c).run (disks.map .animateDisk) s = disks.foldlM State.animateDisk s := by
  induction disks generalizing s with
  | nil => rfl
  | cons d disks ih =>
    rw [List.foldlM_cons]
    show (s.animateDisk d).bind _ = (s.animateDisk d).bind _
    congr 1
    funext t
    exact ih t

/-- One tick is a run of the timer and the disks. -/
theorem run_loop (s : State c) : (animation c).run s.loop s = s.animate := by
  unfold State.loop State.animate
  split
  · exact run_animateDisk _ _
  · rfl

/-- What an input does is a run. -/
theorem run_actions (s : State c) (input : Input) :
    (animation c).run (s.actions input) s = (program c).step input s := by
  cases input with
  | start =>
    show s.getNextIOs.bind ((animation c).run (s.getNextIOs.elim [] State.loop)) = s.getNextIOs.bind State.animate
    cases s.getNextIOs with
    | none => rfl
    | some t => exact run_loop t
  | pause => rfl
  | animate => exact run_loop s

/-- **The program performs runs of the finer system.** -/
theorem program_refines (c : Config) : Transition.Refines (program c) (animation c) State.actions Eq where
  init := rfl
  step := by
    rintro input s s' _ - rfl hstep
    refine ⟨s', ?_, rfl⟩
    rw [run_actions]
    exact hstep

/-- Every state of the program is one of the animation. -/
theorem reachable_animation {s : State c} (h : (program c).Reachable s) : (animation c).Reachable s := by
  obtain ⟨inputs, hrun⟩ := h
  obtain ⟨t, hactions, rfl⟩ := (program_refines c).run hrun
  exact ⟨_, hactions⟩

/-- The ticks after `Start` are a run of the program. -/
theorem reachable_of_run {s : State c} {n : ℕ} (h : run c n = some s) : (program c).Reachable s := by
  induction n generalizing s with
  | zero =>
    refine ⟨[.start], ?_⟩
    show ((State.init c).getNextIOs.bind State.animate).bind _ = _
    rw [show (State.init c).getNextIOs.bind State.animate = some s from h]
    rfl
  | succ n ih =>
    obtain ⟨t, hrun, hanimate⟩ := Option.bind_eq_some_iff.mp h
    exact (ih hrun).step (a := Input.animate) hanimate

/-! ## One disk -/

/-- `block_offset`. -/
def Mapping.blockOffset (mapping : Mapping) (block : ℕ) : ℤ :=
  match mapping with
  | .striping => 20 * (block / 4 : ℕ) + 100
  | .mirroring => 20 * (block / 2 : ℕ) + 100
  | .raid4 => 20 * (block / 3 : ℕ) + 100
  | .raid5 => 20 * (block / 3 : ℕ) + 100

/-- `SetSeekDirection` asks for the logical block and `DoneWithSeek` for the row, also where the block is a mirror or
a parity block. -/
theorem blockOffset_eq (i : c.Index) :
    c.mapping.blockOffset (c.request i).logicalAddress = offsetToYpos (c.request i).physOffset := by
  obtain ⟨a, -, heq⟩ := c.exists_addr i
  have hlogical : (c.request i).logicalAddress = a.1 := congrArg Request.logicalAddress heq
  have hoffset : (c.request i).physOffset = c.mapping.physOffset a.1 := congrArg Request.physOffset heq
  rw [hlogical, hoffset]
  unfold Mapping.blockOffset Mapping.physOffset offsetToYpos
  cases c.mapping <;> rfl

/-- The part of the state that belongs to one disk, and its part of the log. -/
structure Drive (c : Config) where
  diskState : DiskState
  headPosition : ℤ
  lastTarget : Option c.Index
  currentTarget : Option c.Index
  currentOptype : Option OpType
  seekDelta : ℤ
  transferCount : ℤ
  log : List (Event c)

namespace State

/-- The part of a disk. -/
def drive (s : State c) (d : Disk) : Drive c where
  diskState := s.diskState d
  headPosition := s.headPosition d
  lastTarget := s.lastTarget d
  currentTarget := s.currentTarget d
  currentOptype := s.currentOptype d
  seekDelta := s.seekDelta d
  transferCount := s.transferCount d
  log := s.log.filter fun ev => ev.disk = d

end State

namespace Drive

/-- `StartRequest`. -/
def start (x : Drive c) (d : Disk) (i : c.Index) (op : OpType) : Drive c :=
  { x with
    diskState := .seek
    lastTarget := x.currentTarget
    currentTarget := some i
    currentOptype := some op
    seekDelta := if x.headPosition < c.mapping.blockOffset (c.request i).logicalAddress then c.seekSpeed
      else -c.seekSpeed
    log := x.log ++ [⟨.start, d, i, op⟩] }

/-- `StartTransfer`. -/
def startTransfer (x : Drive c) (i : c.Index) : Drive c :=
  let offsetLast : ℤ := match x.lastTarget with
    | none => -1
    | some last => (c.request last).physOffset
  { x with
    diskState := .xfer
    transferCount := if ((c.request i).physOffset : ℤ) = offsetLast + 1 then 1 else 10 }

/-- The end of an I/O. -/
def finish (d : Disk) (x : Drive c) : Drive c :=
  match x.currentTarget, x.currentOptype with
  | some i, some op => { x with diskState := .null, log := x.log ++ [⟨.finish, d, i, op⟩] }
  | _, _ => x

/-- A tick of a transfer. -/
def transfer (d : Disk) (x : Drive c) : Drive c :=
  let x := { x with transferCount := x.transferCount - 1 }
  if x.transferCount = 0 then x.finish d else x

/-- What a tick does to its disk, before I/Os are started. -/
def tick (d : Disk) (x : Drive c) : Drive c :=
  match x.diskState, x.currentTarget with
  | .seek, some i =>
    if x.headPosition = offsetToYpos (c.request i).physOffset then (x.startTransfer i).transfer d
    else { x with headPosition := x.headPosition + x.seekDelta }
  | .xfer, _ => x.transfer d
  | _, _ => x

/-- Nothing happens to a disk, or it is idle and starts an I/O. -/
def MayStart (d : Disk) (x y : Drive c) : Prop :=
  y = x ∨ (x.diskState = .null ∧ ∃ i op, y = x.start d i op)

section

variable {x : Drive c} {d : Disk} {i : c.Index}

theorem tick_null (hnull : x.diskState = .null) : x.tick d = x := by
  unfold tick
  rw [hnull]

theorem tick_xfer (hxfer : x.diskState = .xfer) : x.tick d = x.transfer d := by
  unfold tick
  rw [hxfer]

/-- A seeking disk that is there transfers in the same tick. -/
theorem tick_arrive (hseek : x.diskState = .seek) (htarget : x.currentTarget = some i)
    (hat : x.headPosition = offsetToYpos (c.request i).physOffset) : x.tick d = (x.startTransfer i).transfer d := by
  unfold tick
  rw [hseek, htarget]
  exact if_pos hat

/-- A seeking disk that is not there moves its head. -/
theorem tick_moveHead (hseek : x.diskState = .seek) (htarget : x.currentTarget = some i)
    (haway : x.headPosition ≠ offsetToYpos (c.request i).physOffset) :
    x.tick d = { x with headPosition := x.headPosition + x.seekDelta } := by
  have htick : x.tick d = if x.headPosition = offsetToYpos (c.request i).physOffset
      then (x.startTransfer i).transfer d else { x with headPosition := x.headPosition + x.seekDelta } := by
    unfold tick
    split
    · rename_i j hj
      cases htarget.symm.trans hj
      rfl
    · rename_i heq
      rw [hseek] at heq
      cases heq
    · rename_i hnot
      exact (hnot i hseek htarget).elim
  rw [htick, if_neg haway]

end

end Drive

namespace State

variable {s s' t : State c} {d d' : Disk} {i : c.Index} {op : OpType} {status : Statuses}

/-- Starting an I/O sets its disk in motion. -/
theorem drive_begin_self : (s.begin d i op status).drive d = (s.drive d).start d i op := by
  obtain ⟨startTime, hstart⟩ := markStart_eq s i
  unfold begin Drive.start
  rw [hstart, blockOffset_eq]
  simp only [drive, startRequest, setSeekDirection, Function.update_self, List.filter_append, decide_true,
    List.filter_cons_of_pos, List.filter_nil, Drive.mk.injEq, and_self, and_true, true_and]
  rfl

theorem drive_begin_of_ne (hd : d' ≠ d) : (s.begin d i op status).drive d' = s.drive d' := by
  obtain ⟨startTime, hstart⟩ := markStart_eq s i
  unfold begin
  rw [hstart]
  simp [drive, startRequest, setSeekDirection, hd, hd.symm]

/-- **`GetNextIOs` starts I/Os on idle disks**, and does nothing else to a disk. -/
theorem mayStart_getNextIOs (hnext : s.getNextIOs = some t) (d : Disk) :
    Drive.MayStart d (s.drive d) (t.drive d) := by
  refine getNextIOs_invariant (P := fun t => Drive.MayStart d (s.drive d) (t.drive d)) hnext ?_ (.inl rfl) (.inl rfl)
  intro t d' i op status ht hidle _
  by_cases hd : d = d'
  · subst hd
    rw [drive_begin_self]
    rcases ht with heq | ⟨-, j, op', heq⟩
    · refine .inr ⟨?_, i, op, by rw [heq]⟩
      exact (congrArg Drive.diskState heq).symm.trans hidle
    · -- it has been started and is not idle any more
      have hseek : t.diskState d = .seek := congrArg Drive.diskState heq
      rw [hseek] at hidle
      cases hidle
  · rwa [drive_begin_of_ne hd]

/-- Moving the head, seen from its disk. -/
theorem drive_moveHead : (s.moveHead d).drive d
    = { s.drive d with headPosition := s.headPosition d + s.seekDelta d } := by
  simp [drive, moveHead]

theorem drive_moveHead_of_ne (hd : d' ≠ d) : (s.moveHead d).drive d' = s.drive d' := by
  simp [drive, moveHead, hd]

/-- Arriving, seen from its disk. -/
theorem drive_arrive : (s.arrive d i).drive d = (s.drive d).startTransfer i := by
  simp only [drive, arrive, startTransfer, Drive.startTransfer, Function.update_self, Drive.mk.injEq, and_true,
    true_and]
  rfl

theorem drive_arrive_of_ne (hd : d' ≠ d) : (s.arrive d i).drive d' = s.drive d' := by
  simp [drive, arrive, startTransfer, hd]

/-- Counting down, seen from its disk. -/
theorem drive_countDown : (s.countDown d).drive d
    = { s.drive d with transferCount := s.transferCount d - 1 } := by
  simp [drive, countDown]

theorem drive_countDown_of_ne (hd : d' ≠ d) : (s.countDown d).drive d' = s.drive d' := by
  simp [drive, countDown, hd]

/-- The end of an I/O is an event of its disk. -/
theorem drive_markDone (h : s.markDone d = some t) : (t.release d).drive d = (s.drive d).finish d
    ∧ ∀ d', d' ≠ d → (t.release d).drive d' = s.drive d' := by
  unfold markDone at h
  simp only [Option.bind_eq_bind, Option.bind_eq_some_iff] at h
  obtain ⟨i, htarget, op, hoptype, e, -, ⟨status, done⟩, -, h⟩ := h
  have htarget' : (s.drive d).currentTarget = some i := htarget
  have hoptype' : (s.drive d).currentOptype = some op := hoptype
  unfold Drive.finish
  rw [htarget', hoptype']
  refine ⟨?_, fun d' hd => ?_⟩
  · cases done <;> cases h <;> simp [drive, release, htarget, hoptype]
  · cases done <;> cases h <;> simp [drive, release, hd, hd.symm]

/-! ## The actions -/

/-- Between `s` and `s'` one disk becomes `x`, and then I/Os may be started. -/
def Acts (d : Disk) (x : Drive c) (s s' : State c) : Prop :=
  ∃ t : State c, t.Consistent ∧ t.drive d = x ∧ (∀ d', d' ≠ d → t.drive d' = s.drive d')
    ∧ (s' = t ∨ t.getNextIOs = some s')

/-- The transfer of a tick is that of its disk. -/
theorem Consistent.transferStep (h : s.Consistent) (hbusy : s.diskState d ≠ .null)
    (hstep : s.transferStep d = some s') : Acts d ((s.drive d).transfer d) s s' := by
  have hcount : (s.countDown d).Consistent := ⟨h.targeted, h.inv⟩
  have htransfer : (s.drive d).transfer d = if (s.countDown d).transferCount d = 0
      then ((s.countDown d).drive d).finish d else (s.countDown d).drive d := by
    rw [countDown_transferCount, drive_countDown]
    rfl
  rw [htransfer, countDown_transferCount]
  rcases transferStep_cases hstep with ⟨hne, rfl⟩ | ⟨hone, t, hmark, hnext⟩
  · refine ⟨s.countDown d, hcount, ?_, fun d' hd => drive_countDown_of_ne hd, .inl rfl⟩
    rw [if_neg (by omega)]
  · obtain ⟨t', hmark', ht⟩ := hcount.markDone (d := d) hbusy
    cases hmark.symm.trans hmark'
    obtain ⟨hself, hother⟩ := drive_markDone hmark
    refine ⟨t.release d, ht, ?_, fun d' hd => ?_, .inr hnext⟩
    · rw [if_pos (by omega), hself]
    · rw [hother d' hd, drive_countDown_of_ne hd]

/-- **One disk in the loop of `Animate`**: it ticks, and the others do nothing. -/
theorem Consistent.animateDisk (h : s.Consistent) (hstep : s.animateDisk d = some s') :
    Acts d ((s.drive d).tick d) s s' := by
  rcases animateDisk_cases h.targeted hstep with
    ⟨hnull, rfl⟩ | ⟨hxfer, htransfer⟩ | ⟨i, hseek, htarget, ⟨hat, htransfer⟩ | ⟨haway, rfl⟩⟩
  · refine ⟨s', h, ?_, fun _ _ => rfl, .inl rfl⟩
    rw [Drive.tick_null hnull]
  · rw [Drive.tick_xfer hxfer]
    exact h.transferStep (by rw [hxfer]; decide) htransfer
  · -- the transfer begins with its first tick
    have harrive : (s.arrive d i).Consistent := h.arrive (by rw [hseek]; decide)
    obtain ⟨t, ht, hself, hother, hs'⟩ := harrive.transferStep (d := d) (by rw [arrive_diskState]; decide) htransfer
    rw [Drive.tick_arrive hseek htarget hat]
    refine ⟨t, ht, ?_, fun d' hd => ?_, hs'⟩
    · rw [hself, drive_arrive]
    · rw [hother d' hd, drive_arrive_of_ne hd]
  · rw [Drive.tick_moveHead hseek htarget haway]
    exact ⟨s.moveHead d, ⟨h.targeted, h.inv⟩, drive_moveHead, fun d' hd => drive_moveHead_of_ne hd, .inl rfl⟩

end State

/-- What an action does to a disk, before I/Os are started. -/
def Action.on (a : Action) (d : Disk) (x : Drive c) : Drive c := if a = .animateDisk d then x.tick d else x

/-- **With an exact count, every action is possible.** -/
theorem State.Consistent.exists_step {s : State c} (hexact : c.Exact) (h : s.Consistent) (a : Action) :
    ∃ s', (animation c).step a s = some s' := by
  cases a with
  | getNextIOs => exact h.exists_getNextIOs hexact
  | pause => exact ⟨_, rfl⟩
  | tickTimer => exact ⟨_, rfl⟩
  | animateDisk disk => exact h.exists_animateDisk hexact disk

/-- **To a disk, an action does what its own tick does**, up to the start of an I/O. -/
theorem State.Consistent.step {s s' : State c} {a : Action} (h : s.Consistent)
    (hstep : (animation c).step a s = some s') :
    s'.Consistent ∧ ∀ d, Drive.MayStart d (a.on d (s.drive d)) (s'.drive d) := by
  cases a with
  | getNextIOs => exact ⟨h.getNextIOs hstep, fun d => mayStart_getNextIOs hstep d⟩
  | pause =>
    cases hstep
    exact ⟨⟨h.targeted, h.inv⟩, fun _ => .inl rfl⟩
  | tickTimer =>
    cases hstep
    exact ⟨⟨h.targeted, h.inv⟩, fun _ => .inl rfl⟩
  | animateDisk disk =>
    obtain ⟨t, ht, hself, hother, hs'⟩ := h.animateDisk (d := disk) hstep
    have hon : ∀ d, (Action.animateDisk disk).on d (s.drive d) = t.drive d := by
      intro d
      unfold Action.on
      split
      · rename_i heq
        cases heq
        exact hself.symm
      · rename_i hne
        exact (hother d fun hd => hne (congrArg _ hd.symm)).symm
    simp only [hon]
    rcases hs' with rfl | hnext
    · exact ⟨ht, fun _ => .inl rfl⟩
    · exact ⟨ht.getNextIOs hnext, fun d => mayStart_getNextIOs hnext d⟩

end Cs537.Graphics
