import Mathlib.Data.List.FinRange
import Mathlib.Data.Rat.Defs
import Mathlib.Logic.Function.Basic
import Cs537.Graphics.Request

/-!
# The animated simulator

The state of `class Raid` in `raid-graphics.py` and the methods that drive it: `GetNextIOs` starts I/Os on idle
disks, and every `Animate` advances each disk by one tick. Drawing is left out. `log` records when an I/O
starts and finishes; no method reads it. What happens after an exception is left out as well.
-/

namespace Cs537.Graphics

/-- `STATE_NULL`, `STATE_SEEK` and `STATE_XFER`. -/
inductive DiskState
  | null
  | seek
  | xfer
  deriving DecidableEq, Repr

inductive EventKind
  | start
  | finish
  deriving DecidableEq, Repr

/-- An I/O on `disk` for the request at `index` starts or finishes. -/
structure Event (c : Config) where
  kind : EventKind
  disk : Disk
  index : c.Index
  op : OpType
  deriving DecidableEq

/-- The attributes of `class Raid` that change. A target of `none` is `-1`. -/
structure State (c : Config) where
  diskState : Disk → DiskState
  headPosition : Disk → ℤ
  lastTarget : Disk → Option c.Index
  currentTarget : Disk → Option c.Index
  currentOptype : Disk → Option OpType
  seekDelta : Disk → ℤ
  transferCount : Disk → ℤ
  countReads : Disk → ℕ
  countWrites : Disk → ℕ
  status : c.Index → Statuses
  startTime : c.Index → ℤ
  requestCount : ℤ
  window : ℤ
  timer : ℤ
  logicalRequests : ℕ
  latencyTotal : ℤ
  doAnimate : Bool
  isDone : Bool
  log : List (Event c)

variable {c : Config}

/-- The state after `__init__`. -/
def State.init (c : Config) : State c where
  diskState _ := .null
  headPosition _ := 100
  lastTarget _ := none
  currentTarget _ := none
  currentOptype _ := none
  seekDelta _ := 0
  transferCount _ := -1
  countReads _ := 0
  countWrites _ := 0
  status _ := .init
  startTime _ := -1
  requestCount := 0
  window := c.window
  timer := 0
  logicalRequests := 0
  latencyTotal := 0
  doAnimate := true
  isDone := false
  log := []

/-- `offset_to_ypos`. -/
def offsetToYpos (offset : ℕ) : ℤ := 20 * offset + 100

/-! ## Starting I/Os -/

/-- `MarkStart`. -/
def State.markStart (s : State c) (index : c.Index) : State c :=
  if s.startTime index = -1 then { s with startTime := Function.update s.startTime index s.timer }
  else s

/-- `SetSeekDirection` towards a row. -/
def State.setSeekDirection (s : State c) (disk : Disk) (offset : ℕ) : State c :=
  let delta := if s.headPosition disk < offsetToYpos offset then c.seekSpeed else -c.seekSpeed
  { s with seekDelta := Function.update s.seekDelta disk delta }

/-- `StartRead` or `StartWrite`, with `StartRequest`. -/
def State.startRequest (s : State c) (disk : Disk) (index : c.Index) (op : OpType) : State c :=
  let s := { s with
    currentOptype := Function.update s.currentOptype disk (some op)
    diskState := Function.update s.diskState disk .seek
    log := s.log ++ [Event.mk .start disk index op] }
  let s := s.setSeekDirection disk (c.request index).physOffset
  { s with
    lastTarget := Function.update s.lastTarget disk (s.currentTarget disk)
    currentTarget := Function.update s.currentTarget disk (some index) }

/-- The body of the scheduler's loop for an idle disk: one of the `Do…Scheduling` methods. -/
def State.schedule (s : State c) (disk : Disk) (index : c.Index) : State c :=
  if s.diskState disk = .null then
    match (c.request index).doScheduling c.mapping (s.status index) disk with
    | none => s
    | some (op, status) =>
      { s.markStart index with status := Function.update s.status index status }.startRequest
        disk index op
  else s

/-- The scheduler's loop over the queue, with its `count`. -/
def State.scheduleDisk (disk : Disk) : List c.Index → ℤ → State c → State c
  | [], _, s => s
  | index :: rest, count, s =>
    if s.window ≠ -1 ∧ s.window ≤ count then State.scheduleDisk disk rest count s
    else State.scheduleDisk disk rest (count + 1) (s.schedule disk index)

/-- The scheduler's loop over the disks. -/
def State.scheduleDisks (s : State c) : State c :=
  (List.finRange 4).foldl (fun s disk => State.scheduleDisk disk (List.finRange c.requestQueue.length) 0 s) s

/-- `PrintStats`: the time, the requests and their average latency; `none` is the exception of a division by zero. -/
def State.printStats (s : State c) : Option (ℤ × ℕ × ℚ) :=
  if s.logicalRequests = 0 then none
  else some (s.timer, s.logicalRequests, (s.latencyTotal : ℚ) / s.logicalRequests)

/-- `GetNextIOs`; `none` is an exception. -/
def State.getNextIOs (s : State c) : Option (State c) :=
  if s.requestCount = c.requestCountNeeded then do
    -- it prints before it stops, so that the state is as it was when it fails
    let _ ← s.printStats
    return { s with doAnimate := false, isDone := true }
  else some s.scheduleDisks

/-! ## One tick -/

/-- `MoveHead`. -/
def State.moveHead (s : State c) (disk : Disk) : State c :=
  { s with headPosition :=
      Function.update s.headPosition disk (s.headPosition disk + s.seekDelta disk) }

/-- `StartTransfer`: a transfer from the row behind the last one takes one tick, any other ten. -/
def State.startTransfer (s : State c) (disk : Disk) (index : c.Index) : State c :=
  let offsetLast : ℤ := match s.lastTarget disk with
    | none => -1
    | some last => (c.request last).physOffset
  let count := if ((c.request index).physOffset : ℤ) = offsetLast + 1 then 1 else 10
  { s with transferCount := Function.update s.transferCount disk count }

/-- The seek of a tick: the head moves, or the transfer begins. -/
def State.seekStep (s : State c) (disk : Disk) : Option (State c) :=
  match s.currentTarget disk with
  | none => none
  | some index =>
    if s.headPosition disk = offsetToYpos (c.request index).physOffset then
      some ({ s with diskState := Function.update s.diskState disk .xfer }.startTransfer disk index)
    else some (s.moveHead disk)

/-- `MarkDone`; `none` is an exception. -/
def State.markDone (s : State c) (disk : Disk) : Option (State c) := do
  let index ← s.currentTarget disk
  let op ← s.currentOptype disk
  let entry ← (c.request index).diskIndex disk
  let (status, requestDone) ← (c.request index).requestDone c.mapping (s.status index) entry
  let s := { s with
    countWrites := if op = .write then Function.update s.countWrites disk (s.countWrites disk + 1)
      else s.countWrites
    countReads := if op = .read then Function.update s.countReads disk (s.countReads disk + 1)
      else s.countReads
    status := Function.update s.status index status
    log := s.log ++ [Event.mk .finish disk index op] }
  if requestDone then
    return { s with
      logicalRequests := s.logicalRequests + 1
      latencyTotal := s.latencyTotal + (s.timer - s.startTime index)
      window := if 0 < s.window then s.window + 1 else s.window }
  else return s

/-- What follows `MarkDone` when an I/O ends: it is counted and the disk is idle. -/
def State.release (s : State c) (disk : Disk) : State c :=
  { s with
    requestCount := s.requestCount + 1
    diskState := Function.update s.diskState disk .null }

/-- One tick of a transfer is over. -/
def State.countDown (s : State c) (disk : Disk) : State c :=
  { s with transferCount := Function.update s.transferCount disk (s.transferCount disk - 1) }

/-- The transfer of a tick. When it ends, the disk is idle again and I/Os are started. -/
def State.transferStep (s : State c) (disk : Disk) : Option (State c) :=
  let s := s.countDown disk
  if s.transferCount disk = 0 then do
    let s ← s.markDone disk
    (s.release disk).getNextIOs
  else some s

/-- One disk in the loop of `Animate`. -/
def State.animateDisk (s : State c) (disk : Disk) : Option (State c) := do
  let s ← if s.diskState disk = .seek then s.seekStep disk else some s
  if s.diskState disk = .xfer then s.transferStep disk else some s

/-- `Animate`. -/
def State.animate (s : State c) : Option (State c) :=
  if s.doAnimate then (List.finRange 4).foldlM State.animateDisk { s with timer := s.timer + 1 }
  else some s

/-- `Start`, and then `n` ticks of the animation: `none` after an exception. -/
def run (c : Config) : ℕ → Option (State c)
  | 0 => (State.init c).getNextIOs.bind State.animate
  | n + 1 => (run c n).bind State.animate

end Cs537.Graphics
