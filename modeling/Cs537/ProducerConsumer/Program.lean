import Mathlib.Algebra.GroupWithZero.Nat
import Mathlib.Data.Fintype.Sum
import Mathlib.Tactic.DeriveFintype
import Cs537.Lib.Transition

/-!
# The producer/consumer program

One producer fills a bounded buffer, several consumers empty it, and a mutex with two condition
variables keeps them apart. Every thread runs the code of `producer` or `consumer`; a program point
says where it stands. The shared variables are only touched between `Mutex_lock` and `Mutex_unlock`, so
`do_fill` and `do_get` are one step each.

`fills` and `gets` record the values that went through the buffer. They have no counterpart in the
program and no step reads them.
-/

namespace Cs537.ProducerConsumer

/-- The command line: `max`, `loops` and `consumers`. -/
structure Params where
  max : ℕ
  loops : ℕ
  consumers : ℕ
  max_pos : 1 ≤ max
  consumers_pos : 1 ≤ consumers

instance (p : Params) : NeZero p.consumers := ⟨Nat.ne_of_gt p.consumers_pos⟩

/-- One slot, one item and one consumer. -/
def Params.single : Params := ⟨1, 1, 1, le_rfl, le_rfl⟩

/-! ## The buffer -/

/-- The shared variables. -/
structure Shared where
  buffer : ℕ → ℤ
  usePtr : ℕ
  fillPtr : ℕ
  numFull : ℤ

/-- `do_fill`. -/
def Shared.doFill (max : ℕ) (value : ℤ) (g : Shared) : Shared where
  buffer := Function.update g.buffer g.fillPtr value
  usePtr := g.usePtr
  fillPtr := (g.fillPtr + 1) % max
  numFull := g.numFull + 1

/-- `do_get`: the value taken, and the variables it leaves. -/
def Shared.doGet (max : ℕ) (g : Shared) : ℤ × Shared :=
  (g.buffer g.usePtr,
    { g with usePtr := (g.usePtr + 1) % max, numFull := g.numFull - 1 })

/-! ## Threads -/

variable {p : Params}

/-- The threads that `main` creates. -/
inductive Tid (p : Params)
  | producer
  | consumer (i : Fin p.consumers)
  deriving DecidableEq, Fintype

/-- The condition variables. -/
inductive Cond
  | empty
  | fill
  deriving DecidableEq

/-- The condition variable on which the thread waits. -/
def Tid.waitsOn : Tid p → Cond
  | .producer => .empty
  | .consumer _ => .fill

/-- The condition variable that the thread signals. -/
def Tid.signals : Tid p → Cond
  | .producer => .fill
  | .consumer _ => .empty

/-- Where a thread stands. `asleep` is inside `Cond_wait`, and `relock` is a woken thread that has yet
to take the mutex back. -/
inductive Point
  | start
  | loopTest
  | lock
  | waitTest
  | wait
  | asleep
  | relock
  | body
  | signal
  | unlock
  | returned
  deriving DecidableEq

/-- The two loops of the producer. -/
inductive Phase
  | items
  | markers
  deriving DecidableEq

/-- Where `main` stands; the argument is its loop variable. -/
inductive MainPoint
  | createProducer
  | createConsumer (i : ℕ)
  | joinProducer
  | joinConsumer (i : ℕ)
  | returned
  deriving DecidableEq

/-- The shared variables, the owner of the mutex `m`, the program points and the local variables: `phase`
and `i` of the producer, `tmp` of each consumer. -/
structure State (p : Params) extends Shared where
  m : Option (Tid p)
  pc : Tid p → Point
  phase : Phase
  i : ℕ
  tmp : Fin p.consumers → ℤ
  main : MainPoint
  fills : List ℤ
  gets : List (Fin p.consumers × ℤ)

/-- `main` after allocating and clearing the buffer. -/
def init (p : Params) : State p where
  buffer := fun _ => 0
  usePtr := 0
  fillPtr := 0
  numFull := 0
  m := none
  pc := fun _ => .start
  phase := .items
  i := 0
  tmp := fun _ => 0
  main := .createProducer
  fills := []
  gets := []

/-- Thread `t` moves on to the point `q`. -/
def State.goto (s : State p) (t : Tid p) (q : Point) : State p :=
  { s with pc := Function.update s.pc t q }

/-! ## Steps -/

/-- The test of the `while` around `Cond_wait`. -/
def State.blocked (s : State p) : Tid p → Prop
  | .producer => s.numFull = p.max
  | .consumer _ => s.numFull = 0

instance (s : State p) (t : Tid p) : Decidable (s.blocked t) :=
  match t with
  | .producer => inferInstanceAs (Decidable (s.numFull = p.max))
  | .consumer _ => inferInstanceAs (Decidable (s.numFull = 0))

/-- The bound of the producer's `for` loop. -/
def bound (p : Params) : Phase → ℕ
  | .items => p.loops
  | .markers => p.consumers

/-- The value that the producer puts into the buffer. -/
def State.value (s : State p) : ℤ :=
  match s.phase with
  | .items => s.i
  | .markers => -1

/-- The test at the head of a thread's loop. The producer's first loop ends in its second one. -/
def State.loopTest (s : State p) : Tid p → State p
  | .producer =>
    if s.i < bound p s.phase then s.goto .producer .lock
    else match s.phase with
      | .items => { s with phase := .markers, i := 0 }
      | .markers => s.goto .producer .returned
  | .consumer i =>
    if s.tmp i = -1 then s.goto (.consumer i) .returned else s.goto (.consumer i) .lock

/-- `Mutex_lock`, and the end of `Cond_wait`: take the mutex once it is free. -/
def State.acquire (s : State p) (t : Tid p) : Option (State p) :=
  if s.m = none then some ({ s with m := some t }.goto t .waitTest) else none

/-- `do_fill(i)`, `do_fill(-1)` or `tmp = do_get()`. -/
def State.body (s : State p) : Tid p → State p
  | .producer =>
    { s with toShared := s.toShared.doFill p.max s.value, fills := s.fills ++ [s.value] }.goto
      .producer .signal
  | .consumer i =>
    { s with
      toShared := (s.toShared.doGet p.max).2
      tmp := Function.update s.tmp i (s.toShared.doGet p.max).1
      gets := s.gets ++ [(i, (s.toShared.doGet p.max).1)] }.goto (.consumer i) .signal

/-- `u` sleeps on the condition variable that `t` signals. -/
def State.Waiter (s : State p) (t u : Tid p) : Prop :=
  u.waitsOn = t.signals ∧ s.pc u = .asleep

instance (s : State p) (t u : Tid p) : Decidable (s.Waiter t u) :=
  inferInstanceAs (Decidable (_ ∧ _))

/-- `Cond_signal` wakes the waiter `wake`; without a waiter it does nothing. -/
def State.signal (s : State p) (t : Tid p) (wake : Option (Tid p)) : Option (State p) :=
  match wake with
  | some u => if s.Waiter t u then some ((s.goto u .relock).goto t .unlock) else none
  | none => if ∃ u, s.Waiter t u then none else some (s.goto t .unlock)

/-- `Mutex_unlock`, and the `i++` that ends a round of the producer's loop. -/
def State.unlock (s : State p) : Tid p → State p
  | .producer => { s with m := none, i := s.i + 1 }.goto .producer .loopTest
  | .consumer i => { s with m := none }.goto (.consumer i) .loopTest

/-- One step of thread `t`. Where `t` signals, `wake` is the thread that the signal wakes. -/
def State.threadStep (s : State p) (t : Tid p) (wake : Option (Tid p)) : Option (State p) :=
  match s.pc t with
  | .start => none
  | .loopTest => some (s.loopTest t)
  | .lock => s.acquire t
  | .waitTest => some (s.goto t (if s.blocked t then .wait else .body))
  | .wait => some ({ s with m := none }.goto t .asleep)
  | .asleep => none
  | .relock => s.acquire t
  | .body => some (s.body t)
  | .signal => s.signal t wake
  | .unlock => some (s.unlock t)
  | .returned => none

/-- One step of `main`: create the threads, then join them in the same order. -/
def State.mainStep (s : State p) : Option (State p) :=
  match s.main with
  | .createProducer =>
    some ({ s with main := .createConsumer 0 }.goto .producer .loopTest)
  | .createConsumer i =>
    if h : i < p.consumers then
      some ({ s with main := .createConsumer (i + 1) }.goto (.consumer ⟨i, h⟩) .loopTest)
    else some { s with main := .joinProducer }
  | .joinProducer =>
    if s.pc .producer = .returned then some { s with main := .joinConsumer 0 } else none
  | .joinConsumer i =>
    if h : i < p.consumers then
      if s.pc (.consumer ⟨i, h⟩) = .returned then some { s with main := .joinConsumer (i + 1) }
      else none
    else some { s with main := .returned }
  | .returned => none

/-- A sleeping thread wakes up without a signal. -/
def State.spuriousWakeup (s : State p) (t : Tid p) : Option (State p) :=
  if s.pc t = .asleep then some (s.goto t .relock) else none

/-- What can happen next. -/
inductive Action (p : Params)
  | main
  | thread (t : Tid p) (wake : Option (Tid p))
  | spurious (t : Tid p)

def State.step (a : Action p) (s : State p) : Option (State p) :=
  match a with
  | .main => s.mainStep
  | .thread t wake => s.threadStep t wake
  | .spurious t => s.spuriousWakeup t

/-- The program, under every interleaving of its threads. -/
def program (p : Params) : Transition.System (State p) (Action p) where
  init := init p
  step := State.step

end Cs537.ProducerConsumer
