import Mathlib.Data.Int.Notation
import Mathlib.Data.Int.Order.Basic
import Mathlib.Logic.Function.Basic
import Cs537.Lib.Transition

/-!
# Two threads and a counter

`t1.c` starts two threads that each add one to `counter` `max` times, without a lock. `counter = counter + 1` loads
the counter and stores it later, and the other thread may run in between. Printing is left out.
-/

namespace Cs537.Counter

/-- The argument. The sum that `main` prints as the right one is an `int`. -/
structure Params where
  max : ℤ
  fits : max * 2 ≤ 2147483647

inductive Tid
  | p1
  | p2
  deriving DecidableEq

def Tid.other : Tid → Tid
  | .p1 => .p2
  | .p2 => .p1

/-- Where a thread is in `mythread`; at `store` it has loaded the counter. -/
inductive Point
  | start
  | loopTest
  | load
  | store
  | returned
  deriving DecidableEq

inductive MainPoint
  | createP1
  | createP2
  | joinP1
  | joinP2
  | returned
  deriving DecidableEq

/-- The counter, and for each thread its point, its `i` and the value that it has loaded. -/
structure State where
  counter : ℕ
  pc : Tid → Point
  i : Tid → ℕ
  register : Tid → ℕ
  main : MainPoint

def State.init : State where
  counter := 0
  pc _ := .start
  i _ := 0
  register _ := 0
  main := .createP1

/-- The thread goes on at a point. -/
def State.goto (s : State) (t : Tid) (q : Point) : State := { s with pc := Function.update s.pc t q }

/-- A step of `mythread`. -/
def State.threadStep (max : ℤ) (s : State) (t : Tid) : Option State :=
  match s.pc t with
  | .start => none
  | .loopTest => some (s.goto t (if (s.i t : ℤ) < max then .load else .returned))
  | .load => some ({ s with register := Function.update s.register t s.counter }.goto t .store)
  | .store =>
    some ({ s with counter := s.register t + 1, i := Function.update s.i t (s.i t + 1) }.goto t .loopTest)
  | .returned => none

/-- A step of `main`. -/
def State.mainStep (s : State) : Option State :=
  match s.main with
  | .createP1 => some ({ s with main := .createP2 }.goto .p1 .loopTest)
  | .createP2 => some ({ s with main := .joinP1 }.goto .p2 .loopTest)
  | .joinP1 => if s.pc .p1 = .returned then some { s with main := .joinP2 } else none
  | .joinP2 => if s.pc .p2 = .returned then some { s with main := .returned } else none
  | .returned => none

inductive Action
  | main
  | thread (t : Tid)

/-- The program, with its threads running in any order. -/
def program (p : Params) : Transition.System State Action where
  init := State.init
  step
    | .main, s => s.mainStep
    | .thread t, s => s.threadStep p.max t

end Cs537.Counter
