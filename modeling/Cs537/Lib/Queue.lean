import Mathlib.Data.List.Basic
import Cs537.Lib.Transition

/-!
# Bounded queues

What a first-in first-out queue of bounded capacity does, as a transition system. Its actions are the pushes
and the pops; a pop names the element that it returns.
-/

namespace Queue

variable {α : Type*}

/-- The operations of a queue. -/
inductive Op (α : Type*)
  | push (v : α)
  | pop (v : α)
  deriving DecidableEq

/-- The elements that a list of operations pushes. -/
def pushed : List (Op α) → List α
  | [] => []
  | .push v :: ops => v :: pushed ops
  | .pop _ :: ops => pushed ops

/-- The elements that it pops. -/
def popped : List (Op α) → List α
  | [] => []
  | .push _ :: ops => popped ops
  | .pop v :: ops => v :: popped ops

theorem pushed_append (ops ops' : List (Op α)) : pushed (ops ++ ops') = pushed ops ++ pushed ops' := by
  induction ops with
  | nil => rfl
  | cons op ops ih => cases op <;> simp [pushed, ih]

theorem popped_append (ops ops' : List (Op α)) : popped (ops ++ ops') = popped ops ++ popped ops' := by
  induction ops with
  | nil => rfl
  | cons op ops ih => cases op <;> simp [popped, ih]

variable [DecidableEq α]

/-- Push behind the last element, as long as there is room; pop the first element. -/
def step (cap : ℕ) : Op α → List α → Option (List α)
  | .push v, q => if q.length < cap then some (q ++ [v]) else none
  | .pop _, [] => none
  | .pop v, w :: q => if v = w then some q else none

/-- The queue of capacity `cap`. -/
def bounded (α : Type*) [DecidableEq α] (cap : ℕ) : Transition.System (List α) (Op α) where
  init := []
  step := step cap

/-- A push needs room. -/
theorem step_push {cap : ℕ} {v : α} {q q' : List α} :
    step cap (.push v) q = some q' ↔ q.length < cap ∧ q' = q ++ [v] := by
  unfold step
  split <;> simp_all [eq_comm]

theorem step_pop {cap : ℕ} {v : α} {q q' : List α} : step cap (.pop v) q = some q' ↔ q = v :: q' := by
  cases q with
  | nil => exact ⟨nofun, nofun⟩
  | cons w q =>
    unfold step
    split <;> simp_all [eq_comm]

variable {cap : ℕ} {ops : List (Op α)} {q q' : List α}

/-- **First in, first out**: what is popped, and then what is left, is what was there, and then what was
pushed. -/
theorem fifo (h : (bounded α cap).run ops q = some q') : popped ops ++ q' = q ++ pushed ops := by
  induction ops generalizing q with
  | nil =>
    cases h
    exact (List.append_nil _).symm
  | cons op ops ih =>
    obtain ⟨r, hstep, hrest⟩ := Option.bind_eq_some_iff.mp h
    have hrest := ih hrest
    cases op with
    | push v =>
      obtain ⟨-, rfl⟩ := step_push.mp hstep
      rw [popped, pushed, hrest, List.append_assoc]
      rfl
    | pop v =>
      obtain rfl := step_pop.mp hstep
      rw [popped, pushed, List.cons_append, hrest]
      rfl

/-- The queue never holds more than its capacity. -/
theorem length_le (h : (bounded α cap).Reachable q) : q.length ≤ cap := by
  refine h.invariant (I := fun q => q.length ≤ cap) (Nat.zero_le cap) fun op q q' hstep hle => ?_
  cases op with
  | push v =>
    obtain ⟨hlt, rfl⟩ := step_push.mp hstep
    rw [List.length_append]
    exact hlt
  | pop v =>
    obtain rfl := step_pop.mp hstep
    exact Nat.le_of_succ_le hle

end Queue
