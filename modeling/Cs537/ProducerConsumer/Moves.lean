import Cs537.Lib.Monitor
import Cs537.ProducerConsumer.Program

/-!
# What one step can do

`Moved s s'` lists the ways in which a step can lead from `s` to `s'`, with the guards that were tested.
The invariants are proved over these cases, and the first of them is mutual exclusion.
-/

namespace Cs537.ProducerConsumer

variable {p : Params}

/-! ## Program points -/

@[simp] theorem goto_pc_self (s : State p) (t : Tid p) (q : Point) : (s.goto t q).pc t = q := by
  show Function.update s.pc t q t = q
  exact Function.update_self ..

@[simp] theorem goto_pc_ne (s : State p) {t u : Tid p} (q : Point) (h : u ≠ t) :
    (s.goto t q).pc u = s.pc u := by
  show Function.update s.pc t q u = s.pc u
  exact Function.update_of_ne h ..

theorem goto_pc (s : State p) (t u : Tid p) (q : Point) :
    (s.goto t q).pc u = if u = t then q else s.pc u :=
  Function.update_apply s.pc t q u

@[simp] theorem goto_toShared (s : State p) (t : Tid p) (q : Point) :
    (s.goto t q).toShared = s.toShared := rfl

@[simp] theorem goto_m (s : State p) (t : Tid p) (q : Point) : (s.goto t q).m = s.m := rfl

@[simp] theorem goto_phase (s : State p) (t : Tid p) (q : Point) : (s.goto t q).phase = s.phase := rfl

@[simp] theorem goto_i (s : State p) (t : Tid p) (q : Point) : (s.goto t q).i = s.i := rfl

@[simp] theorem goto_tmp (s : State p) (t : Tid p) (q : Point) : (s.goto t q).tmp = s.tmp := rfl

@[simp] theorem goto_main (s : State p) (t : Tid p) (q : Point) : (s.goto t q).main = s.main := rfl

@[simp] theorem goto_fills (s : State p) (t : Tid p) (q : Point) : (s.goto t q).fills = s.fills := rfl

@[simp] theorem goto_gets (s : State p) (t : Tid p) (q : Point) : (s.goto t q).gets = s.gets := rfl

@[simp] theorem body_pc_self (s : State p) (t : Tid p) : (s.body t).pc t = .signal := by
  cases t <;> exact goto_pc_self ..

@[simp] theorem body_pc_ne (s : State p) {t u : Tid p} (h : u ≠ t) : (s.body t).pc u = s.pc u := by
  cases t <;> exact goto_pc_ne _ _ h

@[simp] theorem unlock_pc_self (s : State p) (t : Tid p) : (s.unlock t).pc t = .loopTest := by
  cases t <;> exact goto_pc_self ..

theorem Tid.producer_ne_consumer (i : Fin p.consumers) : Tid.producer ≠ .consumer i := nofun

/-! ## Steps -/

/-- `main` has created the thread. -/
def MainPoint.Created : MainPoint → Tid p → Prop
  | .createProducer, _ => False
  | .createConsumer _, .producer => True
  | .createConsumer k, .consumer i => i < k
  | _, _ => True

/-- The steps out of `s`. -/
inductive Moved (s : State p) : State p → Prop
  | createProducer (hmain : s.main = .createProducer) :
    Moved s ({ s with main := .createConsumer 0 }.goto .producer .loopTest)
  | createConsumer (i : Fin p.consumers) (hmain : s.main = .createConsumer i) :
    Moved s ({ s with main := .createConsumer (i + 1) }.goto (.consumer i) .loopTest)
  | main (k : MainPoint) (hcreated : ∀ t : Tid p, k.Created t ↔ s.main.Created t) :
    Moved s { s with main := k }
  | producerIterate (hpc : s.pc .producer = .loopTest) (hi : s.i < bound p s.phase) :
    Moved s (s.goto .producer .lock)
  | producerMarkers (hpc : s.pc .producer = .loopTest) (hphase : s.phase = .items)
      (hi : p.loops ≤ s.i) :
    Moved s { s with phase := .markers, i := 0 }
  | producerReturn (hpc : s.pc .producer = .loopTest) (hphase : s.phase = .markers)
      (hi : p.consumers ≤ s.i) :
    Moved s (s.goto .producer .returned)
  | consumerIterate (i : Fin p.consumers) (hpc : s.pc (.consumer i) = .loopTest)
      (htmp : s.tmp i ≠ -1) :
    Moved s (s.goto (.consumer i) .lock)
  | consumerReturn (i : Fin p.consumers) (hpc : s.pc (.consumer i) = .loopTest)
      (htmp : s.tmp i = -1) :
    Moved s (s.goto (.consumer i) .returned)
  | acquire (t : Tid p) (hpc : s.pc t = .lock ∨ s.pc t = .relock) (hm : s.m = none) :
    Moved s ({ s with m := some t }.goto t .waitTest)
  | block (t : Tid p) (hpc : s.pc t = .waitTest) (hblocked : s.blocked t) :
    Moved s (s.goto t .wait)
  | pass (t : Tid p) (hpc : s.pc t = .waitTest) (hblocked : ¬ s.blocked t) :
    Moved s (s.goto t .body)
  | wait (t : Tid p) (hpc : s.pc t = .wait) :
    Moved s ({ s with m := none }.goto t .asleep)
  | fill (hpc : s.pc .producer = .body) :
    Moved s (s.body .producer)
  | get (i : Fin p.consumers) (hpc : s.pc (.consumer i) = .body) :
    Moved s (s.body (.consumer i))
  | signalNone (t : Tid p) (hpc : s.pc t = .signal) (hnone : ∀ u, ¬ s.Waiter t u) :
    Moved s (s.goto t .unlock)
  | signalWake (t u : Tid p) (hpc : s.pc t = .signal) (hwaiter : s.Waiter t u) :
    Moved s ((s.goto u .relock).goto t .unlock)
  | producerUnlock (hpc : s.pc .producer = .unlock) :
    Moved s (s.unlock .producer)
  | consumerUnlock (i : Fin p.consumers) (hpc : s.pc (.consumer i) = .unlock) :
    Moved s (s.unlock (.consumer i))
  | spurious (t : Tid p) (hpc : s.pc t = .asleep) :
    Moved s (s.goto t .relock)

variable {s s' : State p} {t : Tid p}

/-- A thread at `Cond_signal` is not itself asleep. -/
theorem State.Waiter.ne {u : Tid p} (h : s.Waiter t u) (hpc : s.pc t = .signal) : t ≠ u := by
  rintro rfl
  cases hpc.symm.trans h.2

/-- What `main` does is a move. -/
theorem mainStep_moved (h : s.mainStep = some s') : Moved s s' := by
  unfold State.mainStep at h
  split at h
  case h_1 hmain =>
    -- `main` creates the producer
    cases h
    exact .createProducer hmain
  case h_2 k hmain =>
    -- it creates consumer `k`, or goes on to the joins when there is none
    split at h
    · rename_i hk
      cases h
      exact .createConsumer ⟨k, hk⟩ hmain
    · rename_i hk
      cases h
      refine .main _ fun t => ?_
      rw [hmain]
      cases t with
      | producer => exact Iff.rfl
      | consumer i =>
        show True ↔ i < k
        rw [true_iff]
        omega
  case h_3 hmain =>
    -- it waits for the producer to return
    split at h
    · cases h
      exact .main _ fun t => by rw [hmain]; exact Iff.rfl
    · cases h
  case h_4 k hmain =>
    -- it waits for consumer `k`, or returns
    have hjoin : ∀ k' : MainPoint, (∀ t : Tid p, k'.Created t) → Moved s { s with main := k' } :=
      fun k' hk' => .main k' fun t => by rw [hmain]; exact ⟨fun _ => trivial, fun _ => hk' t⟩
    split at h
    · split at h
      · cases h
        exact hjoin _ fun _ => trivial
      · cases h
    · cases h
      exact hjoin _ fun _ => trivial
  case h_5 => cases h

theorem loopTest_moved (hpc : s.pc t = .loopTest) : Moved s (s.loopTest t) := by
  cases t with
  | producer =>
    unfold State.loopTest
    by_cases hi : s.i < bound p s.phase
    · rw [if_pos hi]
      exact .producerIterate hpc hi
    · rw [if_neg hi]
      cases hphase : s.phase with
      | items =>
        rw [hphase] at hi
        exact .producerMarkers hpc hphase (Nat.le_of_not_lt hi)
      | markers =>
        rw [hphase] at hi
        exact .producerReturn hpc hphase (Nat.le_of_not_lt hi)
  | consumer i =>
    simp only [State.loopTest]
    by_cases htmp : s.tmp i = -1
    · rw [if_pos htmp]
      exact .consumerReturn i hpc htmp
    · rw [if_neg htmp]
      exact .consumerIterate i hpc htmp

theorem acquire_moved (hpc : s.pc t = .lock ∨ s.pc t = .relock) (h : s.acquire t = some s') :
    Moved s s' := by
  unfold State.acquire at h
  split at h
  · rename_i hm
    cases h
    exact .acquire t hpc hm
  · cases h

theorem signal_moved {wake : Option (Tid p)} (hpc : s.pc t = .signal)
    (h : s.signal t wake = some s') : Moved s s' := by
  cases wake with
  | none =>
    simp only [State.signal] at h
    by_cases hwaiter : ∃ u, s.Waiter t u
    · rw [if_pos hwaiter] at h
      cases h
    · rw [if_neg hwaiter] at h
      cases h
      exact .signalNone t hpc (not_exists.mp hwaiter)
  | some u =>
    simp only [State.signal] at h
    by_cases hwaiter : s.Waiter t u
    · rw [if_pos hwaiter] at h
      cases h
      exact .signalWake t u hpc hwaiter
    · rw [if_neg hwaiter] at h
      cases h

/-- Whatever a thread does is a move. -/
theorem threadStep_moved {wake : Option (Tid p)} (h : s.threadStep t wake = some s') :
    Moved s s' := by
  unfold State.threadStep at h
  cases hpc : s.pc t <;> rw [hpc] at h
  case start => cases h
  case loopTest =>
    cases h
    exact loopTest_moved hpc
  case lock => exact acquire_moved (.inl hpc) h
  case waitTest =>
    -- the test of the inner loop decides between waiting and the body
    cases h
    by_cases hblocked : s.blocked t
    · rw [if_pos hblocked]
      exact .block t hpc hblocked
    · rw [if_neg hblocked]
      exact .pass t hpc hblocked
  case wait =>
    cases h
    exact .wait t hpc
  -- only a signal or a spurious wakeup gets a thread out of here
  case asleep => cases h
  case relock => exact acquire_moved (.inr hpc) h
  case body =>
    -- the producer fills a slot, a consumer takes from one
    cases h
    cases t with
    | producer => exact .fill hpc
    | consumer i => exact .get i hpc
  case signal => exact signal_moved hpc h
  case unlock =>
    -- the producer counts its turn when it leaves
    cases h
    cases t with
    | producer => exact .producerUnlock hpc
    | consumer i => exact .consumerUnlock i hpc
  case returned => cases h

/-- Every step is one of the listed cases. -/
theorem step_moved {a : Action p} (h : (program p).step a s = some s') : Moved s s' := by
  cases a with
  | main => exact mainStep_moved h
  | thread t wake => exact threadStep_moved h
  | spurious t =>
    change s.spuriousWakeup t = some s' at h
    unfold State.spuriousWakeup at h
    split at h
    · rename_i hpc
      cases h
      exact .spurious t hpc
    · cases h

/-- The invariant rule over the listed cases. -/
theorem reachable_invariant {I : State p → Prop} (hinit : I (init p))
    (hmoved : ∀ s s', Moved s s' → I s → I s') (h : (program p).Reachable s) : I s :=
  h.invariant hinit fun _ _ _ hstep => hmoved _ _ (step_moved hstep)

/-! ## Mutual exclusion -/

/-- The points between `Mutex_lock` and `Mutex_unlock`, without those inside `Cond_wait`. -/
def Point.critical : Point → Bool
  | .waitTest | .wait | .body | .signal | .unlock => true
  | _ => false

/-- The owner of `m` is the thread in its critical section. -/
def State.Mutex (s : State p) : Prop := Monitor.Exclusive s.m fun t => (s.pc t).critical

namespace State.Mutex

/-- A move that does not leave or enter the critical section keeps mutual exclusion. -/
theorem goto {q : Point} (h : s.Mutex) (hcritical : q.critical = (s.pc t).critical) :
    (s.goto t q).Mutex := by
  refine Monitor.Exclusive.congr h fun u => ?_
  rw [goto_pc]
  split
  · rename_i hut
    rw [hut, hcritical]
  · exact Iff.rfl

/-- A free mutex can be taken. -/
theorem acquire {q : Point} (h : s.Mutex) (hm : s.m = none) (hq : q.critical) :
    ({ s with m := some t }.goto t q).Mutex := by
  unfold State.Mutex at h
  rw [hm] at h
  refine Monitor.Exclusive.acquire h ?_ fun u hu => ?_
  · rw [goto_pc_self]
    exact hq
  · rw [goto_pc_ne _ _ hu]

/-- Whoever is inside may leave. -/
theorem release {q : Point} (h : s.Mutex) (ht : (s.pc t).critical) (hq : q.critical = false) :
    ({ s with m := none }.goto t q).Mutex := by
  refine Monitor.Exclusive.release h ht ?_ fun u hu => ?_
  · rw [goto_pc_self, hq]
    exact Bool.false_ne_true
  · rw [goto_pc_ne _ _ hu]

/-- Two threads in their critical sections are one thread. -/
theorem eq {u : Tid p} (h : s.Mutex) (ht : (s.pc t).critical) (hu : (s.pc u).critical) : t = u :=
  Monitor.Exclusive.eq h ht hu

/-- **One move keeps mutual exclusion.** -/
theorem moved (h : s.Mutex) (hcreated : ∀ t, s.pc t = .start ↔ ¬ s.main.Created t)
    (hmoved : Moved s s') : s'.Mutex := by
  cases hmoved with
  | createProducer hmain =>
    -- a thread that is not created yet is not inside
    have hpc := (hcreated .producer).mpr (by rw [hmain]; exact id)
    exact goto (s := { s with main := _ }) h (by rw [hpc]; rfl)
  | createConsumer i hmain =>
    have hpc := (hcreated (.consumer i)).mpr (by rw [hmain]; exact Nat.lt_irrefl i)
    exact goto (s := { s with main := _ }) h (by rw [hpc]; rfl)
  | main => exact h
  | producerIterate hpc => exact goto h (by rw [hpc]; rfl)
  | producerMarkers => exact h
  | producerReturn hpc => exact goto h (by rw [hpc]; rfl)
  | consumerIterate i hpc => exact goto h (by rw [hpc]; rfl)
  | consumerReturn i hpc => exact goto h (by rw [hpc]; rfl)
  -- in and out of the critical section
  | acquire t hpc hm => exact acquire h hm rfl
  | block t hpc => exact goto h (by rw [hpc]; rfl)
  | pass t hpc => exact goto h (by rw [hpc]; rfl)
  | wait t hpc => exact release h (by rw [hpc]; rfl) rfl
  | fill hpc => exact goto (s := { s with toShared := _, fills := _ }) h (by rw [hpc]; rfl)
  | get i hpc =>
    exact goto (s := { s with toShared := _, tmp := _, gets := _ }) h (by rw [hpc]; rfl)
  | signalNone t hpc => exact goto h (by rw [hpc]; rfl)
  | signalWake t u hpc hwaiter =>
    -- the thread that is woken up has to get the mutex first
    refine goto (goto h (by rw [hwaiter.2]; rfl)) ?_
    rw [goto_pc_ne _ _ (hwaiter.ne hpc), hpc]
    rfl
  | producerUnlock hpc => exact release (s := { s with i := _ }) h (by rw [hpc]; rfl) rfl
  | consumerUnlock i hpc => exact release h (by rw [hpc]; rfl) rfl
  | spurious t hpc => exact goto h (by rw [hpc]; rfl)

end State.Mutex

end Cs537.ProducerConsumer
