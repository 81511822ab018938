import Cs537.Lib.Queue
import Cs537.ProducerConsumer.Invariant

/-!
# The buffer is a bounded queue

The shared variables represent a queue of capacity `max`: `do_fill` pushes, `do_get` pops, and no other step
touches it. So the program refines `Queue.bounded`, and what it represents is the list of the values that have
been filled and not yet fetched.
-/

namespace Cs537.ProducerConsumer

variable {p : Params} {s s' : State p} {t : Tid p}

/-! ## Steps that leave the buffer alone -/

/-- The two states agree on the buffer and on what went through it. -/
def State.SameQueue (s s' : State p) : Prop :=
  s'.toShared = s.toShared ∧ s'.fills = s.fills ∧ s'.gets = s.gets

/-- `main` does not touch the queue. -/
theorem mainStep_sameQueue (h : s.mainStep = some s') : s.SameQueue s' := by
  unfold State.mainStep at h
  split at h
  case h_1 =>
    cases h
    exact ⟨rfl, rfl, rfl⟩
  case h_2 =>
    split at h <;> cases h <;> exact ⟨rfl, rfl, rfl⟩
  case h_3 =>
    split at h <;> cases h
    exact ⟨rfl, rfl, rfl⟩
  case h_4 =>
    split at h
    · split at h <;> cases h
      exact ⟨rfl, rfl, rfl⟩
    · cases h
      exact ⟨rfl, rfl, rfl⟩
  case h_5 => cases h

theorem loopTest_sameQueue (s : State p) (t : Tid p) : s.SameQueue (s.loopTest t) := by
  cases t with
  | producer =>
    simp only [State.loopTest]
    split
    · exact ⟨rfl, rfl, rfl⟩
    · split <;> exact ⟨rfl, rfl, rfl⟩
  | consumer i =>
    simp only [State.loopTest]
    split <;> exact ⟨rfl, rfl, rfl⟩

theorem acquire_sameQueue (h : s.acquire t = some s') : s.SameQueue s' := by
  unfold State.acquire at h
  split at h <;> cases h
  exact ⟨rfl, rfl, rfl⟩

theorem signal_sameQueue {wake : Option (Tid p)} (h : s.signal t wake = some s') : s.SameQueue s' := by
  unfold State.signal at h
  split at h <;> split at h <;> cases h <;> exact ⟨rfl, rfl, rfl⟩

/-- A thread touches the buffer at its body only. -/
theorem threadStep_sameQueue {wake : Option (Tid p)} (hpc : s.pc t ≠ .body)
    (h : s.threadStep t wake = some s') : s.SameQueue s' := by
  unfold State.threadStep at h
  split at h
  case h_1 | h_6 | h_11 => cases h
  case h_2 =>
    cases h
    exact loopTest_sameQueue s t
  case h_3 | h_7 => exact acquire_sameQueue h
  case h_4 | h_5 =>
    cases h
    exact ⟨rfl, rfl, rfl⟩
  case h_8 hbody => exact absurd hbody hpc
  case h_9 => exact signal_sameQueue h
  case h_10 =>
    cases h
    cases t <;> exact ⟨rfl, rfl, rfl⟩

theorem spuriousWakeup_sameQueue (h : s.spuriousWakeup t = some s') : s.SameQueue s' := by
  unfold State.spuriousWakeup at h
  split at h <;> cases h
  exact ⟨rfl, rfl, rfl⟩

/-! ## The refinement -/

/-- The queue operation of `do_fill` and of `do_get`. -/
def State.queueOp (s : State p) : Tid p → Queue.Op ℤ
  | .producer => .push s.value
  | .consumer _ => .pop (s.toShared.doGet p.max).1

/-- The queue operations of a step. -/
def State.queueOps (s : State p) : Action p → List (Queue.Op ℤ)
  | .thread t _ => if s.pc t = .body then [s.queueOp t] else []
  | _ => []

variable {vs : List ℤ}

/-- What the buffer holds is a matter of the queue. -/
theorem State.Holds.sameQueue (h : s.Holds vs) (hsame : s.SameQueue s') : s'.Holds vs :=
  h.congr hsame.1 hsame.2.1 hsame.2.2

/-- What a thread does at its body is a step of the queue. -/
theorem State.Holds.body (h : s.Holds vs) (hguard : ¬ s.blocked t) :
    ∃ vs', Queue.step p.max (s.queueOp t) vs = some vs' ∧ (s.body t).Holds vs' := by
  cases t with
  | producer =>
    have hfilled := h.fill hguard
    refine ⟨vs ++ [s.value], Queue.step_push.mpr ⟨?_, rfl⟩, hfilled⟩
    have hle := hfilled.ring.length_le
    rw [List.length_append] at hle
    exact hle
  | consumer i =>
    obtain ⟨v, vs', rfl⟩ := h.exists_cons hguard
    refine ⟨vs', Queue.step_pop.mpr ?_, (h.get i).1⟩
    show v :: vs' = s.buffer s.usePtr :: vs'
    rw [h.ring.head_eq]

/-- The program refines the bounded queue. -/
theorem program_refines :
    Transition.Refines (program p) (Queue.bounded ℤ p.max) State.queueOps State.Holds where
  init := ⟨.nil p.max_pos, rfl, rfl⟩
  step a s s' vs hs h hstep := by
    cases a with
    | main => exact ⟨vs, rfl, h.sameQueue (mainStep_sameQueue hstep)⟩
    | spurious t => exact ⟨vs, rfl, h.sameQueue (spuriousWakeup_sameQueue hstep)⟩
    | thread t wake =>
      change s.threadStep t wake = some s' at hstep
      by_cases hpc : s.pc t = .body
      · obtain ⟨vs', hop, hbody⟩ := h.body (((reachable_inv hs).guards t).2 hpc)
        unfold State.threadStep at hstep
        rw [hpc] at hstep
        cases hstep
        refine ⟨vs', ?_, hbody⟩
        rw [State.queueOps, if_pos hpc]
        show (Queue.step p.max (s.queueOp t) vs).bind _ = _
        rw [hop]
        rfl
      · refine ⟨vs, ?_, h.sameQueue (threadStep_sameQueue hpc hstep)⟩
        rw [State.queueOps, if_neg hpc]
        rfl

/-- A step records the values that it pushes and those that it pops. -/
theorem step_recorded {a : Action p} (hstep : (program p).step a s = some s') :
    s'.fills = s.fills ++ Queue.pushed (s.queueOps a)
      ∧ s'.gets.map Prod.snd = s.gets.map Prod.snd ++ Queue.popped (s.queueOps a) := by
  have hquiet : s.queueOps a = [] → s.SameQueue s' →
      s'.fills = s.fills ++ Queue.pushed (s.queueOps a)
        ∧ s'.gets.map Prod.snd = s.gets.map Prod.snd ++ Queue.popped (s.queueOps a) := by
    intro hops hsame
    rw [hops, hsame.2.1, hsame.2.2]
    exact ⟨(List.append_nil _).symm, (List.append_nil _).symm⟩
  cases a with
  | main => exact hquiet rfl (mainStep_sameQueue hstep)
  | spurious t => exact hquiet rfl (spuriousWakeup_sameQueue hstep)
  | thread t wake =>
    change s.threadStep t wake = some s' at hstep
    by_cases hpc : s.pc t = .body
    · unfold State.threadStep at hstep
      rw [hpc] at hstep
      cases hstep
      rw [State.queueOps, if_pos hpc]
      cases t with
      | producer => exact ⟨rfl, (List.append_nil _).symm⟩
      | consumer i => exact ⟨(List.append_nil _).symm, List.map_append⟩
    · exact hquiet (if_neg hpc) (threadStep_sameQueue hpc hstep)

/-- **The histories are those of the queue.** -/
theorem run_recorded {as : List (Action p)} (hrun : (program p).run as s = some s') :
    s'.fills = s.fills ++ Queue.pushed ((program p).trace State.queueOps as s)
      ∧ s'.gets.map Prod.snd
        = s.gets.map Prod.snd ++ Queue.popped ((program p).trace State.queueOps as s) := by
  induction as generalizing s with
  | nil =>
    cases hrun
    exact ⟨(List.append_nil _).symm, (List.append_nil _).symm⟩
  | cons a as ih =>
    obtain ⟨t, hstep, hrest⟩ := Option.bind_eq_some_iff.mp hrun
    have htrace : (program p).trace State.queueOps (a :: as) s
        = s.queueOps a ++ (program p).trace State.queueOps as t := by
      rw [Transition.System.trace, hstep]
      rfl
    obtain ⟨hfills, hgets⟩ := ih hrest
    rw [htrace, Queue.pushed_append, Queue.popped_append, ← List.append_assoc, ← List.append_assoc,
      ← (step_recorded hstep).1, ← (step_recorded hstep).2]
    exact ⟨hfills, hgets⟩

/-! ## The slots -/

/-- The values from `use_ptr` on, `num_full` of them. -/
def State.window (s : State p) : List ℤ :=
  (List.range s.numFull.toNat).map fun j => s.buffer ((s.usePtr + j) % p.max)

/-- The window shows what the buffer holds. -/
theorem State.Holds.window_eq (h : s.Holds vs) : s.window = vs := by
  have hlen : s.numFull.toNat = vs.length := by rw [h.numFull_eq, Int.toNat_natCast]
  apply List.ext_getElem
  · rw [State.window, List.length_map, List.length_range, hlen]
  · intro j hj hj'
    simp only [State.window, List.getElem_map, List.getElem_range]
    exact h.ring.slot j hj'

/-- The fetches go round the buffer. -/
theorem usePtr_eq (h : (program p).Reachable s) : s.usePtr = s.gets.length % p.max := by
  refine reachable_invariant (I := fun s => s.usePtr = s.gets.length % p.max) (Nat.zero_mod _).symm
    (fun s s' hmoved hptr => ?_) h
  cases hmoved with
  | get i hpc =>
    show (s.usePtr + 1) % p.max = (s.gets ++ [_]).length % p.max
    rw [hptr, Nat.mod_add_mod, List.length_append, List.length_singleton]
  | _ => exact hptr

/-- What has been put has been taken or is still there. -/
theorem State.Holds.length_fills (h : s.Holds vs) : s.fills.length = s.gets.length + vs.length := by
  rw [h.fills_eq, List.length_append, List.length_map]

/-- So do the fills. -/
theorem State.Holds.fillPtr_eq (h : s.Holds vs) (hptr : s.usePtr = s.gets.length % p.max) :
    s.fillPtr = s.fills.length % p.max := by
  rw [h.ring.tail_eq, h.length_fills, hptr, Nat.mod_add_mod]

/-- **The bounded buffer**: in every reachable state `num_full` and the pointers are in their ranges and fit
together, and the slots from `use_ptr` on hold the values filled and not yet fetched, in order. The fills and the
fetches go round the slots: a producer at `do_fill` has the last value of its slot fetched, and no unfetched
value is in that slot; a consumer at `do_get` finds in its slot the first value that is not yet fetched. Every run
performs, with its fills and fetches, a run of the queue of capacity `max`, which ends with those values. -/
theorem bounded_buffer (h : (program p).Reachable s) :
    (0 ≤ s.numFull ∧ s.numFull ≤ p.max)
      ∧ (s.usePtr < p.max ∧ s.fillPtr < p.max ∧ s.fillPtr = (s.usePtr + s.numFull.toNat) % p.max)
      ∧ s.fills = s.gets.map Prod.snd ++ s.window
      ∧ (s.usePtr = s.gets.length % p.max ∧ s.fillPtr = s.fills.length % p.max)
      ∧ (s.pc .producer = .body → s.fills.length < s.gets.length + p.max
          ∧ ∀ j < s.numFull.toNat, (s.usePtr + j) % p.max ≠ s.fillPtr)
      ∧ (∀ i, s.pc (.consumer i) = .body →
          s.fills[s.gets.length]? = some (s.toShared.doGet p.max).1)
      ∧ ∀ as, (program p).run as (init p) = some s →
          let ops := (program p).trace State.queueOps as (init p)
          (Queue.bounded ℤ p.max).run ops [] = some s.window
            ∧ Queue.pushed ops = s.fills ∧ Queue.popped ops = s.gets.map Prod.snd := by
  have hinv := reachable_inv h
  -- the window is the queue of every run that leads here
  have hqueue : ∀ as, (program p).run as (init p) = some s →
      (Queue.bounded ℤ p.max).run ((program p).trace State.queueOps as (init p)) [] = some s.window
        ∧ s.Holds s.window := by
    intro as hrun
    obtain ⟨vs, hrun', hvs⟩ := program_refines.run hrun
    rw [hvs.window_eq]
    exact ⟨hrun', hvs⟩
  obtain ⟨as, hrun⟩ := id h
  obtain ⟨hqrun, hvs⟩ := hqueue as hrun
  have hle : s.window.length ≤ p.max := Queue.length_le ⟨_, hqrun⟩
  have hnum := hvs.numFull_eq
  have htoNat : s.numFull.toNat = s.window.length := by rw [hnum, Int.toNat_natCast]
  refine ⟨⟨by omega, by omega⟩, ⟨hvs.ring.head_lt, hvs.ring.tail_lt, ?_⟩, ?_,
    ⟨usePtr_eq h, hvs.fillPtr_eq (usePtr_eq h)⟩, fun hpc => ?_, fun i hpc => ?_, fun as hrun => ?_⟩
  · rw [hvs.ring.tail_eq, htoNat]
  · rw [(run_recorded hrun).1, (run_recorded hrun).2]
    exact (Queue.fifo hqrun).symm
  · -- the producer has tested `numFull` under the mutex that it still holds
    have hne : s.numFull ≠ p.max := (hinv.guards .producer).2 hpc
    have hlt : s.window.length < p.max := by omega
    refine ⟨by rw [hvs.length_fills]; omega, fun j hj heq => ?_⟩
    rw [hvs.ring.tail_eq] at heq
    have hj := Ring.slot_injective (by omega) hlt heq
    omega
  · -- and so has the consumer
    obtain ⟨v, vs', hcons⟩ := hvs.exists_cons ((hinv.guards (.consumer i)).2 hpc)
    rw [hcons] at hvs
    rw [hvs.fills_eq, List.getElem?_append_right (by rw [List.length_map]), List.length_map, Nat.sub_self]
    show some v = some (s.buffer s.usePtr)
    rw [hvs.ring.head_eq]
  · exact ⟨(hqueue as hrun).1, (run_recorded hrun).1.symm, (run_recorded hrun).2.symm⟩

/-- A run up to the first fetch, with the producer asleep behind a full buffer of one slot. -/
def fillRun : List (Action .single) :=
  List.replicate 3 .main ++ List.replicate 11 (.thread .producer none)
    ++ List.replicate 3 (.thread (.consumer 0) none)

/-- The run leads into the body of the consumer. -/
theorem fillRun_body :
    ∃ s, (program ⟨1, 1, 1, le_rfl, le_rfl⟩).run fillRun (init _) = some s
      ∧ s.pc (.consumer 0) = .body ∧ s.fills = [0] := by
  have hrun : ((program ⟨1, 1, 1, le_rfl, le_rfl⟩).run fillRun (init _)).any
      (fun s => s.pc (.consumer 0) = .body ∧ s.fills = [0]) = true := by decide +kernel
  obtain ⟨s, hs, hpc⟩ := (Option.any_eq_true _ _).mp hrun
  exact ⟨s, hs, of_decide_eq_true hpc⟩

/-- The value that was put is the one that is taken. -/
theorem bounded_buffer_fillRun :
    ∃ s, (program ⟨1, 1, 1, le_rfl, le_rfl⟩).run fillRun (init _) = some s
      ∧ s.fills = [0] ∧ s.fills[s.gets.length]? = some (s.toShared.doGet 1).1
      ∧ (Queue.bounded ℤ 1).run ((program _).trace State.queueOps fillRun (init _)) [] = some s.window := by
  obtain ⟨s, hs, hpc, hfills⟩ := fillRun_body
  obtain ⟨-, -, -, -, -, hget, hqueue⟩ := bounded_buffer ⟨fillRun, hs⟩
  exact ⟨s, hs, hfills, hget 0 hpc, (hqueue fillRun hs).1⟩

end Cs537.ProducerConsumer
