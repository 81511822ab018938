import Mathlib.Algebra.Order.BigOperators.Group.Finset
import Mathlib.Data.Prod.Lex
import Cs537.Lib.Iteration
import Cs537.Graphics.Clock

/-!
# Termination

Every state between two ticks is a state of the untimed simulator with a consistent clock. As long as some disk is
busy, a tick ends an I/O or brings every busy disk closer to the end of its own. With an exact count, no tick raises
an exception, and the simulation therefore ends.
-/

namespace Cs537.Graphics

variable {c : Config}

/-- The end of an I/O is counted. -/
theorem Core.step_requestCount {s s' : Core c} {d : Disk} (h : Core.step d s = some s') :
    s'.requestCount = s.requestCount + 1 := by
  obtain ⟨t, hfinish, hnext⟩ := Option.bind_eq_some_iff.mp h
  obtain ⟨i, op, status, done, -, rfl⟩ := Core.exists_served hfinish
  exact Core.getNextIOs_requestCount hnext

namespace State

variable {s s' t : State c} {d : Disk} {disks : List Disk}

/-- A state between two ticks, after a `Start` that has found something to do. -/
structure Reached (s : State c) : Prop where
  timing : s.Timing
  reachable : (untimed c).Reachable s.core
  needed : c.requestCountNeeded ≠ 0

/-- Either scheduling is not affected, no disk is further from the end of its I/O and the busy ones among
`disks` are closer to it, or some I/O has ended. -/
def Advances (disks : List Disk) (s s' : State c) : Prop :=
  (s'.core = s.core ∧ (∀ d, s'.fuel d ≤ s.fuel d)
      ∧ ∀ d ∈ disks, s.diskState d ≠ .null → s'.fuel d < s.fuel d)
    ∨ s.requestCount < s'.requestCount

/-- No I/O is uncounted. -/
theorem Advances.requestCount_le (h : Advances disks s s') : s.requestCount ≤ s'.requestCount := by
  rcases h with ⟨hcore, -⟩ | hlt
  · exact (congrArg Core.requestCount hcore).ge
  · exact hlt.le

theorem Reached.ticked (h : s.Reached) (ht : Ticked d s t) : t.Reached := by
  obtain ⟨htiming, ⟨hcore, -⟩ | hstep⟩ := ht
  · exact ⟨htiming, hcore ▸ h.reachable, h.needed⟩
  · exact ⟨htiming, h.reachable.step hstep, h.needed⟩

/-- One more disk in front of the loop. -/
theorem Ticked.advances (ht : Ticked d s t) (hrest : Advances disks t s') : Advances (d :: disks) s s' := by
  rcases ht.2 with ⟨hcore, hother, hnull, hfuel⟩ | hstep
  · rcases hrest with ⟨hcore', hle, hlt⟩ | hlt
    · have hfirst : ∀ d', t.fuel d' ≤ s.fuel d' := by
        intro d'
        by_cases hd : d' = d
        · rw [hd]
          by_cases hidle : s.diskState d = .null
          · rw [hnull hidle]
          · exact (hfuel hidle).le
        · exact (hother d' hd).fuel_eq.le
      refine .inl ⟨hcore'.trans hcore, fun d' => (hle d').trans (hfirst d'), fun d' hd' hbusy => ?_⟩
      by_cases hd : d' = d
      · subst hd
        exact (hle d').trans_lt (hfuel hbusy)
      · have hmem : d' ∈ disks := (List.mem_cons.mp hd').resolve_left hd
        refine (hlt d' hmem ?_).trans_le (hfirst d')
        rw [(hother d' hd).diskState]
        exact hbusy
    · exact .inr ((congrArg Core.requestCount hcore).symm.trans_lt hlt)
  · refine .inr ?_
    have hcount : t.requestCount = s.requestCount + 1 := Core.step_requestCount hstep
    have hle := hrest.requestCount_le
    omega

theorem Reached.consistent (h : s.Reached) : s.Consistent := ⟨h.timing.targeted, Core.reachable_inv h.reachable⟩

/-- The loop of `Animate`. -/
theorem Reached.animateDisks (h : s.Reached) (hloop : disks.foldlM State.animateDisk s = some s') :
    s'.Reached ∧ Advances disks s s' := by
  induction disks generalizing s with
  | nil =>
    cases hloop
    exact ⟨h, .inl ⟨rfl, fun _ => le_rfl, nofun⟩⟩
  | cons d disks ih =>
    rw [List.foldlM_cons] at hloop
    obtain ⟨t, hstep, hrest⟩ := Option.bind_eq_some_iff.mp hloop
    have hticked := ticked_animateDisk h.timing hstep
    obtain ⟨hreached, hadvances⟩ := ih (h.ticked hticked) hrest
    exact ⟨hreached, hticked.advances hadvances⟩

/-- With an exact count, the loop of `Animate` does not fail. -/
theorem Reached.exists_animateDisks (hexact : c.Exact) (h : s.Reached) (disks : List Disk) :
    ∃ s', disks.foldlM State.animateDisk s = some s' := by
  induction disks generalizing s with
  | nil => exact ⟨s, rfl⟩
  | cons d disks ih =>
    obtain ⟨t, hstep⟩ := h.consistent.exists_animateDisk hexact d
    obtain ⟨s', hloop⟩ := ih (h.ticked (ticked_animateDisk h.timing hstep))
    refine ⟨s', ?_⟩
    rw [List.foldlM_cons, hstep]
    exact hloop

/-- The state after the timer of a tick. -/
theorem Reached.tickTimer (h : s.Reached) : Reached { s with timer := s.timer + 1 } :=
  ⟨⟨fun d => (h.timing.disk d).congr ⟨rfl, rfl, rfl, rfl, rfl, rfl⟩, h.timing.animate⟩, h.reachable, h.needed⟩

/-- Before the end, the animation goes on. -/
theorem Reached.doAnimate_of_not (h : s.Reached) (hgo : s.isDone = false) : s.doAnimate = true := by
  rw [h.timing.animate, hgo]
  rfl

/-- Before the end, a tick advances all disks, and after it nothing changes. -/
theorem Reached.animate (h : s.Reached) (hanimate : s.animate = some s') :
    s'.Reached ∧ (s.isDone = true → s' = s) ∧ (s.isDone = false → Advances (List.finRange 4) s s') := by
  unfold State.animate at hanimate
  by_cases hdone : s.isDone = true
  · have hstop : s.doAnimate = false := by
      rw [h.timing.animate, hdone]
      rfl
    rw [hstop] at hanimate
    cases hanimate
    exact ⟨h, fun _ => rfl, fun hnot => absurd (hnot.symm.trans hdone) nofun⟩
  · rw [if_pos (h.doAnimate_of_not (Bool.eq_false_iff.mpr hdone))] at hanimate
    obtain ⟨hreached, hadvances⟩ := h.tickTimer.animateDisks hanimate
    exact ⟨hreached, fun hd => absurd hd hdone, fun _ => hadvances⟩

/-- **With an exact count, no tick fails.** -/
theorem Reached.exists_animate (hexact : c.Exact) (h : s.Reached) : ∃ s', s.animate = some s' := by
  unfold State.animate
  split
  · exact h.tickTimer.exists_animateDisks hexact _
  · exact ⟨s, rfl⟩

/-- `Start`, when it does not fail. -/
theorem start_reached (hnext : (State.init c).getNextIOs = some s) : s.Reached := by
  have htiming := init_timing (c := c)
  refine ⟨htiming.getNextIOs hnext, ⟨[], ?_⟩, ?_⟩
  · have hcore := core_of_getNextIOs htiming.targeted hnext
    rw [core_init] at hcore
    exact congrArg (fun o => some (o.getD (Core.init c))) hcore
  · rcases getNextIOs_eq_some_iff.mp hnext with ⟨-, hne, -⟩ | ⟨hcount, -⟩
    · exact absurd rfl hne
    · exact hcount.symm

end State

/-- **The states of a run** are states of the untimed simulator. -/
theorem reached_of_run {s : State c} {n : ℕ} (h : run c n = some s) : s.Reached := by
  induction n generalizing s with
  | zero =>
    obtain ⟨t, hnext, hanimate⟩ := Option.bind_eq_some_iff.mp h
    exact ((State.start_reached hnext).animate hanimate).1
  | succ n ih =>
    obtain ⟨t, hrun, hanimate⟩ := Option.bind_eq_some_iff.mp h
    exact ((ih hrun).animate hanimate).1

/-- **With an exact count, no tick raises an exception.** -/
theorem run_reached (hexact : c.Exact) (n : ℕ) : ∃ s, run c n = some s ∧ s.Reached := by
  refine Iteration.exists_of_invariant (f := State.animate) (fun _ => rfl) ?_ (fun s hs => ?_) n
  · obtain ⟨t, hnext⟩ := State.init_consistent.exists_getNextIOs hexact
    have hreached := State.start_reached hnext
    obtain ⟨s, hanimate⟩ := hreached.exists_animate hexact
    refine ⟨s, ?_, (hreached.animate hanimate).1⟩
    show (State.init c).getNextIOs.bind State.animate = some s
    rw [hnext]
    exact hanimate
  · obtain ⟨s', hanimate⟩ := hs.exists_animate hexact
    exact ⟨s', hanimate, (hs.animate hanimate).1⟩

namespace State

variable {s s' : State c}

/-- What is left to do: the I/Os to be performed, and then the ticks that the disks may need. -/
def remaining (s : State c) : ℕ ×ₗ ℕ :=
  toLex ((c.total - s.requestCount).toNat, ∑ d : Disk, s.fuel d)

/-- A tick with a busy disk gets the simulation on. -/
theorem Advances.remaining_lt (h : Advances (List.finRange 4) s s') (hinv : s'.core.Inv)
    (hbusy : ∃ d, s.diskState d ≠ .null) : s'.remaining < s.remaining := by
  unfold remaining
  rw [Prod.Lex.toLex_lt_toLex]
  rcases h with ⟨hcore, hle, hlt⟩ | hcount
  · have hsame : s'.requestCount = s.requestCount := congrArg Core.requestCount hcore
    obtain ⟨d, hd⟩ := hbusy
    refine .inr ⟨by rw [hsame], ?_⟩
    exact Finset.sum_lt_sum (fun d _ => hle d) ⟨d, Finset.mem_univ d, hlt d (List.mem_finRange d) hd⟩
  · refine .inl ?_
    have hmax : s'.requestCount ≤ c.total := hinv.requestCount_le
    show (c.total - s'.requestCount).toNat < (c.total - s.requestCount).toNat
    omega

/-- A busy disk of the untimed part has a tick to make. -/
theorem Reached.busy (h : s.Reached) (hbusy : s.core.Busy) : ∃ d, s.diskState d ≠ .null := by
  obtain ⟨d, hd⟩ := hbusy
  exact ⟨d, mt (core_serving_eq_none_iff (h.timing.targeted d)).mpr hd⟩

end State

/-- **Termination**: with an exact count, the simulation ends. -/
theorem exists_isDone (hexact : c.Exact) : ∃ n s, run c n = some s ∧ s.isDone = true := by
  have hstep : ∀ s : State c, s.Reached → ¬ s.isDone = true →
      ∃ s', s.animate = some s' ∧ s'.Reached ∧ s'.remaining < s.remaining := by
    intro s hs hnot
    rw [Bool.not_eq_true] at hnot
    obtain ⟨s', hanimate⟩ := hs.exists_animate hexact
    obtain ⟨hreached, -, hadvances⟩ := hs.animate hanimate
    refine ⟨s', hanimate, hreached, ?_⟩
    apply (hadvances hnot).remaining_lt (Core.reachable_inv hreached.reachable)
    exact hs.busy ((Core.reachable_settled hexact hs.reachable).busy hnot)
  obtain ⟨s, hrun, hreached⟩ := run_reached hexact 0
  obtain ⟨n, s', hrun', -, hdone⟩ :=
    Iteration.exists_of_measure (fun _ => rfl) hstep hrun hreached
  exact ⟨n, s', hrun', hdone⟩

end Cs537.Graphics
