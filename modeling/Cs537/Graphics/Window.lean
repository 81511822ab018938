import Cs537.Graphics.Completion
import Cs537.Graphics.Moves

/-!
# Requests in flight

The window bounds the requests that have been started and are not complete: all started requests lie below
the window, which has moved by one for each complete request.
-/

namespace Cs537.Graphics

variable {c : Config}

namespace Core

variable {s : Core c} {d : Disk} {i : c.Index} {op : OpType} {status : Statuses}

/-- Some I/O of the request has been started. -/
def Started (s : Core c) (i : c.Index) : Prop := ∃ ev ∈ s.log, ev.kind = .start ∧ ev.index = i

/-- The request has been started and is not complete. -/
def InFlight (s : Core c) (i : c.Index) : Prop := s.Started i ∧ ¬ (c.kind i).Complete (s.config i)

instance (s : Core c) (i : c.Index) : Decidable (s.Started i) :=
  inferInstanceAs (Decidable (∃ ev ∈ s.log, _))

instance (s : Core c) (i : c.Index) : Decidable (s.InFlight i) := inferInstanceAs (Decidable (_ ∧ _))

/-- Every started request is within the window. -/
theorem windowed_eligible (h : (windowed c).Reachable s) (hi : s.Started i) : s.Eligible i := by
  refine reachable_of_moves (P := fun t => ∀ i, t.Started i → t.Eligible i) h ?_ ?_ ?_ ?_ i hi
  · rintro i ⟨ev, hev, -⟩
    cases hev
  · rintro t d j op status ht helig - i ⟨ev, hev, hkind, rfl⟩
    rcases List.mem_append.mp hev with hold | hnew
    · exact ht _ ⟨ev, hold, hkind, rfl⟩
    · cases List.mem_singleton.mp hnew
      exact helig
  · rintro t d j op status done ht - i ⟨ev, hev, hkind, rfl⟩
    rcases List.mem_append.mp hev with hold | hnew
    · -- the window only moves forward
      have helig := ht _ ⟨ev, hold, hkind, rfl⟩
      unfold Eligible at helig ⊢
      show (if done = true ∧ 0 < t.window then t.window + 1 else t.window) = -1
        ∨ _ < (if done = true ∧ 0 < t.window then t.window + 1 else t.window)
      split
      · omega
      · exact helig
    · cases List.mem_singleton.mp hnew
      cases hkind
  · exact fun t ht => ht

/-- A start in the log has started its request. -/
theorem started_of_mem (h : Event.mk .start d i op ∈ s.log) : s.Started i := ⟨_, h, rfl, rfl⟩

/-- A complete request has performed something. -/
theorem Inv.started_of_complete (h : s.Inv) (hseq : s.Sequential)
    (hcomplete : (c.kind i).Complete (s.config i)) : s.Started i := by
  have hsome : ∀ k ∈ Kind.all, ∀ ops ∈ k.outcomes, ∃ e, ops e ≠ [] := by decide
  obtain ⟨e, he⟩ := hsome _ (c.kind i).mem_all _ (Kind.performed_mem_outcomes (h.locals i) hcomplete)
  change ((c.request i).physDiskList[(e : ℕ)]?.map (s.performedOn i)).getD [] ≠ [] at he
  cases hlist : (c.request i).physDiskList[(e : ℕ)]? with
  | none =>
    rw [hlist] at he
    exact absurd rfl he
  | some d =>
    rw [hlist] at he
    obtain ⟨op, hop⟩ := List.exists_mem_of_ne_nil _ he
    exact started_of_mem (hseq.start_mem hop)

/-- Started requests are in flight or complete, and all of them lie below the window. -/
theorem windowed_card_inFlight_le (h : (windowed c).Reachable s) (hwindow : c.window ≠ -1) :
    ((Finset.univ.filter s.InFlight).card : ℤ) ≤ c.window := by
  have hinv := disks_inv h
  -- a started request is in flight or complete
  have hsum : (Finset.univ.filter s.InFlight).card
        + (Finset.univ.filter fun i => (c.kind i).Complete (s.config i)).card
      = (Finset.univ.filter s.Started).card := by
    rw [← Finset.card_union_of_disjoint]
    · congr 1
      ext i
      simp only [Finset.mem_union, Finset.mem_filter, Finset.mem_univ, true_and]
      constructor
      · rintro (hi | hi)
        · exact hi.1
        · exact hinv.started_of_complete (disks_sequential h) hi
      · intro hi
        by_cases hcomplete : (c.kind i).Complete (s.config i)
        · exact .inr hcomplete
        · exact .inl ⟨hi, hcomplete⟩
    · apply Finset.disjoint_filter.mpr
      exact fun i _ hflight hcomplete => hflight.2 hcomplete
  have hmoved := hinv.window
  rw [if_neg hwindow, hinv.logical, completed_eq_card] at hmoved
  have hvalid := c.window_valid
  -- and whatever has started is below the window
  have hbound : ((Finset.univ.filter s.Started).card : ℤ) ≤ s.window := by
    have hcard : (Finset.univ.filter s.Started).card ≤ (Finset.range s.window.toNat).card := by
      apply Finset.card_le_card_of_injOn Fin.val
      · intro i hi
        have helig := windowed_eligible h (Finset.mem_filter.mp hi).2
        unfold Eligible at helig
        rw [Finset.coe_range, Set.mem_Iio]
        omega
      · exact Fin.val_injective.injOn
    rw [Finset.card_range] at hcard
    omega
  omega

/-- **The window bounds the requests in flight.** -/
theorem card_inFlight_le (h : (untimed c).Reachable s) (hwindow : c.window ≠ -1) :
    ((Finset.univ.filter s.InFlight).card : ℤ) ≤ c.window :=
  windowed_card_inFlight_le (untimed_windowed h) hwindow

/-- Where the window is, and what it bounds. -/
structure Windowed (s : Core c) : Prop where
  window : s.window = c.window + s.logicalRequests
  logical : s.logicalRequests = (Finset.univ.filter fun i => (c.kind i).Complete (s.config i)).card
  started : ∀ i, s.Started i → (i : ℤ) < s.window
  outstanding : ((Finset.univ.filter s.InFlight).card : ℤ) ≤ c.window

end Core

/-- **The window moves with the complete requests and bounds the outstanding ones**, whichever disk picks or
finishes next, and in every tick of the animation. -/
theorem window_bounds_outstanding (c : Config) (h : 1 ≤ c.window) :
    (∀ s, (windowed c).Reachable s → s.Windowed) ∧ ∀ n s, run c n = some s → s.core.Windowed := by
  have hall : ∀ s, (windowed c).Reachable s → s.Windowed := by
    intro s hs
    have hinv := Core.disks_inv hs
    have hwindow := hinv.window
    rw [if_neg (by omega)] at hwindow
    refine ⟨hwindow, hinv.logical.trans Core.completed_eq_card, fun i hi => ?_,
      Core.windowed_card_inFlight_le hs (by omega)⟩
    rcases Core.windowed_eligible hs hi with hone | hlt
    · omega
    · exact hlt
  refine ⟨hall, fun n s hrun => hall s.core ?_⟩
  exact Core.untimed_windowed (reached_of_run hrun).reachable

/-- The shared row is within its window after forty ticks. -/
theorem window_bounds_outstanding_sharedRow :
    ∃ s, run sharedRow 40 = some s ∧ s.core.Windowed := by
  obtain ⟨s, hrun, -⟩ := run_reached (c := sharedRow) (Config.exact_of_ne_raid4 (by decide)) 40
  exact ⟨s, hrun, (window_bounds_outstanding sharedRow (by decide)).2 40 s hrun⟩

end Cs537.Graphics
