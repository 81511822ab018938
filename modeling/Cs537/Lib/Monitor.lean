import Mathlib.Logic.Basic

/-!
# Mutual exclusion

The invariant of a lock: its owner is exactly the thread in a critical section. The three rules cover
what a step can do to it: leave it alone, take the free lock, give the lock back.
-/

namespace Monitor

variable {T : Type*}

/-- The owner of the lock is exactly the thread in a critical section. -/
def Exclusive (owner : Option T) (critical : T → Prop) : Prop :=
  ∀ t, owner = some t ↔ critical t

namespace Exclusive

variable {owner : Option T} {critical critical' : T → Prop} {t u : T}

/-- Two threads are never in a critical section at the same time. -/
theorem eq (h : Exclusive owner critical) (ht : critical t) (hu : critical u) : t = u := by
  have hboth := ((h t).mpr ht).symm.trans ((h u).mpr hu)
  exact Option.some.inj hboth

/-- Nobody is in a critical section while the lock is free. -/
theorem not_critical (h : Exclusive none critical) (t : T) : ¬ critical t := by
  intro ht
  cases (h t).mpr ht

/-- Mutual exclusion depends on who is inside. -/
theorem congr (h : Exclusive owner critical) (hiff : ∀ u, critical' u ↔ critical u) :
    Exclusive owner critical' :=
  fun u => (h u).trans (hiff u).symm

/-- Taking the free lock. -/
theorem acquire (h : Exclusive none critical) (ht : critical' t)
    (hother : ∀ u, u ≠ t → (critical' u ↔ critical u)) : Exclusive (some t) critical' := by
  intro u
  by_cases hut : u = t
  · subst hut
    exact ⟨fun _ => ht, fun _ => rfl⟩
  · have hnot : ¬ critical' u := fun hu => h.not_critical u ((hother u hut).mp hu)
    exact ⟨fun heq => absurd (Option.some.inj heq).symm hut, fun hu => absurd hu hnot⟩

/-- Giving the lock back. -/
theorem release (h : Exclusive owner critical) (ht : critical t) (hleft : ¬ critical' t)
    (hother : ∀ u, u ≠ t → (critical' u ↔ critical u)) : Exclusive none critical' := by
  intro u
  have hnot : ¬ critical' u := by
    intro hu
    by_cases hut : u = t
    · exact hleft (hut ▸ hu)
    · exact hut (h.eq ((hother u hut).mp hu) ht)
  exact ⟨fun heq => absurd heq.symm (Option.some_ne_none u), fun hu => absurd hu hnot⟩

end Exclusive

end Monitor
