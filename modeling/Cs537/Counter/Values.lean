import Mathlib.Data.Nat.Basic
import Mathlib.Order.Interval.Set.Defs
import Mathlib.Order.Lattice
import Cs537.Counter.Program

/-!
# The values of the counter

An increment during which the other thread stores is all that is left of those stores. So the final counter can be
anything from two to twice the loop count: not less, since a thread that has been round once never loads zero again,
and not more than there are increments.
-/

namespace Cs537.Counter

variable {p : Params} {s s' : State} {t u : Tid} {q : Point} {i : Tid → ℕ} {k n v : ℕ}

theorem goto_pc (s : State) (t u : Tid) (q : Point) : (s.goto t q).pc u = if u = t then q else s.pc u :=
  Function.update_apply ..

@[simp] theorem goto_pc_self (s : State) (t : Tid) (q : Point) : (s.goto t q).pc t = q := Function.update_self ..

theorem goto_pc_ne (s : State) (q : Point) (h : u ≠ t) : (s.goto t q).pc u = s.pc u := Function.update_of_ne h ..

theorem Tid.other_ne (t : Tid) : t.other ≠ t := by cases t <;> decide

theorem Tid.other_other (t : Tid) : t.other.other = t := by cases t <;> rfl

theorem Tid.eq_other_of_ne (h : u ≠ t) : u = t.other := by
  cases t <;> cases u <;> first | rfl | exact absurd rfl h

/-! ## Bounds -/

/-- What every step keeps. -/
structure State.Inv (p : Params) (s : State) : Prop where
  /-- `main` waits for the threads. -/
  joinedP1 : s.main = .joinP2 ∨ s.main = .returned → s.pc .p1 = .returned
  joinedP2 : s.main = .returned → s.pc .p2 = .returned
  i_le : ∀ t, s.i t ≤ p.max.toNat
  i_lt : ∀ t, s.pc t = .load ∨ s.pc t = .store → s.i t < p.max.toNat
  i_eq : ∀ t, s.pc t = .returned → s.i t = p.max.toNat
  /-- There are no more increments than stores. -/
  counter_le : s.counter ≤ s.i .p1 + s.i .p2
  register_le : ∀ t, s.pc t = .store → s.register t ≤ s.i .p1 + s.i .p2
  /-- The counter never goes back to zero. -/
  counter_pos : ∀ t, 0 < s.i t → 0 < s.counter
  register_pos : ∀ t, s.pc t = .store → 0 < s.i t → 0 < s.register t
  /-- Only the first store of a thread can leave one. -/
  two_le : 2 ≤ s.counter ∨ (∀ t, s.i t = 0) ∨ ∃ t, s.i t = 1

namespace State.Inv

/-- At the start no load is outstanding. -/
theorem init : (State.init).Inv p where
  joinedP1 := by simp [State.init]
  joinedP2 := nofun
  i_le _ := Nat.zero_le _
  i_lt _ := by simp [State.init]
  i_eq _ := nofun
  counter_le := Nat.zero_le _
  register_le _ := nofun
  counter_pos _ h := absurd h (Nat.lt_irrefl 0)
  register_pos _ := nofun
  two_le := .inr (.inl fun _ => rfl)

/-- `main` goes on, having joined the threads that it says. -/
theorem main (h : s.Inv p) {k : MainPoint} (h₁ : k = .joinP2 ∨ k = .returned → s.pc .p1 = .returned)
    (h₂ : k = .returned → s.pc .p2 = .returned) : State.Inv p { s with main := k } :=
  ⟨h₁, h₂, h.i_le, h.i_lt, h.i_eq, h.counter_le, h.register_le, h.counter_pos, h.register_pos, h.two_le⟩

/-- A thread that has not returned goes on, and has not stored. -/
theorem goto (h : s.Inv p) (hpc : s.main ≠ .joinP2 ∧ s.main ≠ .returned ∨ s.pc t ≠ .returned)
    (hlt : q = .load ∨ q = .store → s.i t < p.max.toNat) (heq : q = .returned → s.i t = p.max.toNat)
    (hstore : q = .store → s.register t = s.counter) : (s.goto t q).Inv p where
  joinedP1 hmain := by
    have hp1 := h.joinedP1 hmain
    rw [goto_pc_ne]
    · exact hp1
    · rintro rfl
      rcases hpc with ⟨hne, hne'⟩ | hne
      · exact hmain.elim hne hne'
      · exact hne hp1
  joinedP2 hmain := by
    have hp2 := h.joinedP2 hmain
    rw [goto_pc_ne]
    · exact hp2
    · rintro rfl
      rcases hpc with ⟨-, hne⟩ | hne
      · exact hne hmain
      · exact hne hp2
  i_le := h.i_le
  i_lt u hu := by
    rw [goto_pc] at hu
    split at hu
    · rename_i hut
      rw [hut]
      exact hlt hu
    · exact h.i_lt u hu
  i_eq u hu := by
    rw [goto_pc] at hu
    split at hu
    · rename_i hut
      rw [hut]
      exact heq hu
    · exact h.i_eq u hu
  counter_le := h.counter_le
  -- a thread on its way to the store has just loaded the counter
  register_le u hu := by
    rw [goto_pc] at hu
    split at hu
    · rename_i hut
      subst hut
      show s.register u ≤ _
      rw [hstore hu]
      exact h.counter_le
    · exact h.register_le u hu
  counter_pos := h.counter_pos
  register_pos u hu hi := by
    rw [goto_pc] at hu
    split at hu
    · rename_i hut
      subst hut
      show 0 < s.register u
      rw [hstore hu]
      exact h.counter_pos u hi
    · exact h.register_pos u hu hi
  two_le := h.two_le

/-- The counter is loaded into the register of a thread that is not about to store. -/
theorem register (h : s.Inv p) (hpc : s.pc t ≠ .store) (n : ℕ) :
    State.Inv p { s with register := Function.update s.register t n } := by
  have hother : ∀ u, s.pc u = .store → Function.update s.register t n u = s.register u := by
    intro u hu
    refine Function.update_of_ne ?_ ..
    rintro rfl
    exact hpc hu
  refine ⟨h.joinedP1, h.joinedP2, h.i_le, h.i_lt, h.i_eq, h.counter_le, fun u hu => ?_, h.counter_pos,
    fun u hu hi => ?_, h.two_le⟩
  · show Function.update s.register t n u ≤ _
    rw [hother u hu]
    exact h.register_le u hu
  · show 0 < Function.update s.register t n u
    rw [hother u hu]
    exact h.register_pos u hu hi

/-- A load remembers a value that the counter has just had. -/
theorem load (h : s.Inv p) (hpc : s.pc t = .load) :
    ({ s with register := Function.update s.register t s.counter }.goto t .store).Inv p := by
  have hne : s.pc t ≠ .store := by
    rw [hpc]
    decide
  refine (h.register hne s.counter).goto (.inr ?_) (fun _ => h.i_lt t (.inl hpc)) nofun fun _ => ?_
  · show s.pc t ≠ .returned
    rw [hpc]
    decide
  · exact Function.update_self ..

/-- What a thread stores. -/
theorem two_le_register (h : s.Inv p) (hpc : s.pc t = .store) :
    2 ≤ s.register t + 1 ∨ Function.update s.i t (s.i t + 1) t = 1 := by
  rw [Function.update_self]
  rcases Nat.eq_zero_or_pos (s.i t) with hzero | hpos
  · exact .inr (by rw [hzero])
  · exact .inl (Nat.succ_le_succ (h.register_pos t hpc hpos))

/-- A store writes one more than the value that was loaded: the bounds of the other thread allow for what is lost. -/
theorem store (h : s.Inv p) (hpc : s.pc t = .store) :
    ({ s with counter := s.register t + 1, i := Function.update s.i t (s.i t + 1) }.goto t .loopTest).Inv p := by
  have hle : ∀ u, s.i u ≤ Function.update s.i t (s.i t + 1) u := by
    intro u
    rw [Function.update_apply]
    split
    · rename_i hut
      rw [hut]
      exact Nat.le_succ _
    · exact Nat.le_refl _
  have hsum : Function.update s.i t (s.i t + 1) .p1 + Function.update s.i t (s.i t + 1) .p2
      = s.i .p1 + s.i .p2 + 1 := by
    cases t
    · rw [Function.update_self, Function.update_of_ne (by decide), Nat.add_right_comm]
    · rw [Function.update_self, Function.update_of_ne (by decide), Nat.add_assoc]
  have hbefore : (s.goto t .loopTest).Inv p := by
    refine h.goto (.inr ?_) nofun nofun nofun
    rw [hpc]
    decide
  -- away from the loop test, a thread is the other one, whose turns are not touched
  have hother : ∀ u, (s.goto t .loopTest).pc u ≠ .loopTest → Function.update s.i t (s.i t + 1) u = s.i u := by
    intro u hu
    refine Function.update_of_ne ?_ ..
    rintro rfl
    exact hu (goto_pc_self ..)
  refine ⟨hbefore.joinedP1, hbefore.joinedP2, fun u => ?_, fun u hu => ?_, fun u hu => ?_, ?_, fun u hu => ?_,
    fun _ _ => Nat.succ_pos _, fun u hu hi => ?_, ?_⟩
  · show Function.update s.i t (s.i t + 1) u ≤ _
    rw [Function.update_apply]
    split
    · exact h.i_lt t (.inr hpc)
    · exact h.i_le u
  · show Function.update s.i t (s.i t + 1) u < _
    rw [hother u (by rcases hu with hu | hu <;> (intro heq; cases hu.symm.trans heq))]
    exact hbefore.i_lt u hu
  · show Function.update s.i t (s.i t + 1) u = _
    rw [hother u (by intro heq; cases hu.symm.trans heq)]
    exact hbefore.i_eq u hu
  · -- what was loaded was at most the number of turns, and there is one more turn now
    show s.register t + 1 ≤ Function.update s.i t (s.i t + 1) .p1 + Function.update s.i t (s.i t + 1) .p2
    rw [hsum]
    exact Nat.succ_le_succ (h.register_le t hpc)
  · show s.register u ≤ Function.update s.i t (s.i t + 1) .p1 + Function.update s.i t (s.i t + 1) .p2
    exact Nat.le_trans (hbefore.register_le u hu) (Nat.add_le_add (hle .p1) (hle .p2))
  · change 0 < Function.update s.i t (s.i t + 1) u at hi
    rw [hother u (by intro heq; cases hu.symm.trans heq)] at hi
    exact hbefore.register_pos u hu hi
  · -- only the first store of a thread can leave a one
    rcases h.two_le_register hpc with htwo | hone
    · exact .inl htwo
    · exact .inr (.inr ⟨t, hone⟩)

/-- **A step of a thread.** -/
theorem threadStep (h : s.Inv p) (hstep : s.threadStep p.max t = some s') : s'.Inv p := by
  unfold State.threadStep at hstep
  cases hpc : s.pc t <;> rw [hpc] at hstep
  case start => cases hstep
  case loopTest =>
    cases hstep
    have hne : s.pc t ≠ .returned := by
      rw [hpc]
      decide
    have hle := h.i_le t
    split
    · exact h.goto (.inr hne) (fun _ => by omega) nofun nofun
    · exact h.goto (.inr hne) nofun (fun _ => by omega) nofun
  case load =>
    cases hstep
    exact h.load hpc
  case store =>
    cases hstep
    exact h.store hpc
  case returned => cases hstep

/-- **A step of `main`.** -/
theorem mainStep (h : s.Inv p) (hstep : s.mainStep = some s') : s'.Inv p := by
  unfold State.mainStep at hstep
  split at hstep
  case h_1 =>
    cases hstep
    exact (h.main (k := .createP2) nofun nofun).goto (.inl ⟨nofun, nofun⟩) nofun nofun nofun
  case h_2 =>
    cases hstep
    exact (h.main (k := .joinP1) nofun nofun).goto (.inl ⟨nofun, nofun⟩) nofun nofun nofun
  case h_3 =>
    split at hstep
    · rename_i hpc
      cases hstep
      exact h.main (fun _ => hpc) nofun
    · cases hstep
  case h_4 hmain =>
    split at hstep
    · rename_i hpc
      cases hstep
      exact h.main (fun _ => h.joinedP1 (.inl hmain)) fun _ => hpc
    · cases hstep
  case h_5 => cases hstep

end State.Inv

/-- Every interleaving keeps the bounds. -/
theorem reachable_inv (h : (program p).Reachable s) : s.Inv p := by
  refine h.invariant State.Inv.init fun a s s' hstep hs => ?_
  cases a with
  | main => exact hs.mainStep hstep
  | thread t => exact hs.threadStep hstep

/-- The values that `main` can print. -/
theorem State.Inv.counter_mem (h : s.Inv p) (hmain : s.main = .returned) :
    min p.max.toNat 2 ≤ s.counter ∧ s.counter ≤ 2 * p.max.toNat := by
  have h₁ := h.i_eq .p1 (h.joinedP1 (.inr hmain))
  have h₂ := h.i_eq .p2 (h.joinedP2 hmain)
  have hle := h.counter_le
  have hpos := h.counter_pos .p1
  refine ⟨?_, by omega⟩
  rcases h.two_le with htwo | hzero | ⟨t, ht⟩
  · omega
  · have hzero := hzero .p1
    omega
  · cases t <;> omega

/-! ## Schedules -/

/-- From `s` to `s'`, a thread goes round `k` times and the other one does nothing. -/
structure Rounds (t : Tid) (k : ℕ) (s s' : State) : Prop where
  pc_self : s'.pc t = .loopTest
  i_self : s'.i t = s.i t + k
  counter : s'.counter = s.counter + k
  pc_other : ∀ u, u ≠ t → s'.pc u = s.pc u
  i_other : ∀ u, u ≠ t → s'.i u = s.i u
  register_other : ∀ u, u ≠ t → s'.register u = s.register u
  main : s'.main = s.main

/-- A thread that has turns left goes on to its load. -/
theorem step_loopTest (hpc : s.pc t = .loopTest) (hi : s.i t < p.max.toNat) :
    (program p).step (.thread t) s = some (s.goto t .load) := by
  show s.threadStep p.max t = _
  unfold State.threadStep
  rw [hpc]
  show some (s.goto t (if (s.i t : ℤ) < p.max then .load else .returned)) = _
  rw [if_pos (by omega)]

/-- A load is always possible. -/
theorem step_load (hpc : s.pc t = .load) : (program p).step (.thread t) s
    = some ({ s with register := Function.update s.register t s.counter }.goto t .store) := by
  show s.threadStep p.max t = _
  unfold State.threadStep
  rw [hpc]

/-- A store is always possible. -/
theorem step_store (hpc : s.pc t = .store) : (program p).step (.thread t) s
    = some ({ s with counter := s.register t + 1, i := Function.update s.i t (s.i t + 1) }.goto t .loopTest) := by
  show s.threadStep p.max t = _
  unfold State.threadStep
  rw [hpc]

/-- A thread loads the counter. -/
theorem exists_loaded (h : (program p).Reachable s) (hpc : s.pc t = .loopTest) (hi : s.i t < p.max.toNat) :
    ∃ s', (program p).Reachable s' ∧ s'.pc t = .store ∧ s'.register t = s.counter ∧ s'.counter = s.counter
      ∧ s'.i = s.i ∧ s'.main = s.main ∧ ∀ u, u ≠ t → s'.pc u = s.pc u ∧ s'.register u = s.register u := by
  refine ⟨_, (h.step (step_loopTest hpc hi)).step (step_load (goto_pc_self ..)), goto_pc_self .., ?_, rfl, rfl, rfl,
    fun u hu => ⟨?_, ?_⟩⟩
  · exact Function.update_self ..
  · rw [goto_pc_ne _ _ hu]
    exact goto_pc_ne s _ hu
  · exact Function.update_of_ne hu ..

/-- A thread stores what it has loaded, plus one. -/
theorem exists_stored (h : (program p).Reachable s) (hpc : s.pc t = .store) :
    ∃ s', (program p).Reachable s' ∧ s'.pc t = .loopTest ∧ s'.counter = s.register t + 1 ∧ s'.i t = s.i t + 1
      ∧ s'.main = s.main ∧ ∀ u, u ≠ t → s'.pc u = s.pc u ∧ s'.i u = s.i u ∧ s'.register u = s.register u := by
  refine ⟨_, h.step (step_store hpc), goto_pc_self .., rfl, ?_, rfl, fun u hu => ⟨?_, ?_, rfl⟩⟩
  · exact Function.update_self ..
  · exact goto_pc_ne _ _ hu
  · exact Function.update_of_ne hu ..

/-- A thread can go round, up to its loop count. -/
theorem exists_rounds (h : (program p).Reachable s) (hpc : s.pc t = .loopTest) (hk : s.i t + k ≤ p.max.toNat) :
    ∃ s', (program p).Reachable s' ∧ Rounds t k s s' := by
  induction k with
  | zero => exact ⟨s, h, hpc, rfl, rfl, fun _ _ => rfl, fun _ _ => rfl, fun _ _ => rfl, rfl⟩
  | succ k ih =>
    obtain ⟨s₁, h₁, hrounds⟩ := ih (by omega)
    have hi := hrounds.i_self
    obtain ⟨s₂, h₂, hstore, hregister, hcounter₂, hi₂, hmain₂, hother₂⟩ := exists_loaded h₁ hrounds.pc_self (by omega)
    obtain ⟨s₃, h₃, hloop, hcounter₃, hi₃, hmain₃, hother₃⟩ := exists_stored h₂ hstore
    refine ⟨s₃, h₃, hloop, ?_, ?_, fun u hu => ?_, fun u hu => ?_, fun u hu => ?_, ?_⟩
    · rw [hi₃, hi₂, hi, Nat.add_assoc]
    · rw [hcounter₃, hregister, hrounds.counter, Nat.add_assoc]
    · rw [(hother₃ u hu).1, (hother₂ u hu).1, hrounds.pc_other u hu]
    · rw [(hother₃ u hu).2.1, hi₂, hrounds.i_other u hu]
    · rw [(hother₃ u hu).2.2, (hother₂ u hu).2, hrounds.register_other u hu]
    · rw [hmain₃, hmain₂, hrounds.main]

/-- Both threads can be at their loop tests, a thread having stored `a` times and the other one `b` times, with the
counter at `v`. -/
def Ready (p : Params) (t : Tid) (a b v : ℕ) : Prop :=
  ∃ s, (program p).Reachable s ∧ (∀ u, s.pc u = .loopTest) ∧ s.i t = a ∧ s.i t.other = b ∧ s.counter = v
    ∧ s.main = .joinP1

/-- Before its first turn a thread is ready at its bound. -/
theorem ready_init (p : Params) : Ready p .p1 0 0 0 := by
  refine ⟨_, ⟨[.main, .main], rfl⟩, fun t => ?_, rfl, rfl, rfl, rfl⟩
  cases t
  · exact goto_pc_ne _ _ (by decide)
  · exact goto_pc_self ..

namespace Ready

variable {a b : ℕ}

theorem of_eq {a' b' v' : ℕ} (h : Ready p t a b v) (ha : a = a') (hb : b = b') (hv : v = v') :
    Ready p t a' b' v' := by
  subst ha hb hv
  exact h

theorem symm (h : Ready p t a b v) : Ready p t.other b a v := by
  obtain ⟨s, hs, hpc, ha, hb, hv, hmain⟩ := h
  refine ⟨s, hs, hpc, hb, ?_, hv, hmain⟩
  rw [t.other_other]
  exact ha

/-- **A lost update**: a thread goes round once, and the other one goes round between its load and its store. -/
theorem overlap (h : Ready p t a b v) (k : ℕ) (ha : a < p.max.toNat) (hb : b + k ≤ p.max.toNat) :
    Ready p t (a + 1) (b + k) (v + 1) := by
  obtain ⟨s, hs, hpc, rfl, rfl, rfl, hmain⟩ := h
  obtain ⟨s₁, h₁, hstore, hregister, -, hi₁, hmain₁, hother₁⟩ := exists_loaded hs (hpc t) ha
  have hloop : s₁.pc t.other = .loopTest := (hother₁ _ t.other_ne).1.trans (hpc _)
  obtain ⟨s₂, h₂, hrounds⟩ := exists_rounds (k := k) h₁ hloop (by rwa [hi₁])
  have hstore₂ := (hrounds.pc_other t t.other_ne.symm).trans hstore
  obtain ⟨s₃, h₃, hloop₃, hcounter₃, hi₃, hmain₃, hother₃⟩ := exists_stored h₂ hstore₂
  refine ⟨s₃, h₃, fun u => ?_, ?_, ?_, ?_, ?_⟩
  · by_cases hu : u = t
    · rw [hu, hloop₃]
    · rw [(hother₃ u hu).1, Tid.eq_other_of_ne hu, hrounds.pc_self]
  · rw [hi₃, hrounds.i_other t t.other_ne.symm, hi₁]
  · rw [(hother₃ _ t.other_ne).2.1, hrounds.i_self, hi₁]
  · rw [hcounter₃, hrounds.register_other t t.other_ne.symm, hregister]
  · rw [hmain₃, hrounds.main, hmain₁, hmain]

/-- A thread goes round alone. -/
theorem alone (h : Ready p t a b v) (k : ℕ) (ha : a + k ≤ p.max.toNat) (hb : b ≤ p.max.toNat) :
    Ready p t (a + k) b (v + k) := by
  induction k with
  | zero => exact h
  | succ k ih => exact (ih (by omega)).overlap 0 (by omega) hb

/-- The threads go round together, and half of the increments are lost. -/
theorem together (h : Ready p t a b v) (k : ℕ) (ha : a + k ≤ p.max.toNat) (hb : b + k ≤ p.max.toNat) :
    Ready p t (a + k) (b + k) (v + k) := by
  induction k with
  | zero => exact h
  | succ k ih => exact (ih (by omega) (by omega)).overlap 1 (by omega) (by omega)

/-- `main` joins both threads. -/
theorem reachable_joined (h : (program p).Reachable s) (hmain : s.main = .joinP1) (hpc : ∀ t, s.pc t = .returned) :
    (program p).Reachable { s with main := .returned } := by
  have hfirst : (program p).Reachable { s with main := .joinP2 } := by
    refine h.step (a := .main) ?_
    show s.mainStep = _
    unfold State.mainStep
    rw [hmain]
    exact if_pos (hpc .p1)
  refine hfirst.step (a := .main) ?_
  exact if_pos (hpc .p2)

/-- When both threads have stored as often as they shall, the program ends. -/
theorem exists_end (h : Ready p t p.max.toNat p.max.toNat v) :
    ∃ s, (program p).Reachable s ∧ s.main = .returned ∧ s.counter = v := by
  obtain ⟨s, hs, hpc, ha, hb, rfl, hmain⟩ := h
  have hi : ∀ u, s.i u = p.max.toNat := by
    intro u
    by_cases hu : u = t
    · rw [hu, ha]
    · rw [Tid.eq_other_of_ne hu, hb]
  have hreturn : ∀ (r : State) (u : Tid), r.pc u = .loopTest → r.i = s.i →
      (program p).step (.thread u) r = some (r.goto u .returned) := by
    intro r u hr hir
    show r.threadStep p.max u = _
    unfold State.threadStep
    rw [hr]
    show some (r.goto u (if (r.i u : ℤ) < p.max then .load else .returned)) = _
    rw [hir, hi u, if_neg (by omega)]
  have hp2 : (s.goto .p1 .returned).pc .p2 = .loopTest := (goto_pc_ne _ _ (by decide)).trans (hpc _)
  have hreturned := (hs.step (hreturn s .p1 (hpc _) rfl)).step (hreturn _ .p2 hp2 rfl)
  refine ⟨_, reachable_joined hreturned hmain fun u => ?_, rfl, rfl⟩
  cases u
  · exact (goto_pc_ne _ _ (by decide)).trans (goto_pc_self ..)
  · exact goto_pc_self ..

end Ready

/-- **The range of the race.** The final values of the counter, over all schedules, are all the numbers from two (or
the loop count, where that is less) to twice the loop count. -/
theorem final_counters (p : Params) :
    {v | ∃ s, (program p).Reachable s ∧ s.main = .returned ∧ s.counter = v}
      = Set.Icc (min p.max.toNat 2) (2 * p.max.toNat) := by
  ext v
  constructor
  · rintro ⟨s, hs, hmain, rfl⟩
    exact (reachable_inv hs).counter_mem hmain
  · rintro ⟨hmin, hmax⟩
    apply Ready.exists_end (t := .p2)
    rcases Nat.lt_or_ge v p.max.toNat with hlow | hhigh
    · -- the first load comes before the stores of the other thread, and its last load before those of the first
      have hfirst := (ready_init p).overlap (p.max.toNat - 1) (by omega) (by omega)
      have hsecond := (hfirst.alone (v - 2) (by omega) (by omega)).symm
      have hlast := hsecond.overlap (p.max.toNat - (v - 1)) (by omega) (by omega)
      exact hlast.of_eq (by omega) (by omega) (by omega)
    · -- so many increments are lost as are missing
      have hlost := (ready_init p).together (2 * p.max.toNat - v) (by omega) (by omega)
      have hfirst := (hlost.alone (v - p.max.toNat) (by omega) (by omega)).symm
      have hsecond := hfirst.alone (v - p.max.toNat) (by omega) (by omega)
      exact hsecond.of_eq (by omega) (by omega) (by omega)

end Cs537.Counter
