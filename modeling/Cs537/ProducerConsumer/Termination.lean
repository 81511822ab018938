import Mathlib.Data.Fintype.Option
import Cs537.ProducerConsumer.Delivery
import Cs537.ProducerConsumer.Progress

/-!
# Termination

Every step but a spurious wakeup uses up some potential. A round of a thread, from its loop test to its unlock, takes a
bounded number of steps, and one wakeup is paid by the signal that makes it; a fill and a get pay for the round of
their thread. So there is no need for fairness: however the threads are scheduled, the program stops, unless it is
woken up spuriously over and over.
-/

namespace Cs537.ProducerConsumer

variable {p : Params} {s s' : State p} {t u : Tid p} {q : Point}

/-! ## The potential -/

/-- The steps that a thread has left in its round and the next test of its loop, with the wakeup that its signal makes.
The round behind a `do_fill` or a `do_get` is not counted before it. -/
def Point.rank : Point → ℕ
  | .start | .loopTest => 10
  | .lock | .relock => 9
  | .waitTest => 8
  | .wait => 7
  | .asleep | .body => 6
  | .signal => 15
  | .unlock => 11
  | .returned => 0

/-- The steps that `main` has left. -/
def MainPoint.rank (p : Params) : MainPoint → ℕ
  | .createProducer => 2 * p.consumers + 4
  | .createConsumer i => (p.consumers - i) + p.consumers + 3
  | .joinProducer => p.consumers + 2
  | .joinConsumer i => (p.consumers - i) + 1
  | .returned => 0

def Phase.rank : Phase → ℕ
  | .items => 1
  | .markers => 0

/-- The values that are still to be filled, and those that are still to be fetched. -/
def State.remaining (s : State p) : ℕ :=
  ((stream p).length - s.fills.length) + ((stream p).length - s.gets.length)

def State.ranks (s : State p) : ℕ := ∑ t, (s.pc t).rank

def State.potential (s : State p) : ℕ := s.main.rank p + s.ranks + s.phase.rank + 10 * s.remaining

theorem ranks_goto (s : State p) (t : Tid p) (q : Point) :
    (s.goto t q).ranks + (s.pc t).rank = s.ranks + q.rank := by
  have hsum : (s.goto t q).ranks + (s.pc t).rank = s.ranks + ((s.goto t q).pc t).rank :=
    Finset.sum_add_of_agree t fun u hu => congrArg Point.rank (goto_pc_ne s q hu)
  rw [hsum, goto_pc_self]

/-- A thread goes on, and nothing else changes. -/
theorem potential_goto {r : Point} (hpc : s.pc t = r) (q : Point) :
    (s.goto t q).potential + r.rank = s.potential + q.rank := by
  have hranks := ranks_goto s t q
  rw [hpc] at hranks
  have hsame : (s.goto t q).potential
      = s.main.rank p + (s.goto t q).ranks + s.phase.rank + 10 * s.remaining := rfl
  unfold State.potential at hsame ⊢
  omega

/-- The threads are the producer and the consumers. -/
theorem card_tid (p : Params) : Fintype.card (Tid p) = p.consumers + 1 := by
  have hbij : Function.Bijective fun o : Option (Fin p.consumers) => o.elim (Tid.producer : Tid p) Tid.consumer := by
    constructor
    · intro o o' h
      cases o <;> cases o' <;> cases h <;> rfl
    · intro t
      cases t with
      | producer => exact ⟨none, rfl⟩
      | consumer i => exact ⟨some i, rfl⟩
  rw [← Fintype.card_of_bijective hbij, Fintype.card_option, Fintype.card_fin]

/-! ## Steps -/

/-- No more is put than the stream has. -/
theorem State.Inv.length_fills_le (h : s.Inv) : s.fills.length ≤ (stream p).length := by
  rw [h.producer.fills_eq]
  exact List.length_take_le' ..

/-- No more is taken than the stream has. -/
theorem State.Inv.length_gets_le (h : s.Inv) : s.gets.length ≤ (stream p).length := by
  have hle := h.gets_prefix.length_le
  rwa [List.length_map] at hle

/-- The body leads to the signal. -/
theorem ranks_body (s : State p) (t : Tid p) :
    (s.body t).ranks + (s.pc t).rank = s.ranks + Point.signal.rank := by
  cases t <;> exact ranks_goto _ _ _

/-- A fill and a get take a value from those that remain. -/
theorem remaining_body (h : (s.body t).Inv) : (s.body t).remaining + 1 = s.remaining := by
  have hfills := h.length_fills_le
  have hgets := h.length_gets_le
  unfold State.remaining
  cases t with
  | producer =>
    have hlength : (s.body .producer).fills.length = s.fills.length + 1 := List.length_append
    have hsame : (s.body .producer).gets = s.gets := rfl
    rw [hlength] at hfills
    rw [hlength, hsame]
    omega
  | consumer i =>
    have hlength : (s.body (.consumer i)).gets.length = s.gets.length + 1 := List.length_append
    have hsame : (s.body (.consumer i)).fills = s.fills := rfl
    rw [hlength] at hgets
    rw [hlength, hsame]
    omega

/-- Putting or taking a value pays for itself. -/
theorem potential_body (h : (s.body t).Inv) (hpc : s.pc t = .body) : (s.body t).potential + 1 = s.potential := by
  have hranks := ranks_body s t
  have hremaining := remaining_body h
  have hmain : (s.body t).main = s.main := by cases t <;> rfl
  have hphase : (s.body t).phase = s.phase := by cases t <;> rfl
  rw [hpc] at hranks
  unfold State.potential
  rw [hmain, hphase]
  simp only [Point.rank] at hranks
  omega

/-- The loop test of a thread: another round, the markers, or the end. -/
theorem potential_loopTest (hpc : s.pc t = .loopTest) : (s.loopTest t).potential + 1 ≤ s.potential := by
  have hgoto : ∀ q : Point, q.rank ≤ 9 → (s.goto t q).potential + 1 ≤ s.potential := by
    intro q hq
    have hrank := potential_goto hpc q
    have htest : Point.loopTest.rank = 10 := rfl
    omega
  cases t with
  | producer =>
    unfold State.loopTest
    by_cases hi : s.i < bound p s.phase
    · rw [if_pos hi]
      exact hgoto .lock (by decide)
    · rw [if_neg hi]
      cases hphase : s.phase with
      | items =>
        have hmarkers : State.potential { s with phase := .markers, i := 0 }
          = s.main.rank p + s.ranks + 0 + 10 * s.remaining := rfl
        have hitems : Phase.items.rank = 1 := rfl
        show State.potential { s with phase := .markers, i := 0 } + 1 ≤ s.potential
        rw [hmarkers]
        unfold State.potential
        rw [hphase]
        omega
      | markers => exact hgoto .returned (by decide)
  | consumer i =>
    simp only [State.loopTest]
    split
    · exact hgoto .returned (by decide)
    · exact hgoto .lock (by decide)

/-- Taking the mutex takes one from the potential. -/
theorem potential_acquire (hpc : s.pc t = .lock ∨ s.pc t = .relock) (h : s.acquire t = some s') :
    s'.potential + 1 = s.potential := by
  unfold State.acquire at h
  split at h
  · cases h
    have hsame : State.potential { s with m := some t } = s.potential := rfl
    rcases hpc with hpc | hpc
    all_goals
      have hrank := potential_goto (s := { s with m := some t }) hpc .waitTest
      simp only [Point.rank] at hrank
      omega
  · cases h

/-- A signal pays for the wakeup that it makes. -/
theorem potential_signal {wake : Option (Tid p)} (hpc : s.pc t = .signal) (h : s.signal t wake = some s') :
    s'.potential + 1 ≤ s.potential := by
  cases wake with
  | none =>
    simp only [State.signal] at h
    split at h
    · cases h
    · cases h
      have hrank := potential_goto hpc .unlock
      simp only [Point.rank] at hrank
      omega
  | some u =>
    simp only [State.signal] at h
    split at h
    · rename_i hwaiter
      cases h
      have hwake := potential_goto hwaiter.2 .relock
      have hrank := potential_goto ((goto_pc_ne s .relock (hwaiter.ne hpc)).trans hpc) .unlock
      simp only [Point.rank] at hwake hrank
      omega
    · cases h

/-- Leaving the mutex takes one from the potential. -/
theorem potential_unlock (hpc : s.pc t = .unlock) : (s.unlock t).potential + 1 = s.potential := by
  have hranks : (s.unlock t).ranks + (s.pc t).rank = s.ranks + Point.loopTest.rank := by
    cases t <;> exact ranks_goto _ _ _
  have hmain : (s.unlock t).main = s.main := by cases t <;> rfl
  have hphase : (s.unlock t).phase = s.phase := by cases t <;> rfl
  have hremaining : (s.unlock t).remaining = s.remaining := by cases t <;> rfl
  rw [hpc] at hranks
  unfold State.potential
  rw [hmain, hphase, hremaining]
  simp only [Point.rank] at hranks
  omega

/-- **A step of a thread.** -/
theorem potential_threadStep {wake : Option (Tid p)} (hinv : s'.Inv) (h : s.threadStep t wake = some s') :
    s'.potential + 1 ≤ s.potential := by
  unfold State.threadStep at h
  cases hpc : s.pc t <;> rw [hpc] at h
  case start => cases h
  case loopTest =>
    cases h
    exact potential_loopTest hpc
  case lock => exact (potential_acquire (.inl hpc) h).le
  case waitTest =>
    -- both ways out of the test have a lower rank
    cases h
    split
    · have hrank := potential_goto hpc .wait
      simp only [Point.rank] at hrank
      omega
    · have hrank := potential_goto hpc .body
      simp only [Point.rank] at hrank
      omega
  case wait =>
    cases h
    have hrank := potential_goto (s := { s with m := none }) hpc .asleep
    have hsame : State.potential { s with m := none } = s.potential := rfl
    simp only [Point.rank] at hrank
    omega
  case asleep => cases h
  case relock => exact (potential_acquire (.inr hpc) h).le
  case body =>
    cases h
    exact (potential_body hinv hpc).le
  case signal => exact potential_signal hpc h
  case unlock =>
    cases h
    exact (potential_unlock hpc).le
  case returned => cases h

/-- `main` goes on, and creates a thread or does not. -/
theorem potential_main (k : MainPoint) (h : k.rank p + 1 = s.main.rank p) :
    State.potential { s with main := k } + 1 = s.potential := by
  have hsame : State.potential { s with main := k } = k.rank p + s.ranks + s.phase.rank + 10 * s.remaining := rfl
  rw [hsame]
  unfold State.potential
  omega

/-- Creating a thread takes one from the potential. -/
theorem potential_create (k : MainPoint) (h : k.rank p + 1 = s.main.rank p) (hpc : s.pc t = .start) :
    ({ s with main := k }.goto t .loopTest).potential + 1 = s.potential := by
  have hmain := potential_main k h
  have hrank := potential_goto (s := { s with main := k }) hpc .loopTest
  simp only [Point.rank] at hrank
  omega

/-- **A step of `main`.** -/
theorem potential_mainStep (hinv : s.Inv) (h : s.mainStep = some s') : s'.potential + 1 ≤ s.potential := by
  unfold State.mainStep at h
  split at h
  case h_1 hmain =>
    -- a thread that `main` creates has its rank from the start
    cases h
    refine (potential_create _ ?_ ((hinv.created .producer).mpr ?_)).le
    · rw [hmain]
      simp only [MainPoint.rank]
      omega
    · rw [hmain]
      exact id
  case h_2 k hmain =>
    split at h
    · rename_i hk
      cases h
      refine (potential_create _ ?_ ((hinv.created (.consumer ⟨k, hk⟩)).mpr ?_)).le
      · rw [hmain]
        simp only [MainPoint.rank]
        omega
      · rw [hmain]
        exact Nat.lt_irrefl k
    · cases h
      refine (potential_main _ ?_).le
      rw [hmain]
      simp only [MainPoint.rank]
      omega
  case h_3 hmain =>
    split at h
    · cases h
      refine (potential_main _ ?_).le
      rw [hmain]
      rfl
    · cases h
  case h_4 k hmain =>
    split at h
    · split at h
      · cases h
        refine (potential_main _ ?_).le
        rw [hmain]
        simp only [MainPoint.rank]
        omega
      · cases h
    · cases h
      refine (potential_main _ ?_).le
      rw [hmain]
      simp only [MainPoint.rank]
      omega
  case h_5 => cases h

/-! ## Runs -/

instance : DecidablePred (Action.IsRegular (p := p))
  | .main => inferInstanceAs (Decidable True)
  | .thread _ _ => inferInstanceAs (Decidable True)
  | .spurious _ => inferInstanceAs (Decidable False)

/-- **A regular step takes from the potential.** -/
theorem potential_regular {a : Action p} (hinv : s.Inv) (hstep : (program p).step a s = some s') (ha : a.IsRegular) :
    s'.potential + 1 ≤ s.potential := by
  cases a with
  | main => exact potential_mainStep hinv hstep
  | thread t wake => exact potential_threadStep (hinv.moved (step_moved hstep)) hstep
  | spurious t => exact ha.elim

/-- **A spurious wakeup adds three to it at most.** -/
theorem potential_spurious {a : Action p} (hstep : (program p).step a s = some s') (ha : ¬ a.IsRegular) :
    s'.potential ≤ s.potential + 3 := by
  cases a with
  | main => exact absurd trivial ha
  | thread t wake => exact absurd trivial ha
  | spurious t =>
    change s.spuriousWakeup t = some s' at hstep
    unfold State.spuriousWakeup at hstep
    split at hstep
    · rename_i hpc
      cases hstep
      have hrank := potential_goto hpc .relock
      simp only [Point.rank] at hrank
      omega
    · cases hstep

/-- **The steps of a run** are bounded by the potential it starts from, and by its spurious wakeups. -/
theorem countP_run_le {as : List (Action p)} (hinv : s.Inv) (hrun : (program p).run as s = some s') :
    (as.countP fun a => a.IsRegular) + s'.potential
      ≤ s.potential + 3 * as.countP fun a => ¬ a.IsRegular :=
  (program p).run_potential (I := State.Inv) (fun _ _ _ hstep hs => hs.moved (step_moved hstep))
    (fun _ _ _ hstep hs ha => potential_regular hs hstep ha) (fun _ _ _ hstep _ ha => potential_spurious hstep ha)
    hrun hinv

/-- What there is to spend. -/
theorem potential_init (p : Params) : (init p).potential = 20 * p.loops + 32 * p.consumers + 15 := by
  have hranks : (init p).ranks = 10 * (p.consumers + 1) := by
    unfold State.ranks
    show ∑ _ : Tid p, 10 = _
    rw [Finset.sum_const, Finset.card_univ, card_tid, Nat.nsmul_eq_mul, Nat.mul_comm]
  have hremaining : (init p).remaining = 2 * (p.loops + p.consumers) := by
    unfold State.remaining
    rw [stream_length]
    show (p.loops + p.consumers - 0) + (p.loops + p.consumers - 0) = _
    omega
  unfold State.potential
  rw [hranks, hremaining]
  show 2 * p.consumers + 4 + _ + 1 + _ = _
  omega

/-- Where nothing but a spurious wakeup is possible, everything has returned. -/
theorem returned_of_stuck (h : (program p).Reachable s)
    (hstuck : ∀ a s', a.IsRegular → (program p).step a s ≠ some s') :
    s.main = .returned ∧ ∀ t, s.pc t = .returned := by
  have hprogress := (no_deadlock h).1
  constructor
  · by_contra hmain
    obtain ⟨a, s', ha, hstep⟩ := hprogress (.inl hmain)
    exact hstuck a s' ha hstep
  · by_contra hlive
    obtain ⟨a, s', ha, hstep⟩ := hprogress (.inr (not_forall.mp hlive))
    exact hstuck a s' ha hstep

/-- Every reachable state goes on to the end, without spurious wakeups. -/
theorem exists_run_to_end (h : (program p).Reachable s) :
    ∃ as s', (∀ a ∈ as, a.IsRegular) ∧ (program p).run as s = some s' ∧ s'.main = .returned
      ∧ ∀ t, s'.pc t = .returned := by
  induction hpotential : s.potential using Nat.strong_induction_on generalizing s with
  | _ n ih =>
    by_cases hstuck : ∀ a s', a.IsRegular → (program p).step a s ≠ some s'
    · obtain ⟨hmain, hpc⟩ := returned_of_stuck h hstuck
      exact ⟨[], s, nofun, rfl, hmain, hpc⟩
    · push Not at hstuck
      obtain ⟨a, t, ha, hstep⟩ := hstuck
      have hlt : t.potential < n := hpotential ▸ potential_regular (reachable_inv h) hstep ha
      obtain ⟨as, s', has, hrun, hend⟩ := ih t.potential hlt (h.step hstep) rfl
      refine ⟨a :: as, s', ?_, ?_, hend⟩
      · exact List.forall_mem_cons.mpr ⟨ha, has⟩
      · rw [(program p).run_cons hstep]
        exact hrun

/-- **Termination under every schedule.** The steps of a run are bounded, spurious wakeups and three steps for each of
them apart. A run that cannot go on has joined all threads, with everything delivered, and every run can be completed
without a spurious wakeup. -/
theorem terminates (p : Params) :
    (∀ as s, (program p).run as (init p) = some s →
        (as.countP fun a => a.IsRegular) ≤ 20 * p.loops + 32 * p.consumers + 15 + 3 * as.countP fun a => ¬ a.IsRegular)
      ∧ (∀ s, (program p).Reachable s → (∀ a s', a.IsRegular → (program p).step a s ≠ some s') →
          s.main = .returned ∧ (∀ t, s.pc t = .returned) ∧ s.gets.map Prod.snd = stream p ∧ s.numFull = 0)
      ∧ ∀ s, (program p).Reachable s →
          ∃ as s', (∀ a ∈ as, a.IsRegular) ∧ (program p).run as s = some s' ∧ s'.main = .returned
            ∧ ∀ t, s'.pc t = .returned := by
  refine ⟨fun as s hrun => ?_, fun s hs hstuck => ?_, fun s hs => exists_run_to_end hs⟩
  · have hcount := countP_run_le init_inv hrun
    rw [potential_init] at hcount
    omega
  · obtain ⟨hmain, hpc⟩ := returned_of_stuck hs hstuck
    exact ⟨hmain, hpc, (reachable_inv hs).gets_of_returned hpc⟩

end Cs537.ProducerConsumer
