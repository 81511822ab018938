import Cs537.ProducerConsumer.Markers

/-!
# No lost wakeup

A signal can go to a thread that then finds the buffer changed, and a signal without a waiter is
dropped. What survives is a count: while a consumer sleeps, the values in the buffer are covered by the
consumers that are awake and have not taken their end marker, and by the signal that the producer is about to
send. So the threads never all sleep, and some thread can always go on.
-/

namespace Cs537.ProducerConsumer

variable {p : Params} {s s' : State p} {t u : Tid p} {q : Point}

/-! ## Wakeups -/

/-- The consumers that take a further value without being woken first. -/
def State.active (s : State p) : ℕ :=
  (Finset.univ.filter fun i => s.pc (.consumer i) ≠ .asleep ∧ s.tmp i ≠ -1).card

/-- The signal that the producer is about to send. -/
def State.announced (s : State p) : ℕ := if s.pc .producer = .signal then 1 else 0

/-- The producer sleeps only while the buffer is full or a consumer is about to signal. -/
def State.ProducerWakeup (s : State p) : Prop :=
  s.pc .producer = .asleep → s.numFull = p.max ∨ ∃ i, s.pc (.consumer i) = .signal

/-- While a consumer sleeps, the values in the buffer are covered by active consumers and the signal under
way. -/
def State.ConsumerWakeup (s : State p) : Prop :=
  ∀ i, s.pc (.consumer i) = .asleep → s.numFull ≤ s.active + s.announced

namespace State.ProducerWakeup

/-- A producer that is awake needs no wakeup. -/
theorem of_awake (h : s.pc .producer ≠ .asleep) : s.ProducerWakeup := fun heq => absurd heq h

/-- The invariant looks at the producer's point, at `num_full` and at the consumers about to signal. -/
theorem goto (h : s.ProducerWakeup)
    (hsleep : t = .producer → q = .asleep → s.numFull = p.max)
    (hsignal : s.pc t = .signal → t = .producer) : (s.goto t q).ProducerWakeup := by
  intro heq
  rw [goto_pc] at heq
  split at heq
  · rename_i ht
    exact .inl (hsleep ht.symm heq)
  · rename_i ht
    refine (h heq).imp_right fun ⟨i, hi⟩ => ⟨i, ?_⟩
    rw [goto_pc_ne _ _ ?_, hi]
    rintro rfl
    exact ht (hsignal hi).symm

/-- Where a consumer signals, nobody sleeps on `empty` afterwards. -/
theorem signalNone (hnone : ∀ u, ¬ s.Waiter t u) :
    (s.goto t .unlock).ProducerWakeup := by
  cases t with
  | producer => exact of_awake (by rw [goto_pc_self]; decide)
  | consumer i =>
    refine of_awake ?_
    rw [goto_pc_ne _ _ (Tid.producer_ne_consumer i)]
    exact fun heq => hnone .producer ⟨rfl, heq⟩

/-- A signal wakes the producer up. -/
theorem signalWake (hwaiter : s.Waiter t u) :
    ((s.goto u .relock).goto t .unlock).ProducerWakeup := by
  refine of_awake ?_
  cases t with
  | producer =>
    rw [goto_pc_self]
    decide
  | consumer i =>
    cases u with
    | producer =>
      rw [goto_pc_ne _ _ (Tid.producer_ne_consumer i), goto_pc_self]
      decide
    | consumer j => cases hwaiter.1

/-- **One move keeps the wakeup of the producer.** -/
theorem moved (h : s.ProducerWakeup) (hinv : s.Inv) (hmoved : Moved s s') : s'.ProducerWakeup := by
  cases hmoved with
  | main | producerMarkers => exact h
  -- wherever the producer is awake, nothing is to be shown
  | createProducer => exact of_awake (by rw [goto_pc_self]; decide)
  | createConsumer i hmain =>
    have hpc := (hinv.created (.consumer i)).mpr (by rw [hmain]; exact Nat.lt_irrefl i)
    exact goto (s := { s with main := _ }) h nofun (fun heq => by cases hpc.symm.trans heq)
  | producerIterate | producerReturn => exact of_awake (by rw [goto_pc_self]; decide)
  | fill => exact of_awake (by rw [body_pc_self]; decide)
  | producerUnlock => exact of_awake (by rw [unlock_pc_self]; decide)
  | consumerIterate i hpc | consumerReturn i hpc =>
    exact goto h nofun (fun heq => by cases hpc.symm.trans heq)
  | acquire t hpc =>
    exact goto (s := { s with m := _ }) h nofun
      (fun heq => by rcases hpc with hpc | hpc <;> cases hpc.symm.trans heq)
  | block t hpc | pass t hpc | spurious t hpc =>
    exact goto h nofun (fun heq => by cases hpc.symm.trans heq)
  | wait t hpc =>
    -- the producer goes to sleep only before a full buffer
    refine goto (s := { s with m := _ }) h ?_ (fun heq => by cases hpc.symm.trans heq)
    rintro rfl -
    exact (hinv.guards _).1 hpc
  -- a slot is free again, and a consumer is about to signal it
  | get i hpc => exact fun _ => .inr ⟨i, body_pc_self ..⟩
  | signalNone t hpc hnone => exact signalNone hnone
  | signalWake t u hpc hwaiter => exact signalWake hwaiter
  | consumerUnlock i hpc =>
    exact goto (s := { s with m := _ }) h nofun (fun heq => by cases hpc.symm.trans heq)

end State.ProducerWakeup

namespace State.ConsumerWakeup

/-- Waking or moving a thread does not make an active consumer passive. -/
theorem active_le_goto (hq : q = .asleep → t = .producer) :
    s.active ≤ (s.goto t q).active := by
  apply Finset.card_filter_mono
  rintro i ⟨hpc, htmp⟩
  refine ⟨?_, htmp⟩
  rw [goto_pc]
  split
  · rename_i hit
    intro hasleep
    cases hit.trans (hq hasleep)
  · exact hpc

/-- Steps that leave the buffer alone. -/
theorem goto (h : s.ConsumerWakeup) (hq : q = .asleep → t = .producer)
    (hsignal : t = .producer → s.pc .producer ≠ .signal) : (s.goto t q).ConsumerWakeup := by
  intro i hi
  have hasleep : s.pc (.consumer i) = .asleep := by
    rw [goto_pc] at hi
    split at hi
    · rename_i hit
      cases hit.trans (hq hi)
    · exact hi
  have hannounced : s.announced ≤ (s.goto t q).announced := by
    unfold State.announced
    rw [goto_pc]
    by_cases ht : Tid.producer = t
    · rw [if_neg (hsignal ht.symm)]
      exact Nat.zero_le _
    · rw [if_neg ht]
  have hactive := active_le_goto (s := s) hq
  have hfull := h i hasleep
  show s.numFull ≤ _
  omega

/-- A consumer only goes to sleep on an empty buffer. -/
theorem of_empty (h : s.numFull = 0) : s.ConsumerWakeup := by
  intro i _
  rw [h]
  exact Int.natCast_nonneg _

/-- The value just filled is covered by the signal to come. -/
theorem fill (h : s.ConsumerWakeup) (hpc : s.pc .producer = .body) :
    (s.body .producer).ConsumerWakeup := by
  intro i hi
  rw [body_pc_ne _ (Tid.producer_ne_consumer i).symm] at hi
  have hfull := h i hi
  have hactive : (s.body .producer).active = s.active := by
    unfold State.active
    simp only [body_pc_ne _ (Tid.producer_ne_consumer _).symm]
    rfl
  have hannounced : s.announced = 0 := by
    unfold State.announced
    rw [hpc]
    rfl
  have hannounced' : (s.body .producer).announced = 1 := by
    unfold State.announced
    rw [body_pc_self]
    rfl
  show s.numFull + 1 ≤ _
  omega

/-- The consumer that takes a value may be through with it, and is then no longer active. -/
theorem get {j : Fin p.consumers} (h : s.ConsumerWakeup) : (s.body (.consumer j)).ConsumerWakeup := by
  intro i hi
  have hij : i ≠ j := by
    rintro rfl
    rw [body_pc_self] at hi
    cases hi
  have hne : ∀ k, k ≠ j → Tid.consumer k ≠ Tid.consumer j := fun k hk heq =>
    hk (Tid.consumer.inj heq)
  rw [body_pc_ne _ (hne i hij)] at hi
  have hfull := h i hi
  have hactive : s.active ≤ (s.body (.consumer j)).active + 1 := by
    refine Finset.card_filter_le_add_one j fun k hk => ?_
    rintro ⟨hpc, htmp⟩
    refine ⟨?_, ?_⟩
    · rw [body_pc_ne _ (hne k hk)]
      exact hpc
    · show Function.update s.tmp j _ k ≠ -1
      rw [Function.update_of_ne hk]
      exact htmp
  have hannounced : (s.body (.consumer j)).announced = s.announced := by
    unfold State.announced
    rw [body_pc_ne _ (Tid.producer_ne_consumer j)]
  show s.numFull - 1 ≤ _
  omega

/-- The producer's signal: either nobody waits for it or the woken consumer becomes active. -/
theorem signalWake (h : s.ConsumerWakeup) (hpc : s.pc t = .signal) (hwaiter : s.Waiter t u)
    (htmp : ∀ i, u = .consumer i → s.tmp i ≠ -1) :
    ((s.goto u .relock).goto t .unlock).ConsumerWakeup := by
  cases t with
  | consumer j =>
    refine State.ConsumerWakeup.goto (h.goto nofun ?_) nofun nofun
    rintro rfl
    rw [hwaiter.2]
    decide
  | producer =>
    cases u with
    | producer => cases hwaiter.1
    | consumer j =>
      intro i hi
      rw [goto_pc_ne _ _ (Tid.producer_ne_consumer i).symm, goto_pc] at hi
      split at hi
      · cases hi
      · have hfull := h i hi
        have hannounced : s.announced = 1 := by
          unfold State.announced
          rw [hpc]
          rfl
        -- the woken consumer is active and was not before
        have hactive : s.active < ((s.goto (.consumer j) .relock).goto .producer .unlock).active := by
          refine lt_of_lt_of_le (Finset.card_filter_lt (i := j) ?_ ?_ ?_) (active_le_goto nofun)
          · rintro k ⟨hk, htmp⟩
            refine ⟨?_, htmp⟩
            rw [goto_pc]
            split
            · decide
            · exact hk
          · exact fun hawake => hawake.1 hwaiter.2
          · exact ⟨by rw [goto_pc_self]; decide, htmp j rfl⟩
        show s.numFull ≤ _
        omega

/-- A signal of the producer without a waiter: no consumer sleeps. -/
theorem signalNone (h : s.ConsumerWakeup) (hpc : s.pc t = .signal) (hnone : ∀ u, ¬ s.Waiter t u) :
    (s.goto t .unlock).ConsumerWakeup := by
  cases t with
  | consumer j => exact h.goto nofun nofun
  | producer =>
    intro i hi
    rw [goto_pc_ne _ _ (Tid.producer_ne_consumer i).symm] at hi
    exact absurd ⟨rfl, hi⟩ (hnone (.consumer i))

/-- **One move keeps the wakeup of the consumers.** -/
theorem moved (h : s.ConsumerWakeup) (hinv : s.Inv) (hmoved : Moved s s') : s'.ConsumerWakeup := by
  cases hmoved with
  | main | producerMarkers => exact h
  | createProducer hmain =>
    have hpc := (hinv.created .producer).mpr (by rw [hmain]; exact id)
    exact goto (s := { s with main := _ }) h nofun (fun _ heq => by cases hpc.symm.trans heq)
  | createConsumer => exact goto (s := { s with main := _ }) h nofun nofun
  | producerIterate hpc | producerReturn hpc =>
    exact h.goto nofun (fun _ heq => by cases hpc.symm.trans heq)
  | consumerIterate | consumerReturn => exact h.goto nofun nofun
  | acquire t hpc =>
    refine goto (s := { s with m := _ }) h nofun ?_
    rintro rfl heq
    rcases hpc with hpc | hpc <;> cases hpc.symm.trans heq
  | block t hpc | pass t hpc | spurious t hpc =>
    refine h.goto nofun ?_
    rintro rfl heq
    cases hpc.symm.trans heq
  | wait t hpc =>
    cases t with
    | producer =>
      exact goto (s := { s with m := _ }) h (fun _ => rfl) (fun _ heq => by cases hpc.symm.trans heq)
    -- a consumer goes to sleep only before an empty buffer
    | consumer i => exact of_empty ((hinv.guards _).1 hpc)
  | fill hpc => exact h.fill hpc
  | get i hpc => exact h.get
  | signalNone t hpc hnone => exact h.signalNone hpc hnone
  | signalWake t u hpc hwaiter =>
    refine h.signalWake hpc hwaiter ?_
    rintro i rfl
    exact (hinv.consumer i).entering (by rw [hwaiter.2]; rfl)
  | producerUnlock hpc =>
    exact goto (s := { s with m := _, i := _ }) h nofun (fun _ heq => by cases hpc.symm.trans heq)
  | consumerUnlock i hpc => exact goto (s := { s with m := _ }) h nofun nofun

end State.ConsumerWakeup

/-- The invariants of the program with those about wakeups. -/
structure State.WakeupInv (s : State p) : Prop where
  inv : s.Inv
  producer : s.ProducerWakeup
  consumer : s.ConsumerWakeup

/-- Both hold in every reachable state. -/
theorem reachable_wakeupInv (h : (program p).Reachable s) : s.WakeupInv :=
  reachable_invariant ⟨init_inv, nofun, nofun⟩
    (fun _ _ hmoved hinv => ⟨hinv.inv.moved hmoved, hinv.producer.moved hinv.inv hmoved,
      hinv.consumer.moved hinv.inv hmoved⟩) h

/-! ## Progress -/

/-- A consumer that has returned is through. -/
theorem State.Inv.tmp_of_returned (h : s.Inv) {i : Fin p.consumers} (hpc : s.pc (.consumer i) = .returned) :
    s.tmp i = -1 :=
  (h.consumer i).returned (by rw [hpc]; rfl)

section

variable (hdone : ∀ t, s.pc t = .returned ∨ s.pc t = .asleep)
include hdone

/-- Where nobody is awake, nobody covers a value, so a sleeping consumer sleeps on an empty buffer. -/
theorem State.WakeupInv.numFull_of_asleep (h : s.WakeupInv) {i : Fin p.consumers}
    (hpc : s.pc (.consumer i) = .asleep) : s.numFull ≤ 0 := by
  have hactive : s.active = 0 := by
    unfold State.active
    rw [Finset.card_eq_zero, Finset.filter_eq_empty_iff]
    rintro k - ⟨hawake, htmp⟩
    exact htmp (h.inv.tmp_of_returned ((hdone _).resolve_right hawake))
  have hannounced : s.announced = 0 := by
    unfold State.announced
    rw [if_neg]
    intro heq
    rcases hdone .producer with hpc | hpc <;> cases hpc.symm.trans heq
  have hempty := h.consumer i hpc
  rw [hactive, hannounced] at hempty
  omega

/-- Where everybody has returned or sleeps, no consumer sleeps. -/
theorem State.WakeupInv.consumer_ne_asleep (h : s.WakeupInv) (i : Fin p.consumers) :
    s.pc (.consumer i) ≠ .asleep := by
  intro hi
  have hempty := h.numFull_of_asleep hdone hi
  obtain ⟨vs, hvs⟩ := h.inv.holds
  rw [hvs.numFull_eq] at hempty
  have hnil : vs = [] := List.length_eq_zero_iff.mp (by omega)
  rcases hdone .producer with hpc | hpc
  · -- the producer is through, so the consumer's end marker has been fetched
    have hcount := h.inv.count_gets
    have hfills := hvs.fills_eq
    rw [hnil, List.append_nil, h.inv.fills_of_returned hpc] at hfills
    have hlt := State.through_lt ((h.inv.consumer i).entering (by rw [hi]; rfl))
    have hstream := count_take_stream (p := p) (p.loops + p.consumers)
    rw [List.take_of_length_le (Nat.le_of_eq stream_length), hfills, hcount] at hstream
    omega
  · -- the producer sleeps on a full buffer
    have hmax := p.max_pos
    rcases h.producer hpc with hfull | ⟨k, hk⟩
    · rw [hvs.numFull_eq, hnil, List.length_nil] at hfull
      omega
    · rcases hdone (.consumer k) with hpc' | hpc' <;> cases hpc'.symm.trans hk

end

/-- Once all consumers are through, the producer has nothing left to put. -/
theorem State.Inv.producer_ne_asleep (h : s.Inv) (hreturned : ∀ i, s.pc (.consumer i) = .returned) :
    s.pc .producer ≠ .asleep := by
  intro hpc
  have hle := h.le_filled fun i => h.tmp_of_returned (hreturned i)
  have hlt := h.producer.i_lt (.inl (by rw [hpc]; rfl))
  have hfilled : s.filled = s.rounds := by
    unfold State.filled
    rw [hpc]
    rfl
  rw [hfilled] at hle
  unfold State.rounds at hle
  have hpos := p.consumers_pos
  cases hphase : s.phase <;> rw [hphase] at hlt hle <;> simp only [bound] at hlt hle <;> omega

/-- The threads that have not returned do not all sleep. -/
theorem State.WakeupInv.exists_awake (h : s.WakeupInv) (hlive : ∃ t, s.pc t ≠ .returned) :
    ∃ t, s.pc t ≠ .returned ∧ s.pc t ≠ .asleep := by
  by_contra hall
  have hdone : ∀ t, s.pc t = .returned ∨ s.pc t = .asleep := by
    intro t
    by_contra hnot
    exact hall ⟨t, fun heq => hnot (.inl heq), fun heq => hnot (.inr heq)⟩
  have hreturned : ∀ i, s.pc (.consumer i) = .returned := fun i =>
    (hdone _).resolve_right (h.consumer_ne_asleep hdone i)
  obtain ⟨t, ht⟩ := hlive
  cases t with
  | producer => exact ht ((hdone _).resolve_right (h.inv.producer_ne_asleep hreturned))
  | consumer i => exact ht (hreturned i)

/-- An action that is no spurious wakeup. -/
def Action.IsRegular : Action p → Prop
  | .spurious _ => False
  | _ => True

/-- A thread that neither sleeps nor waits for the mutex can go on. -/
theorem exists_threadStep (hstart : s.pc t ≠ .start) (hasleep : s.pc t ≠ .asleep)
    (hreturned : s.pc t ≠ .returned) (hm : s.pc t = .lock ∨ s.pc t = .relock → s.m = none) :
    ∃ wake s', s.threadStep t wake = some s' := by
  unfold State.threadStep
  cases hpc : s.pc t with
  | start => exact absurd hpc hstart
  | asleep => exact absurd hpc hasleep
  | returned => exact absurd hpc hreturned
  | loopTest | waitTest | wait | body | unlock => exact ⟨none, _, rfl⟩
  | lock => exact ⟨none, _, if_pos (hm (.inl hpc))⟩
  | relock => exact ⟨none, _, if_pos (hm (.inr hpc))⟩
  | signal =>
    by_cases hwaiter : ∃ u, s.Waiter t u
    · obtain ⟨u, hu⟩ := hwaiter
      exact ⟨some u, _, if_pos hu⟩
    · exact ⟨none, _, if_neg hwaiter⟩

/-- `main` can go on as long as a thread is still to be created, and once every thread has returned. -/
theorem exists_mainStep (hinv : s.Inv) (hmain : s.main ≠ .returned)
    (h : (∃ t, s.pc t = .start) ∨ ∀ t, s.pc t = .returned) : ∃ s', s.mainStep = some s' := by
  have hjoin : (∀ t : Tid p, s.main.Created t) → ∀ t, s.pc t = .returned := by
    intro hcreated
    rcases h with ⟨t, ht⟩ | h
    · exact absurd (hcreated t) ((hinv.created t).mp ht)
    · exact h
  unfold State.mainStep
  cases heq : s.main with
  | createProducer => exact ⟨_, rfl⟩
  | createConsumer k =>
    by_cases hk : k < p.consumers
    · exact ⟨_, dif_pos hk⟩
    · exact ⟨_, dif_neg hk⟩
  | joinProducer =>
    have hreturned := hjoin (by rw [heq]; exact fun _ => trivial)
    exact ⟨_, if_pos (hreturned _)⟩
  | joinConsumer k =>
    have hreturned := hjoin (by rw [heq]; exact fun _ => trivial)
    by_cases hk : k < p.consumers
    · exact ⟨_, (dif_pos hk).trans (if_pos (hreturned _))⟩
    · exact ⟨_, dif_neg hk⟩
  | returned => exact absurd heq hmain

/-- Some thread in the middle of its code can go on: the one that owns the mutex, or any other awake one
when the mutex is free. -/
theorem State.Inv.exists_threadStep_of_awake (hinv : s.Inv) (hstart : s.pc t ≠ .start)
    (hasleep : s.pc t ≠ .asleep) (hreturned : s.pc t ≠ .returned) :
    ∃ u wake s', s.threadStep u wake = some s' := by
  by_cases hm : s.m = none
  · exact ⟨t, exists_threadStep hstart hasleep hreturned fun _ => hm⟩
  · obtain ⟨u, hu⟩ := Option.ne_none_iff_exists'.mp hm
    have hcritical : (s.pc u).critical := (hinv.mutex u).mp hu
    have hne : ∀ q : Point, q.critical = false → s.pc u ≠ q := by
      rintro q hq rfl
      exact Bool.false_ne_true (hq.symm.trans hcritical)
    refine ⟨u, exists_threadStep (hne _ rfl) (hne _ rfl) (hne _ rfl) ?_⟩
    rintro (heq | heq)
    · exact absurd heq (hne _ rfl)
    · exact absurd heq (hne _ rfl)

/-- **No deadlock**: as long as `main` or some thread has not returned, a step other than a spurious
wakeup is possible, and the threads that have not returned do not all sleep. -/
theorem no_deadlock (h : (program p).Reachable s) :
    ((s.main ≠ .returned ∨ ∃ t, s.pc t ≠ .returned) →
        ∃ a s', a.IsRegular ∧ (program p).step a s = some s')
      ∧ ((∃ t, s.pc t ≠ .returned) → ∃ t, s.pc t ≠ .returned ∧ s.pc t ≠ .asleep) := by
  have hwake := reachable_wakeupInv h
  have hmainStep : s.main ≠ .returned → ((∃ t, s.pc t = .start) ∨ ∀ t, s.pc t = .returned) →
      ∃ a s', a.IsRegular ∧ (program p).step a s = some s' := by
    intro hmain hcase
    obtain ⟨s', hs'⟩ := exists_mainStep hwake.inv hmain hcase
    exact ⟨.main, s', trivial, hs'⟩
  refine ⟨fun hlive => ?_, hwake.exists_awake⟩
  by_cases hall : ∀ t, s.pc t = .returned
  · refine hmainStep (hlive.resolve_right ?_) (.inr hall)
    rintro ⟨t, ht⟩
    exact ht (hall t)
  · obtain ⟨t, hreturned, hasleep⟩ := hwake.exists_awake (not_forall.mp hall)
    by_cases hstart : s.pc t = .start
    · refine hmainStep (fun heq => ?_) (.inl ⟨t, hstart⟩)
      have hnot := (hwake.inv.created t).mp hstart
      rw [heq] at hnot
      exact hnot trivial
    · obtain ⟨u, wake, s', hs'⟩ := hwake.inv.exists_threadStep_of_awake hstart hasleep hreturned
      exact ⟨.thread u wake, s', trivial, hs'⟩

/-- A run that puts a consumer to sleep before the producer has filled anything. -/
def sleepyRun : List (Action .single) :=
  [.main, .main, .thread (.consumer 0) none, .thread (.consumer 0) none,
    .thread (.consumer 0) none, .thread (.consumer 0) none]

/-- A consumer sleeps, and the program goes on. -/
theorem no_deadlock_sleepyRun :
    ∃ s, (program ⟨1, 1, 1, le_rfl, le_rfl⟩).run sleepyRun (init _) = some s ∧ s.pc (.consumer 0) = .asleep
      ∧ ∃ t, s.pc t ≠ .returned ∧ s.pc t ≠ .asleep := by
  refine ⟨_, rfl, by decide, ?_⟩
  exact (no_deadlock ⟨sleepyRun, rfl⟩).2 ⟨.producer, by decide⟩

end Cs537.ProducerConsumer
