import Cs537.Lib.RingBuffer
import Cs537.ProducerConsumer.Moves

/-!
# The invariants of the producer/consumer program

Beside mutual exclusion: which threads exist, what the guards of the two `while` loops promise, how far
the producer is, what the ring buffer holds, and what each consumer has taken.
-/

namespace Cs537.ProducerConsumer

variable {p : Params} {s s' : State p} {t u : Tid p} {q : Point}

/-! ## Created threads -/

/-- A thread is at its start exactly as long as `main` has not created it. -/
def State.CreatedInv (s : State p) : Prop := ∀ t, s.pc t = .start ↔ ¬ s.main.Created t

namespace State.CreatedInv

/-- A move to another point keeps who has been created. -/
theorem goto (h : s.CreatedInv) (hpc : s.pc t ≠ .start) (hq : q ≠ .start) :
    (s.goto t q).CreatedInv := by
  intro u
  rw [goto_pc, goto_main, ← h u]
  split
  · rename_i hut
    rw [hut]
    exact ⟨fun heq => absurd heq hq, fun heq => absurd heq hpc⟩
  · exact Iff.rfl

/-- `main` creates the thread `t`. -/
theorem create {k : MainPoint} (h : s.CreatedInv) (ht : k.Created t)
    (hother : ∀ u, u ≠ t → (k.Created u ↔ s.main.Created u)) :
    ({ s with main := k }.goto t .loopTest).CreatedInv := by
  intro u
  rw [goto_pc, goto_main]
  split
  · rename_i hut
    rw [hut]
    exact ⟨fun heq => (nomatch heq), fun hnot => absurd ht hnot⟩
  · rename_i hut
    exact (h u).trans (not_congr (hother u hut)).symm

/-- One move keeps who has been created. -/
theorem moved (h : s.CreatedInv) (hmoved : Moved s s') : s'.CreatedInv := by
  cases hmoved with
  | createProducer hmain =>
    refine create h trivial fun u hu => ?_
    rw [hmain]
    cases u with
    | producer => exact absurd rfl hu
    | consumer i => exact ⟨fun hlt => absurd hlt (Nat.not_lt_zero _), False.elim⟩
  | createConsumer i hmain =>
    -- consumers are created in order, so that the next one is the only change
    refine create h (Nat.lt_succ_self i) fun u hu => ?_
    rw [hmain]
    cases u with
    | producer => exact Iff.rfl
    | consumer j =>
      have hne : (j : ℕ) ≠ i := fun heq => hu (by rw [Fin.ext heq])
      show (j : ℕ) < i + 1 ↔ (j : ℕ) < i
      omega
  | main k hcreated => exact fun t => (h t).trans (not_congr (hcreated t)).symm
  | producerMarkers => exact h
  | producerIterate hpc | producerReturn hpc | consumerIterate _ hpc | consumerReturn _ hpc
  | block _ hpc | pass _ hpc | signalNone _ hpc | spurious _ hpc =>
    exact goto h (by rw [hpc]; decide) (by decide)
  | acquire t hpc => exact goto (s := { s with m := _ }) h (by rcases hpc with h | h <;> simp [h]) (by decide)
  | wait t hpc => exact goto (s := { s with m := _ }) h (by simp [hpc]) (by decide)
  | fill hpc => exact goto (s := { s with toShared := _, fills := _ }) h (by simp [hpc]) (by decide)
  | get i hpc =>
    exact goto (s := { s with toShared := _, tmp := _, gets := _ }) h (by simp [hpc]) (by decide)
  | signalWake t u hpc hwaiter =>
    refine goto (goto h (by rw [hwaiter.2]; decide) (by decide)) ?_ (by decide)
    rw [goto_pc_ne _ _ (hwaiter.ne hpc), hpc]
    decide
  | producerUnlock hpc => exact goto (s := { s with m := _, i := _ }) h (by simp [hpc]) (by decide)
  | consumerUnlock i hpc => exact goto (s := { s with m := _ }) h (by simp [hpc]) (by decide)

end State.CreatedInv

/-! ## Guards -/

/-- Behind its `while` test a thread knows what the test found. -/
def State.Guards (s : State p) : Prop :=
  ∀ t, (s.pc t = .wait → s.blocked t) ∧ (s.pc t = .body → ¬ s.blocked t)

namespace State.Guards

/-- A move keeps the guards when it goes by the test. -/
theorem goto (h : s.Guards) (hwait : q = .wait → s.blocked t) (hbody : q = .body → ¬ s.blocked t) :
    (s.goto t q).Guards := by
  intro u
  rw [goto_pc]
  split
  · rename_i hut
    rw [hut]
    exact ⟨hwait, hbody⟩
  · exact h u

/-- While `t` holds the mutex no other thread stands behind its test, whatever `t` does to the
buffer. -/
theorem body (hmutex : s.Mutex) (hpc : s.pc t = .body) : (s.body t).Guards := by
  intro u
  by_cases hut : u = t
  · subst hut
    rw [body_pc_self]
    exact ⟨fun heq => (nomatch heq), fun heq => (nomatch heq)⟩
  · rw [body_pc_ne _ hut]
    have hnot : ¬ (s.pc u).critical := fun hu => hut (hmutex.eq hu (by rw [hpc]; rfl))
    exact ⟨fun heq => absurd (by rw [heq]; rfl) hnot, fun heq => absurd (by rw [heq]; rfl) hnot⟩

/-- One move keeps the guards. -/
theorem moved (h : s.Guards) (hmutex : s.Mutex) (hmoved : Moved s s') : s'.Guards := by
  cases hmoved with
  | main | producerMarkers => exact h
  | createProducer | createConsumer => exact goto (s := { s with main := _ }) h (nomatch ·) (nomatch ·)
  | acquire t => exact goto (s := { s with m := _ }) h (nomatch ·) (nomatch ·)
  | block t hpc hblocked => exact goto h (fun _ => hblocked) (nomatch ·)
  | pass t hpc hblocked => exact goto h (nomatch ·) (fun _ => hblocked)
  | wait t | consumerUnlock => exact goto (s := { s with m := _ }) h (nomatch ·) (nomatch ·)
  | producerUnlock => exact goto (s := { s with m := _, i := _ }) h (nomatch ·) (nomatch ·)
  | fill hpc => exact body hmutex hpc
  | get i hpc => exact body hmutex hpc
  | signalWake => exact goto (goto h (nomatch ·) (nomatch ·)) (nomatch ·) (nomatch ·)
  | producerIterate | producerReturn | consumerIterate | consumerReturn | signalNone | spurious =>
    exact goto h (nomatch ·) (nomatch ·)

end State.Guards

/-! ## The producer -/

/-- The rounds of a thread's loop: between them, before and behind the access to the buffer, and over. -/
inductive Stage
  | outside
  | entering
  | leaving
  | returned
  deriving DecidableEq

def Point.stage : Point → Stage
  | .start | .loopTest => .outside
  | .lock | .waitTest | .wait | .asleep | .relock | .body => .entering
  | .signal | .unlock => .leaving
  | .returned => .returned

/-- What goes through the buffer: the items, and one end marker for each consumer. -/
def stream (p : Params) : List ℤ :=
  (List.range p.loops).map Nat.cast ++ List.replicate p.consumers (-1)

/-- The rounds that the producer has finished, over both loops. -/
def State.rounds (s : State p) : ℕ :=
  match s.phase with
  | .items => s.i
  | .markers => p.loops + s.i

/-- The values that the producer has put into the buffer. -/
def State.filled (s : State p) : ℕ :=
  s.rounds + if (s.pc .producer).stage = .leaving then 1 else 0

/-- The producer has put a prefix of the stream into the buffer. -/
structure State.Producer (s : State p) : Prop where
  fills_eq : s.fills = (stream p).take s.filled
  i_le : s.i ≤ bound p s.phase
  i_lt : (s.pc .producer).stage = .entering ∨ (s.pc .producer).stage = .leaving → s.i < bound p s.phase
  done : (s.pc .producer).stage = .returned → s.phase = .markers ∧ s.i = p.consumers

/-- The stream has all values and a marker for each consumer. -/
theorem stream_length : (stream p).length = p.loops + p.consumers := by
  simp [stream]

/-- In each round the producer puts the next value of the stream. -/
theorem stream_rounds (h : s.i < bound p s.phase) : (stream p)[s.rounds]? = some s.value := by
  unfold stream State.rounds State.value
  cases hphase : s.phase with
  | items =>
    rw [hphase] at h
    change s.i < p.loops at h
    rw [List.getElem?_append_left (by simpa using h)]
    simp [h]
  | markers =>
    rw [hphase] at h
    change s.i < p.consumers at h
    rw [List.getElem?_append_right (by simp)]
    simp [h]

namespace State.Producer

/-- The invariant only looks at the producer. -/
theorem congr (h : s.Producer) (hstage : (s'.pc .producer).stage = (s.pc .producer).stage)
    (hphase : s'.phase = s.phase) (hi : s'.i = s.i) (hfills : s'.fills = s.fills) : s'.Producer where
  fills_eq := by
    rw [hfills, h.fills_eq]
    unfold filled rounds
    rw [hstage, hphase, hi]
  i_le := by
    rw [hi, hphase]
    exact h.i_le
  i_lt := by
    rw [hstage, hi, hphase]
    exact h.i_lt
  done := by
    rw [hstage, hi, hphase]
    exact h.done

/-- A move inside a stage keeps what the producer has put. -/
theorem goto (h : s.Producer) (hstage : q.stage = (s.pc t).stage) : (s.goto t q).Producer := by
  refine h.congr ?_ rfl rfl rfl
  rw [goto_pc]
  split
  · rename_i ht
    rw [ht, hstage]
  · rfl

/-- A step of a consumer. -/
theorem other (h : s.Producer) (ht : .producer ≠ t) : (s.goto t q).Producer :=
  h.congr (by rw [goto_pc_ne _ _ ht]) rfl rfl rfl

/-- `do_fill` puts the next value of the stream. -/
theorem fill (h : s.Producer) (hpc : s.pc .producer = .body) : (s.body .producer).Producer := by
  have hstage : ((s.body .producer).pc .producer).stage = .leaving := by
    rw [body_pc_self]
    rfl
  have hlt : s.i < bound p s.phase := h.i_lt (.inl (by rw [hpc]; rfl))
  have hfilled : s.filled = s.rounds := by
    unfold State.filled
    rw [hpc]
    rfl
  have hfilled' : (s.body .producer).filled = s.rounds + 1 := by
    unfold State.filled
    rw [hstage]
    rfl
  refine ⟨?_, h.i_le, fun _ => hlt, fun heq => ?_⟩
  · show s.fills ++ [s.value] = _
    rw [hfilled', List.take_add_one, stream_rounds hlt, h.fills_eq, hfilled]
    rfl
  · rw [hstage] at heq
    cases heq

/-- The end of a round. -/
theorem unlock (h : s.Producer) (hpc : s.pc .producer = .unlock) : (s.unlock .producer).Producer := by
  have hstage : ((s.unlock .producer).pc .producer).stage = .outside := by
    rw [unlock_pc_self]
    rfl
  have hlt : s.i < bound p s.phase := h.i_lt (.inr (by rw [hpc]; rfl))
  have hfilled : s.filled = s.rounds + 1 := by
    unfold State.filled
    rw [hpc]
    rfl
  have hfilled' : (s.unlock .producer).filled = s.rounds + 1 := by
    unfold State.filled
    rw [hstage]
    unfold State.rounds State.unlock
    rw [goto_phase]
    cases s.phase <;> rfl
  refine ⟨?_, hlt, fun heq => ?_, fun heq => ?_⟩
  · show s.fills = _
    rw [hfilled', h.fills_eq, hfilled]
  · rw [hstage] at heq
    rcases heq with heq | heq <;> cases heq
  · rw [hstage] at heq
    cases heq

/-- The outcome of the test at the head of the producer's loops. -/
theorem leaveTest (h : s.Producer) (hpc : s.pc .producer = .loopTest)
    (hlt : q.stage = .entering → s.i < bound p s.phase)
    (hdone : q.stage = .returned → s.phase = .markers ∧ s.i = p.consumers)
    (hq : q.stage ≠ .leaving) : (s.goto .producer q).Producer where
  fills_eq := by
    have hfilled : (s.goto .producer q).filled = s.filled := by
      unfold State.filled
      rw [goto_pc_self, if_neg hq, hpc]
      rfl
    rw [goto_fills, h.fills_eq, hfilled]
  i_le := h.i_le
  i_lt := by
    rw [goto_pc_self]
    rintro (heq | heq)
    · exact hlt heq
    · exact absurd heq hq
  done := by
    rw [goto_pc_self]
    exact hdone

/-- The step from the items to the markers. -/
theorem markers (h : s.Producer) (hpc : s.pc .producer = .loopTest) (hphase : s.phase = .items)
    (hi : p.loops ≤ s.i) : State.Producer { s with phase := .markers, i := 0 } := by
  have hle := h.i_le
  rw [hphase] at hle
  change s.i ≤ p.loops at hle
  refine ⟨?_, Nat.zero_le _, ?_, ?_⟩
  · show s.fills = (stream p).take (p.loops + 0 + if (s.pc .producer).stage = .leaving then 1 else 0)
    rw [h.fills_eq]
    unfold State.filled State.rounds
    rw [hphase, hpc]
    congr 1
    show s.i + 0 = p.loops + 0 + 0
    omega
  · show (s.pc .producer).stage = .entering ∨ (s.pc .producer).stage = .leaving → _
    rw [hpc]
    rintro (heq | heq) <;> cases heq
  · show (s.pc .producer).stage = .returned → _
    rw [hpc]
    intro heq
    cases heq

/-- One move keeps what the producer has put. -/
theorem moved (h : s.Producer) (hcreated : s.CreatedInv) (hmoved : Moved s s') : s'.Producer := by
  cases hmoved with
  | main => exact h.congr rfl rfl rfl rfl
  | createProducer hmain =>
    have hpc := (hcreated .producer).mpr (by rw [hmain]; exact id)
    exact goto (s := { s with main := _ }) (h.congr rfl rfl rfl rfl) (by rw [hpc]; rfl)
  | createConsumer => exact other (s := { s with main := _ }) (h.congr rfl rfl rfl rfl) nofun
  | producerIterate hpc hi => exact h.leaveTest hpc (fun _ => hi) nofun nofun
  | producerMarkers hpc hphase hi => exact h.markers hpc hphase hi
  | producerReturn hpc hphase hi =>
    -- the loop over the markers has ended, so that all of them are put
    have hle := h.i_le
    rw [hphase] at hle
    exact h.leaveTest hpc nofun (fun _ => ⟨hphase, Nat.le_antisymm hle hi⟩) nofun
  | consumerIterate | consumerReturn => exact h.other nofun
  | acquire t hpc =>
    refine goto (s := { s with m := _ }) (h.congr rfl rfl rfl rfl) ?_
    rcases hpc with hpc | hpc <;> simp only [hpc] <;> rfl
  | block t hpc | pass t hpc | signalNone t hpc | spurious t hpc => exact h.goto (by rw [hpc]; rfl)
  | wait t hpc =>
    exact goto (s := { s with m := _ }) (h.congr rfl rfl rfl rfl) (by simp only [hpc]; rfl)
  | fill hpc => exact h.fill hpc
  | get i hpc =>
    exact other (s := { s with toShared := _, tmp := _, gets := _ }) (h.congr rfl rfl rfl rfl) nofun
  | signalWake t u hpc hwaiter =>
    refine (h.goto (by rw [hwaiter.2]; rfl)).goto ?_
    rw [goto_pc_ne _ _ (hwaiter.ne hpc), hpc]
    rfl
  | producerUnlock hpc => exact h.unlock hpc
  | consumerUnlock i hpc => exact other (s := { s with m := _ }) (h.congr rfl rfl rfl rfl) nofun

end State.Producer

/-! ## The buffer -/

/-- The ring buffer holds the queue `vs`: the values filled and not yet fetched, in order. -/
structure State.Holds (s : State p) (vs : List ℤ) : Prop where
  ring : Ring.Represents p.max s.buffer s.usePtr s.fillPtr vs
  numFull_eq : s.numFull = vs.length
  fills_eq : s.fills = s.gets.map Prod.snd ++ vs

namespace State.Holds

variable {vs : List ℤ}

/-- What the buffer holds depends on the shared part and the histories. -/
theorem congr (h : s.Holds vs) (hshared : s'.toShared = s.toShared) (hfills : s'.fills = s.fills)
    (hgets : s'.gets = s.gets) : s'.Holds vs := by
  refine ⟨?_, ?_, ?_⟩
  · rw [hshared]
    exact h.ring
  · rw [hshared]
    exact h.numFull_eq
  · rw [hfills, hgets]
    exact h.fills_eq

/-- `do_fill` appends to the queue. -/
theorem fill (h : s.Holds vs) (hguard : ¬ s.blocked .producer) :
    (s.body .producer).Holds (vs ++ [s.value]) := by
  have hfree : vs.length < p.max := by
    have hne : s.numFull ≠ p.max := hguard
    have hle := h.ring.length_le
    rw [h.numFull_eq] at hne
    omega
  refine ⟨h.ring.push hfree s.value, ?_, ?_⟩
  · show s.numFull + 1 = _
    rw [h.numFull_eq, List.length_append]
    rfl
  · show s.fills ++ [s.value] = s.gets.map Prod.snd ++ (vs ++ [s.value])
    rw [h.fills_eq, List.append_assoc]

/-- A consumer behind its guard finds a value. -/
theorem exists_cons {i : Fin p.consumers} (h : s.Holds vs) (hguard : ¬ s.blocked (.consumer i)) :
    ∃ v vs', vs = v :: vs' := by
  have hne : s.numFull ≠ 0 := hguard
  rw [h.numFull_eq] at hne
  apply List.exists_cons_of_ne_nil
  rintro rfl
  exact hne rfl

/-- `do_get` removes the first value of the queue. -/
theorem get {v : ℤ} (h : s.Holds (v :: vs)) (i : Fin p.consumers) :
    (s.body (.consumer i)).Holds vs ∧ (s.body (.consumer i)).gets = s.gets ++ [(i, v)] := by
  have hgets : (s.body (.consumer i)).gets = s.gets ++ [(i, v)] := by
    show s.gets ++ [(i, s.buffer s.usePtr)] = _
    rw [h.ring.head_eq]
  refine ⟨⟨h.ring.pop, ?_, ?_⟩, hgets⟩
  · show s.numFull - 1 = _
    rw [h.numFull_eq, List.length_cons]
    omega
  · rw [hgets]
    show s.fills = _
    rw [h.fills_eq, List.map_append, List.append_assoc]
    rfl

end State.Holds

/-- One move leaves a buffer that holds some queue. -/
theorem holds_moved (h : ∃ vs, s.Holds vs) (hguards : s.Guards) (hmoved : Moved s s') :
    ∃ vs, s'.Holds vs := by
  obtain ⟨vs, h⟩ := h
  cases hmoved with
  | fill hpc => exact ⟨_, h.fill ((hguards _).2 hpc)⟩
  | get i hpc =>
    obtain ⟨v, vs', rfl⟩ := h.exists_cons ((hguards _).2 hpc)
    exact ⟨vs', (h.get i).1⟩
  | _ => exact ⟨vs, h.congr rfl rfl rfl⟩

/-! ## The consumers -/

/-- The values that consumer `i` has taken. -/
def State.taken (s : State p) (i : Fin p.consumers) : List ℤ :=
  (s.gets.filter (fun g => g.1 = i)).map Prod.snd

/-- What a consumer has taken when some consumer takes a value. -/
theorem taken_of_gets {i j : Fin p.consumers} {v : ℤ} (h : s'.gets = s.gets ++ [(j, v)]) :
    s'.taken i = if j = i then s.taken i ++ [v] else s.taken i := by
  unfold State.taken
  rw [h, List.filter_append, List.map_append]
  by_cases hji : j = i
  · simp [hji]
  · simp [hji]

/-- A consumer's `tmp` is the last value it took, and an end marker is the last one it takes. -/
structure State.Consumer (s : State p) (i : Fin p.consumers) : Prop where
  dropLast : -1 ∉ (s.taken i).dropLast
  getLast : (s.taken i).getLastD 0 = s.tmp i
  entering : (s.pc (.consumer i)).stage = .entering → s.tmp i ≠ -1
  returned : (s.pc (.consumer i)).stage = .returned → s.tmp i = -1

namespace State.Consumer

variable {i j : Fin p.consumers}

/-- What a consumer knows depends on its own part. -/
theorem congr (h : s.Consumer i)
    (hstage : (s'.pc (.consumer i)).stage = (s.pc (.consumer i)).stage)
    (htmp : s'.tmp i = s.tmp i) (htaken : s'.taken i = s.taken i) : s'.Consumer i where
  dropLast := by
    rw [htaken]
    exact h.dropLast
  getLast := by
    rw [htaken, htmp]
    exact h.getLast
  entering := by
    rw [hstage, htmp]
    exact h.entering
  returned := by
    rw [hstage, htmp]
    exact h.returned

/-- A move inside a stage keeps what a consumer knows. -/
theorem goto (h : s.Consumer i) (hstage : q.stage = (s.pc t).stage) : (s.goto t q).Consumer i := by
  refine h.congr ?_ rfl rfl
  rw [goto_pc]
  split
  · rename_i ht
    rw [ht, hstage]
  · rfl

/-- A step of another thread. -/
theorem other (h : s.Consumer i) (ht : .consumer i ≠ t) : (s.goto t q).Consumer i :=
  h.congr (by rw [goto_pc_ne _ _ ht]) rfl rfl

/-- A step of a consumer that has what the new point asks for. -/
theorem self (h : s.Consumer i) (hentering : q.stage = .entering → s.tmp j ≠ -1)
    (hreturned : q.stage = .returned → s.tmp j = -1) : (s.goto (.consumer j) q).Consumer i := by
  by_cases hij : i = j
  · subst hij
    refine ⟨h.dropLast, h.getLast, ?_, ?_⟩ <;> rw [goto_pc_self]
    · exact hentering
    · exact hreturned
  · exact h.other (fun heq => hij (Tid.consumer.inj heq))

/-- A consumer that has taken its end marker has `-1` in `tmp`, and no other has. -/
theorem tmp_eq_iff (h : s.Consumer i) : s.tmp i = -1 ↔ -1 ∈ s.taken i := by
  rw [← h.getLast]
  have hdrop := h.dropLast
  rcases List.eq_nil_or_concat (s.taken i) with hnil | ⟨vs, v, hconcat⟩
  · rw [hnil]
    simp
  · rw [hconcat] at hdrop ⊢
    simp only [List.concat_eq_append, List.dropLast_concat] at hdrop
    simp only [List.concat_eq_append, List.getLastD_concat, List.mem_append, hdrop, false_or,
      List.mem_singleton]
    exact eq_comm

/-- Taking a value keeps what the consumers know. -/
theorem get (h : s.Consumer i) (hpc : s.pc (.consumer j) = .body)
    (hj : s.Consumer j) : (s.body (.consumer j)).Consumer i := by
  have hgets : (s.body (.consumer j)).gets = s.gets ++ [(j, s.buffer s.usePtr)] := rfl
  by_cases hij : i = j
  · subst hij
    have htmp : (s.body (.consumer i)).tmp i = s.buffer s.usePtr := Function.update_self ..
    have htaken : (s.body (.consumer i)).taken i = s.taken i ++ [s.buffer s.usePtr] := by
      rw [taken_of_gets hgets, if_pos rfl]
    have hstage : ((s.body (.consumer i)).pc (.consumer i)).stage = .leaving := by
      rw [body_pc_self]
      rfl
    refine ⟨?_, ?_, ?_, ?_⟩
    · rw [htaken, List.dropLast_concat, ← h.tmp_eq_iff]
      exact h.entering (by rw [hpc]; rfl)
    · rw [htaken, htmp, List.getLastD_concat]
    · rw [hstage]
      exact nofun
    · rw [hstage]
      exact nofun
  · refine h.congr ?_ (Function.update_of_ne hij ..) ?_
    · rw [body_pc_ne _ (fun heq => hij (Tid.consumer.inj heq))]
    · rw [taken_of_gets hgets, if_neg (Ne.symm hij)]

/-- One move keeps what the consumers know. -/
theorem moved (h : ∀ i, s.Consumer i) (hcreated : s.CreatedInv) (hmoved : Moved s s')
    (i : Fin p.consumers) : s'.Consumer i := by
  cases hmoved with
  | main => exact (h i).congr rfl rfl rfl
  | createProducer => exact other (s := { s with main := _ }) ((h i).congr rfl rfl rfl) nofun
  | createConsumer j hmain =>
    have hpc := (hcreated (.consumer j)).mpr (by rw [hmain]; exact Nat.lt_irrefl j)
    exact goto (s := { s with main := _ }) ((h i).congr rfl rfl rfl) (by rw [hpc]; rfl)
  | producerIterate | producerReturn => exact (h i).other nofun
  | producerMarkers => exact (h i).congr rfl rfl rfl
  | consumerIterate j hpc htmp => exact (h i).self (fun _ => htmp) nofun
  | consumerReturn j hpc htmp => exact (h i).self nofun (fun _ => htmp)
  | acquire t hpc =>
    refine goto (s := { s with m := _ }) ((h i).congr rfl rfl rfl) ?_
    rcases hpc with hpc | hpc <;> simp only [hpc] <;> rfl
  | block t hpc | pass t hpc | signalNone t hpc | spurious t hpc =>
    exact (h i).goto (by rw [hpc]; rfl)
  | wait t hpc =>
    exact goto (s := { s with m := _ }) ((h i).congr rfl rfl rfl) (by simp only [hpc]; rfl)
  | fill hpc =>
    exact other (s := { s with toShared := _, fills := _ }) ((h i).congr rfl rfl rfl) nofun
  | get j hpc => exact (h i).get hpc (h j)
  | signalWake t u hpc hwaiter =>
    refine ((h i).goto (by rw [hwaiter.2]; rfl)).goto ?_
    rw [goto_pc_ne _ _ (hwaiter.ne hpc), hpc]
    rfl
  | producerUnlock =>
    exact other (s := { s with m := _, i := _ }) ((h i).congr rfl rfl rfl) nofun
  | consumerUnlock j hpc =>
    exact self (s := { s with m := _ }) ((h i).congr rfl rfl rfl) nofun nofun

end State.Consumer

/-! ## All together -/

/-- The invariant of the program. -/
structure State.Inv (s : State p) : Prop where
  created : s.CreatedInv
  mutex : s.Mutex
  guards : s.Guards
  producer : s.Producer
  holds : ∃ vs, s.Holds vs
  consumer : ∀ i, s.Consumer i

/-- The invariant holds at the start. -/
theorem init_inv : (init p).Inv where
  created t := by simp [init, MainPoint.Created]
  mutex t := ⟨nofun, nofun⟩
  guards t := ⟨nofun, nofun⟩
  producer := ⟨rfl, Nat.zero_le _, fun h => (by rcases h with h | h <;> cases h), nofun⟩
  holds := ⟨[], .nil p.max_pos, rfl, rfl⟩
  consumer i := ⟨List.not_mem_nil, rfl, nofun, nofun⟩

/-- **One move keeps the invariant.** -/
theorem State.Inv.moved (h : s.Inv) (hmoved : Moved s s') : s'.Inv where
  created := h.created.moved hmoved
  mutex := h.mutex.moved h.created hmoved
  guards := h.guards.moved h.mutex hmoved
  producer := h.producer.moved h.created hmoved
  holds := holds_moved h.holds h.guards hmoved
  consumer := State.Consumer.moved h.consumer h.created hmoved

/-- The invariant holds in every reachable state. -/
theorem reachable_inv (h : (program p).Reachable s) : s.Inv :=
  reachable_invariant init_inv (fun _ _ hmoved hinv => hinv.moved hmoved) h

end Cs537.ProducerConsumer
