import Cs537.ProducerConsumer.Markers

/-!
# Exactly-once delivery

The fetched values are a prefix of the stream, a consumer stops at its end marker, and when every thread has
returned each item has gone to one consumer.
-/

namespace Cs537.ProducerConsumer

variable {p : Params} {s s' : State p}

/-! ## The order of the values -/

/-- The values fetched, in the order of the fetches, are a prefix of the stream. -/
theorem State.Inv.gets_prefix (h : s.Inv) : s.gets.map Prod.snd <+: stream p := by
  obtain ⟨vs, hvs⟩ := h.holds
  have hfills : s.gets.map Prod.snd <+: s.fills := ⟨vs, hvs.fills_eq.symm⟩
  rw [h.producer.fills_eq] at hfills
  exact hfills.trans (List.take_prefix _ _)

/-- The stream holds the items in order, and end markers behind them. -/
theorem stream_getElem?_eq {n : ℕ} {v : ℤ} (h : (stream p)[n]? = some v) :
    (n < p.loops ∧ v = n) ∨ (p.loops ≤ n ∧ v = -1) := by
  unfold stream at h
  rcases Nat.lt_or_ge n p.loops with hn | hn
  · rw [List.getElem?_append_left (by simpa using hn), List.getElem?_map,
      List.getElem?_range hn] at h
    exact .inl ⟨hn, (Option.some.inj h).symm⟩
  · rw [List.getElem?_append_right (by simpa using hn)] at h
    exact .inr ⟨hn, List.eq_of_mem_replicate (List.mem_of_getElem? h)⟩

/-- Nothing but end markers comes behind an end marker. -/
theorem eq_marker_of_mem {l₁ l₂ : List ℤ} (h : l₁ ++ -1 :: l₂ <+: stream p) :
    ∀ v ∈ l₂, v = -1 := by
  obtain ⟨rest, hrest⟩ := h
  have hstart : (stream p)[l₁.length]? = some (-1) := by
    rw [← hrest, List.append_assoc, List.getElem?_append_right le_rfl, Nat.sub_self]
    rfl
  have hle : p.loops ≤ l₁.length := by
    rcases stream_getElem?_eq hstart with ⟨-, hv⟩ | ⟨hle, -⟩
    · omega
    · exact hle
  intro v hv
  obtain ⟨k, hk⟩ := List.mem_iff_getElem?.mp hv
  have hlt : k < l₂.length := (List.getElem?_eq_some_iff.mp hk).1
  have hat : (stream p)[l₁.length + (k + 1)]? = some v := by
    rw [← hrest, List.append_assoc, List.getElem?_append_right (Nat.le_add_right _ _),
      Nat.add_sub_cancel_left, List.cons_append, List.getElem?_cons_succ,
      List.getElem?_append_left hlt, hk]
  rcases stream_getElem?_eq hat with ⟨hlt', -⟩ | ⟨-, heq⟩
  · omega
  · exact heq

/-! ## The end of a consumer -/

/-- A consumer that is through takes nothing any more. -/
theorem taken_moved {i : Fin p.consumers} (hinv : s.Inv) (hmoved : Moved s s')
    (hthrough : -1 ∈ s.taken i) : s'.taken i = s.taken i := by
  cases hmoved with
  | get j hpc =>
    refine (taken_of_gets rfl).trans (if_neg ?_)
    rintro rfl
    exact (hinv.consumer j).entering (by rw [hpc]; rfl) ((hinv.consumer j).tmp_eq_iff.mpr hthrough)
  | _ => rfl

/-- A consumer that has returned takes nothing more. -/
theorem taken_run {i : Fin p.consumers} {as : List (Action p)} (hinv : s.Inv)
    (hthrough : -1 ∈ s.taken i) (hrun : (program p).run as s = some s') :
    s'.taken i = s.taken i := by
  refine ((program p).run_invariant (I := fun t => t.Inv ∧ t.taken i = s.taken i) ?_ hrun
    ⟨hinv, rfl⟩).2
  rintro a t t' hstep ⟨ht, htaken⟩
  have hmoved := step_moved hstep
  exact ⟨ht.moved hmoved, (taken_moved ht hmoved (htaken ▸ hthrough)).trans htaken⟩

/-- The loop test lets a consumer return exactly when it has taken its end marker. -/
theorem loopTest_returned_iff {i : Fin p.consumers} (hinv : s.Inv) :
    (s.loopTest (.consumer i)).pc (.consumer i) = .returned ↔ -1 ∈ s.taken i := by
  rw [← (hinv.consumer i).tmp_eq_iff]
  simp only [State.loopTest]
  split
  · rename_i htmp
    simp only [goto_pc_self, htmp]
  · rename_i htmp
    simp only [goto_pc_self, htmp]
    decide

/-! ## The end of the program -/

/-- Each item occurs once in the stream. -/
theorem count_stream {v : ℕ} (h : v < p.loops) : (stream p).count (v : ℤ) = 1 := by
  have hne : (v : ℤ) ≠ -1 := by omega
  unfold stream
  rw [List.count_append, List.count_map_of_injective _ (Nat.cast : ℕ → ℤ) (fun _ _ h => Int.ofNat_inj.mp h) v,
    List.count_eq_one_of_mem List.nodup_range (List.mem_range.mpr h),
    List.count_eq_zero.mpr fun hmem => hne (List.eq_of_mem_replicate hmem)]

/-- Once every thread has returned, the whole stream has been fetched. -/
theorem State.Inv.gets_of_returned (h : s.Inv) (hpc : ∀ t, s.pc t = .returned) :
    s.gets.map Prod.snd = stream p ∧ s.numFull = 0 := by
  obtain ⟨vs, hvs⟩ := h.holds
  have htmp : ∀ i, s.tmp i = -1 := fun i => (h.consumer i).returned (by rw [hpc]; rfl)
  have hfills := hvs.fills_eq
  rw [h.fills_of_returned (hpc .producer)] at hfills
  have hcount : (s.gets.map Prod.snd).count (-1) = p.consumers := by
    rw [h.count_gets, State.through_eq_consumers htmp]
  -- the fetched values hold all end markers, so they reach to the end of the stream
  have htake : s.gets.map Prod.snd = (stream p).take s.gets.length := by
    rw [hfills, List.take_append_of_le_length (by rw [List.length_map]),
      List.take_of_length_le (by rw [List.length_map])]
  rw [htake, count_take_stream] at hcount
  have hpos := p.consumers_pos
  have hlen := congrArg List.length hfills
  rw [stream_length, List.length_append, List.length_map] at hlen
  have hnil : vs = [] := List.length_eq_zero_iff.mp (by omega)
  rw [hnil, List.append_nil] at hfills
  exact ⟨hfills.symm, by rw [hvs.numFull_eq, hnil]; rfl⟩

/-- Once every thread has returned, each item has gone to exactly one consumer, once. -/
theorem State.Inv.item_received (h : s.Inv) (hpc : ∀ t, s.pc t = .returned) {v : ℕ}
    (hv : v < p.loops) :
    ∃ i, (s.taken i).count (v : ℤ) = 1 ∧ ∀ j, j ≠ i → (s.taken j).count (v : ℤ) = 0 := by
  apply Finset.exists_eq_one_of_sum_eq_one
  unfold State.taken
  rw [List.sum_count_filter_key, (h.gets_of_returned hpc).1, count_stream hv]

/-- **Exactly-once delivery**: the fetched values are a prefix of the stream, and only end markers
follow an end marker. A consumer returns exactly when it has taken its end marker, and takes nothing
behind it. Once every thread has returned, the buffer is empty, each item has gone to one consumer, once,
and each consumer has taken one end marker. -/
theorem exactly_once_delivery (h : (program p).Reachable s) :
    s.gets.map Prod.snd <+: stream p
      ∧ (∀ l₁ g l₂, s.gets = l₁ ++ g :: l₂ → g.2 = -1 → ∀ g' ∈ l₂, g'.2 = -1)
      ∧ (∀ i, s.pc (.consumer i) = .returned → ∃ vs, -1 ∉ vs ∧ s.taken i = vs ++ [-1])
      ∧ (∀ i wake s', s.pc (.consumer i) = .loopTest →
          (program p).step (.thread (.consumer i) wake) s = some s' →
            (s'.pc (.consumer i) = .returned ↔ -1 ∈ s.taken i))
      ∧ (∀ i, -1 ∈ s.taken i → (s.pc (.consumer i)).stage ≠ .entering
          ∧ ∀ as s', (program p).run as s = some s' → s'.taken i = s.taken i)
      ∧ ((∀ t, s.pc t = .returned) → s.numFull = 0
          ∧ (∀ v < p.loops, ∃ i, (s.taken i).count (v : ℤ) = 1
              ∧ ∀ j, j ≠ i → (s.taken j).count (v : ℤ) = 0)
          ∧ ∀ i, (s.taken i).count (-1) = 1) := by
  have hinv := reachable_inv h
  refine ⟨hinv.gets_prefix, ?_, ?_, ?_, ?_, ?_⟩
  · rintro l₁ ⟨i, v⟩ l₂ hgets rfl g hg
    have hleading := hinv.gets_prefix
    rw [hgets, List.map_append, List.map_cons] at hleading
    exact eq_marker_of_mem hleading _ (List.mem_map_of_mem hg)
  · exact fun i hpc => (hinv.consumer i).taken_eq ((hinv.consumer i).returned (by rw [hpc]; rfl))
  · -- from `loopTest` there is one step, the test itself
    intro i wake s' hpc hstep
    change s.threadStep (.consumer i) wake = some s' at hstep
    unfold State.threadStep at hstep
    rw [hpc] at hstep
    cases hstep
    exact loopTest_returned_iff hinv
  · intro i hthrough
    refine ⟨fun hstage => ?_, fun as s' => taken_run hinv hthrough⟩
    exact (hinv.consumer i).entering hstage ((hinv.consumer i).tmp_eq_iff.mpr hthrough)
  · intro hpc
    refine ⟨(hinv.gets_of_returned hpc).2, fun v => hinv.item_received hpc, fun i => ?_⟩
    rw [(hinv.consumer i).count_taken, if_pos ((hinv.consumer i).returned (by rw [hpc]; rfl))]

/-- A run to the end, with a buffer of one slot that makes the producer wait once. -/
def fullRun : List (Action .single) :=
  let producer := Action.thread .producer none
  let consumer := Action.thread (.consumer 0) none
  List.replicate 3 .main ++ List.replicate 11 producer ++ List.replicate 4 consumer
    ++ [.thread (.consumer 0) (some .producer)] ++ List.replicate 2 consumer
    ++ List.replicate 6 producer ++ List.replicate 6 consumer

/-- The run ends with all threads returned. -/
theorem fullRun_returned :
    ∃ s, (program ⟨1, 1, 1, le_rfl, le_rfl⟩).run fullRun (init _) = some s
      ∧ ∀ t, s.pc t = .returned := by
  have hrun : ((program ⟨1, 1, 1, le_rfl, le_rfl⟩).run fullRun (init _)).any
      (fun s => ∀ t, s.pc t = .returned) = true := by decide +kernel
  obtain ⟨s, hs, hpc⟩ := (Option.any_eq_true _ _).mp hrun
  exact ⟨s, hs, of_decide_eq_true hpc⟩

/-- In this run each value is delivered once. -/
theorem exactly_once_delivery_fullRun :
    ∃ s, (program ⟨1, 1, 1, le_rfl, le_rfl⟩).run fullRun (init _) = some s
      ∧ s.numFull = 0 ∧ ∀ i, (s.taken i).count (-1) = 1 := by
  obtain ⟨s, hs, hpc⟩ := fullRun_returned
  obtain ⟨hempty, -, hmarkers⟩ := (exactly_once_delivery ⟨fullRun, hs⟩).2.2.2.2.2 hpc
  exact ⟨s, hs, hempty, hmarkers⟩

end Cs537.ProducerConsumer
