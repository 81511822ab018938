import Cs537.Lib.Count
import Cs537.ProducerConsumer.Invariant

/-!
# Counting end markers

The producer puts its end markers behind all items, and a consumer has taken one exactly when its `tmp`
is `-1`. So the end markers among the fetched values count the consumers that are through.
-/

namespace Cs537.ProducerConsumer

variable {p : Params} {s : State p}

/-- The end markers in a prefix of the stream. -/
theorem count_take_stream (n : ℕ) :
    ((stream p).take n).count (-1) = min (n - p.loops) p.consumers := by
  have hitems : ∀ k, (((List.range p.loops).map (Nat.cast : ℕ → ℤ)).take k).count (-1) = 0 := by
    intro k
    rw [List.count_eq_zero]
    intro hmem
    obtain ⟨v, -, hv⟩ := List.mem_map.mp (List.mem_of_mem_take hmem)
    omega
  unfold stream
  rw [List.take_append, List.count_append, hitems, List.take_replicate, List.count_replicate_self,
    List.length_map, List.length_range, Nat.zero_add]

/-- A consumer with `-1` in `tmp` took its end marker last. -/
theorem State.Consumer.taken_eq {i : Fin p.consumers} (h : s.Consumer i) (htmp : s.tmp i = -1) :
    ∃ vs, -1 ∉ vs ∧ s.taken i = vs ++ [-1] := by
  have hmem := h.tmp_eq_iff.mp htmp
  have hlast := h.getLast
  have hdrop := h.dropLast
  rcases List.eq_nil_or_concat' (s.taken i) with hnil | ⟨vs, v, hconcat⟩
  · rw [hnil] at hmem
    cases hmem
  · rw [hconcat, List.getLastD_concat, htmp] at hlast
    rw [hconcat, List.dropLast_concat] at hdrop
    exact ⟨vs, hdrop, by rw [hconcat, hlast]⟩

/-- The end markers that one consumer has taken. -/
theorem State.Consumer.count_taken {i : Fin p.consumers} (h : s.Consumer i) :
    (s.taken i).count (-1) = if s.tmp i = -1 then 1 else 0 := by
  split
  · rename_i htmp
    obtain ⟨vs, hvs, htaken⟩ := h.taken_eq htmp
    rw [htaken, List.count_append, List.count_eq_zero.mpr hvs]
    rfl
  · rename_i htmp
    exact List.count_eq_zero.mpr fun hmem => htmp (h.tmp_eq_iff.mpr hmem)

/-- The consumers that have taken their end marker. -/
def State.through (s : State p) : ℕ := (Finset.univ.filter fun i => s.tmp i = -1).card

/-- The end markers among the fetched values count the consumers that are through. -/
theorem State.Inv.count_gets (h : s.Inv) : (s.gets.map Prod.snd).count (-1) = s.through := by
  rw [← List.sum_count_filter_key, State.through, Finset.card_filter]
  exact Finset.sum_congr rfl fun i _ => (h.consumer i).count_taken

/-- When every consumer has taken a marker, all are through. -/
theorem State.through_eq_consumers (h : ∀ i, s.tmp i = -1) : s.through = p.consumers := by
  rw [State.through, Finset.filter_true_of_mem fun i _ => h i, Finset.card_univ, Fintype.card_fin]

/-- As long as one consumer is not through, an end marker is left for it. -/
theorem State.through_lt {i : Fin p.consumers} (h : s.tmp i ≠ -1) : s.through < p.consumers := by
  calc s.through < (Finset.univ.filter fun _ : Fin p.consumers => True).card :=
        Finset.card_filter_lt (fun _ _ => trivial) h trivial
    _ = p.consumers := by simp

/-- A producer that has returned has put the whole stream into the buffer. -/
theorem State.Inv.fills_of_returned (h : s.Inv) (hpc : s.pc .producer = .returned) :
    s.fills = stream p := by
  obtain ⟨hphase, hi⟩ := h.producer.done (by rw [hpc]; rfl)
  have hfilled : s.filled = p.loops + p.consumers := by
    unfold State.filled State.rounds
    rw [hphase, hpc, hi]
    rfl
  rw [h.producer.fills_eq, hfilled, List.take_of_length_le (Nat.le_of_eq stream_length)]

/-- Once every consumer is through, the producer has put the whole stream into the buffer. -/
theorem State.Inv.le_filled (h : s.Inv) (htmp : ∀ i, s.tmp i = -1) :
    p.loops + p.consumers ≤ s.filled := by
  obtain ⟨vs, hvs⟩ := h.holds
  have hpos := p.consumers_pos
  have hcount : p.consumers ≤ s.fills.count (-1) := by
    rw [hvs.fills_eq, List.count_append, h.count_gets, State.through_eq_consumers htmp]
    exact Nat.le_add_right _ _
  rw [h.producer.fills_eq, count_take_stream] at hcount
  omega

end Cs537.ProducerConsumer
