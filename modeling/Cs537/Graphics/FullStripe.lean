import Cs537.Graphics.Completion

/-!
# The RAID-4 count and full stripes

`Raid.__init__` takes eight I/Os off the count for every triple of consecutive addresses, which is right for
three writes: they need four I/Os and not twelve. It does not look at the operations. A triple with a read has
less to take off, and then the count is too small: the simulation goes on when all requests are done, or ends
before.
-/

namespace Cs537.Graphics

/-- In every aligned triple of consecutive addresses, all three requests are writes. -/
def TriplesWritten : List (ℕ × OpType) → Prop
  | a :: b :: c :: rest =>
    (b.1 = a.1 + 1 ∧ c.1 = a.1 + 2 → a.2 = .write ∧ b.2 = .write ∧ c.2 = .write) ∧ TriplesWritten rest
  | _ => True

instance : ∀ l, Decidable (TriplesWritten l)
  | a :: b :: c :: rest =>
    have := instDecidableTriplesWritten rest
    inferInstanceAs (Decidable ((b.1 = a.1 + 1 ∧ c.1 = a.1 + 2 → _) ∧ TriplesWritten rest))
  | [] | [_] | [_, _] => .isTrue trivial

/-! ## The I/Os of RAID-4 requests -/

/-- One for a write. -/
def OpType.writes : OpType → ℕ
  | .read => 0
  | .write => 1

/-- A small write of RAID-4 is four I/Os, a read one. -/
private theorem ioCount_raid4 (a : ℕ × OpType) :
    (Mapping.raid4.request a).ioCount .raid4 = 1 + 3 * a.2.writes := by
  obtain ⟨logical, op⟩ := a
  cases op <;> rfl

/-- A marked request that leaves the parity to another one counts as one I/O. -/
private theorem ioCount_data (a : ℕ × OpType) :
    ((Mapping.raid4.request a).markFullStripeWrite false).ioCount .raid4 = 1 := by
  obtain ⟨logical, op⟩ := a
  cases op <;> rfl

/-- The last request of a marked triple is two I/Os if it is a write. -/
private theorem ioCount_parity (a : ℕ × OpType) :
    ((Mapping.raid4.request a).markFullStripeWrite true).ioCount .raid4 = 1 + a.2.writes := by
  obtain ⟨logical, op⟩ := a
  cases op <;> rfl

/-- The adjustment of a triple: exact for three writes, and too large with a read. -/
private theorem adjustment (a b c : OpType) :
    3 * (a.writes + b.writes + c.writes) ≤ 8 + c.writes
      ∧ (3 * (a.writes + b.writes + c.writes) = 8 + c.writes ↔ a = .write ∧ b = .write ∧ c = .write) := by
  cases a <;> cases b <;> cases c <;> decide

/-- The I/Os of a list. -/
private def ios (l : List (ℕ × OpType)) : ℕ :=
  ((markFullStripes (l.map Mapping.raid4.request)).1.map (Request.ioCount .raid4)).sum

/-- Its triples. -/
private def triples (l : List (ℕ × OpType)) : ℕ := (markFullStripes (l.map Mapping.raid4.request)).2

/-- Its writes. -/
private def writes (l : List (ℕ × OpType)) : ℕ := (l.map fun a => a.2.writes).sum

/-- The writes of a list, from its first request on. -/
private theorem writes_cons (a : ℕ × OpType) (l : List (ℕ × OpType)) :
    writes (a :: l) = a.2.writes + writes l := rfl

private theorem sum_ioCount_raid4 (l : List (ℕ × OpType)) :
    ((l.map Mapping.raid4.request).map (Request.ioCount .raid4)).sum = l.length + 3 * writes l := by
  induction l with
  | nil => rfl
  | cons a l ih =>
    rw [List.map_cons, List.map_cons, List.sum_cons, ih, ioCount_raid4, List.length_cons, writes_cons]
    omega

section

variable {a b c : ℕ × OpType} (rest : List (ℕ × OpType))

/-- The last request of a triple writes its parity, and the first two leave that to it. -/
private theorem ios_triple (htriple : b.1 = a.1 + 1 ∧ c.1 = a.1 + 2) :
    ios (a :: b :: c :: rest) = 1 + (1 + (1 + c.2.writes + ios rest))
      ∧ triples (a :: b :: c :: rest) = triples rest + 1 := by
  have hmark : markFullStripes ((a :: b :: c :: rest).map Mapping.raid4.request)
      = ((Mapping.raid4.request a).markFullStripeWrite false
          :: (Mapping.raid4.request b).markFullStripeWrite false
          :: (Mapping.raid4.request c).markFullStripeWrite true
          :: (markFullStripes (rest.map Mapping.raid4.request)).1, triples rest + 1) := if_pos htriple
  refine ⟨?_, congrArg Prod.snd hmark⟩
  unfold ios
  rw [hmark]
  simp only [List.map_cons, List.sum_cons, ioCount_data, ioCount_parity]

/-- Three requests that are not marked. -/
private theorem ios_noTriple (htriple : ¬ (b.1 = a.1 + 1 ∧ c.1 = a.1 + 2)) :
    ios (a :: b :: c :: rest)
        = 1 + 3 * a.2.writes + (1 + 3 * b.2.writes + (1 + 3 * c.2.writes + ios rest))
      ∧ triples (a :: b :: c :: rest) = triples rest := by
  have hmark : markFullStripes ((a :: b :: c :: rest).map Mapping.raid4.request)
      = (Mapping.raid4.request a :: Mapping.raid4.request b :: Mapping.raid4.request c
          :: (markFullStripes (rest.map Mapping.raid4.request)).1, triples rest) := if_neg htriple
  constructor
  · unfold ios
    rw [hmark]
    simp only [List.map_cons, List.sum_cons, ioCount_raid4]
  · unfold triples
    rw [hmark]
    rfl

end

/-- By how much the I/Os of a list exceed the count. Only a triple with a read contributes. -/
private theorem exists_excess (l : List (ℕ × OpType)) :
    ∃ excess, ios l + 8 * triples l = l.length + 3 * writes l + excess
      ∧ (excess = 0 ↔ TriplesWritten l) := by
  induction l using TriplesWritten.induct with
  | case1 a b c rest ih =>
    obtain ⟨excess, hsum, hiff⟩ := ih
    unfold TriplesWritten
    rw [writes_cons, writes_cons, writes_cons, List.length_cons, List.length_cons, List.length_cons]
    by_cases htriple : b.1 = a.1 + 1 ∧ c.1 = a.1 + 2
    · obtain ⟨hios, htriples⟩ := ios_triple rest htriple
      obtain ⟨hle, heq⟩ := adjustment a.2 b.2 c.2
      refine ⟨excess + (8 + c.2.writes - 3 * (a.2.writes + b.2.writes + c.2.writes)), by omega, ?_⟩
      rw [← hiff, ← heq]
      constructor
      · exact fun hzero => ⟨fun _ => by omega, by omega⟩
      · rintro ⟨hwritten, hzero⟩
        have := hwritten htriple
        omega
    · obtain ⟨hios, htriples⟩ := ios_noTriple rest htriple
      refine ⟨excess, by omega, ?_⟩
      rw [← hiff]
      exact ⟨fun hzero => ⟨fun h => absurd h htriple, hzero⟩, fun h => h.2⟩
  | case2 l h =>
    -- at most two requests are left
    have hmark : markFullStripes (l.map Mapping.raid4.request) = (l.map Mapping.raid4.request, 0) := by
      match l with
      | [] | [_] | [_, _] => rfl
      | a :: b :: c :: rest => exact (h a b c rest rfl).elim
    have hwritten : TriplesWritten l := by
      match l with
      | [] | [_] | [_, _] => trivial
      | a :: b :: c :: rest => exact (h a b c rest rfl).elim
    refine ⟨0, ?_, fun _ => hwritten, fun _ => rfl⟩
    unfold ios triples
    rw [hmark]
    exact sum_ioCount_raid4 l

/-- The writes are those that `__init__` counts. -/
private theorem writes_eq (l : List (ℕ × OpType)) :
    writes l = (l.map Mapping.raid4.request).countP fun r => r.opType = .write := by
  induction l with
  | nil => rfl
  | cons a l ih =>
    rw [writes_cons, ih, List.map_cons, List.countP_cons, add_comm]
    obtain ⟨logical, op⟩ := a
    cases op <;> rfl

variable {c : Config}

/-- **The count of RAID-4** is exact when all triples are written, and only then. -/
theorem Config.exact_iff_triplesWritten (h : c.mapping = .raid4) : c.Exact ↔ TriplesWritten c.addr := by
  obtain ⟨excess, hsum, hiff⟩ := exists_excess c.addr
  have htotal : c.total = ios c.addr := by
    rw [c.total_eq]
    unfold requestQueue
    rw [h]
    show (((markFullStripes (c.addr.map c.mapping.request)).1).map _).sum = _
    rw [h]
    rfl
  have hneeded : c.requestCountNeeded = c.addr.length + 3 * writes c.addr - 8 * triples c.addr := by
    unfold requestCountNeeded placed
    rw [h, writes_eq]
    show ((c.addr.map _).length : ℤ) + _ - _ = _
    rw [List.length_map]
    rfl
  unfold Exact
  rw [hneeded, htotal, ← hiff]
  omega

/-- Outside RAID-4, and where triples are written, the count is exact. -/
theorem Config.exact_of_triplesWritten (h : c.mapping = .raid4 → TriplesWritten c.addr) : c.Exact := by
  by_cases hmapping : c.mapping = .raid4
  · exact (Config.exact_iff_triplesWritten hmapping).mpr (h hmapping)
  · exact Config.exact_of_ne_raid4 hmapping

/-! ## The I/Os that are started -/

/-- The number of I/Os that the scheduler has started. -/
def startCount (log : List (Event c)) : ℕ := log.countP fun ev => ev.kind = .start

namespace Core

variable {s : Core c}

/-- Every I/O that has been started has been performed or is under way. -/
theorem reachable_startCount (h : (untimed c).Reachable s) : (startCount s.log : ℤ) = s.requestCount + s.busy := by
  refine reachable_of_events (P := fun t => (startCount t.log : ℤ) = t.requestCount + t.busy) h ?_
    (fun t d i op status ht hstarts => ?_) (fun t d i op status done ht hfinishes => ?_) fun _ ht => ht
  · show (0 : ℤ) = 0 + (∑ _ : Disk, 0 : ℕ)
    simp
  · have hlog : startCount (t.start d i op status).log = startCount t.log + 1 := by
      show startCount (t.log ++ [_]) = _
      unfold startCount
      rw [List.countP_append]
      rfl
    have hbusy : (t.start d i op status).busy = t.busy + 1 := busy_start hstarts.idle
    rw [hlog, hbusy]
    show _ = t.requestCount + _
    omega
  · have hlog : startCount (t.served d i op status done).log = startCount t.log := by
      show startCount (t.log ++ [_]) = _
      unfold startCount
      rw [List.countP_append]
      rfl
    have hbusy : (t.served d i op status done).busy + 1 = t.busy := busy_served hfinishes.serving
    rw [hlog]
    show _ = t.requestCount + 1 + _
    omega

/-- All requests are done exactly when all are complete. -/
theorem Inv.logical_iff (h : s.Inv) : s.logicalRequests = c.addr.length ↔ s.AllComplete := by
  refine ⟨fun hlogical i => ?_, fun hall => (h.logical_of_allComplete hall).trans c.length_requestQueue⟩
  rw [h.logical, completed_eq_card, ← c.length_requestQueue] at hlogical
  have hfull := Finset.filter_card_eq (hlogical.trans (Finset.card_fin _).symm)
  exact hfull i (Finset.mem_univ i)

end Core

/-! ## The end of a RAID-4 simulation -/

/-- `Start` fails exactly when no I/O is needed: `PrintStats` then divides by the number of requests done. -/
theorem start_eq_none_iff : (State.init c).getNextIOs = none ↔ c.requestCountNeeded = 0 := by
  have hcount : (State.init c).requestCount = 0 := rfl
  constructor
  · intro hnone
    by_contra hneeded
    rw [State.getNextIOs_eq_some_iff.mpr (.inr ⟨fun heq => hneeded (heq.symm.trans hcount), rfl⟩)] at hnone
    cases hnone
  · intro hneeded
    refine Option.eq_none_iff_forall_ne_some.mpr fun t hnext => ?_
    rcases State.getNextIOs_eq_some_iff.mp hnext with ⟨-, hlogical, -⟩ | ⟨hne, -⟩
    · exact hlogical rfl
    · exact hne (hcount.trans hneeded.symm)

/-- Two reads and the write of a stripe, marked as a full stripe, and two more reads: the count is zero. -/
example : (State.init (.ofArgs .raid4 [(0, .read), (1, .read), (2, .write), (5, .read), (9, .read)] 4 (-1)
    (by decide))).getNextIOs.isNone := by
  decide +kernel

/-- The count does its job: the simulation is over exactly when all requests are done, which happens, and by
then as many I/Os as `request_count_needed` says have been started. -/
def Config.CountsExactly (c : Config) : Prop :=
  (∀ n s, run c n = some s → (s.isDone = true ↔ s.logicalRequests = c.addr.length))
    ∧ ∃ n s, run c n = some s ∧ s.isDone = true ∧ (startCount s.log : ℤ) = c.requestCountNeeded

namespace Config

/-- When all requests are complete, all I/Os have been started. -/
theorem startCount_of_allComplete {s : State c} (h : s.Reached) (hall : s.core.AllComplete) :
    (startCount s.log : ℤ) = c.total := by
  have hinv := Core.reachable_inv h.reachable
  have hstart := Core.reachable_startCount h.reachable
  have hbusy : s.core.busy = 0 := Finset.sum_eq_zero fun d _ => by
    rw [hinv.idle_of_allComplete hall d]
    rfl
  rw [hbusy, hinv.allComplete_iff.mp hall] at hstart
  exact hstart.trans (add_zero _)

/-- A count that does its job is exact. -/
theorem CountsExactly.exact (h : c.CountsExactly) : c.Exact := by
  obtain ⟨hdone, n, s, hrun, hs, hstart⟩ := h
  have hreached := reached_of_run hrun
  have hall := (Core.reachable_inv hreached.reachable).logical_iff.mp ((hdone n s hrun).mp hs)
  exact hstart.symm.trans (startCount_of_allComplete hreached hall)

/-- An exact count does its job. -/
theorem Exact.countsExactly (hexact : c.Exact) : c.CountsExactly := by
  refine ⟨fun n s hrun => ?_, ?_⟩
  · have hreached := reached_of_run hrun
    exact (hreached.isDone_iff hexact).trans (Core.reachable_inv hreached.reachable).logical_iff.symm
  · obtain ⟨n, s, hrun, hdone⟩ := exists_isDone hexact
    have hreached := reached_of_run hrun
    have hall := (hreached.isDone_iff hexact).mp hdone
    exact ⟨n, s, hrun, hdone, (startCount_of_allComplete hreached hall).trans hexact.symm⟩

end Config

/-- **The RAID-4 count does its job exactly on the queues whose triples are written.** -/
theorem raid4_countsExactly_iff (c : Config) (h : c.mapping = .raid4) :
    c.CountsExactly ↔ TriplesWritten c.addr := by
  rw [← Config.exact_iff_triplesWritten h]
  exact ⟨Config.CountsExactly.exact, Config.Exact.countsExactly⟩

/-- A full stripe is written, and then read. -/
def writeThenRead : Config :=
  .ofArgs .raid4 [(0, .write), (1, .write), (2, .write), (4, .read)] 4 (-1) (by decide)

/-- The count of a queue that writes its triple does its job. -/
theorem raid4_countsExactly_writeThenRead : writeThenRead.CountsExactly :=
  (raid4_countsExactly_iff writeThenRead rfl).mpr (by decide)

/-- Three consecutive blocks are read. -/
def readTriple : Config :=
  .ofArgs .raid4 [(0, .read), (1, .read), (2, .read)] 4 (-1) (by decide)

/-- The count of three reads is negative, and the simulation never ends. -/
theorem not_countsExactly_readTriple : readTriple.mapping = .raid4 ∧ ¬ readTriple.CountsExactly := by
  refine ⟨rfl, fun h => ?_⟩
  have hwritten := (Config.exact_iff_triplesWritten rfl).mp h.exact
  revert hwritten
  decide

end Cs537.Graphics
