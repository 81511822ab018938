import Cs537.Graphics.Window

/-!
# Parity read-modify-write cycles

A small write reads the parity block of its row, waits for its data disk, and writes the parity block. No lock
is held meanwhile: another write of the row may write the parity block in between. This cannot happen as long
as at most one write of each row is in flight.
-/

namespace Cs537.Graphics

variable {c : Config}

/-- Another request writes the parity block, on `d`, of the row of the request at `i`. -/
def Disturbs (i : c.Index) (d : Disk) (ev : Event c) : Prop :=
  ev.op = .write ∧ ev.disk = d ∧ ev.index ≠ i ∧ (c.request ev.index).physOffset = (c.request i).physOffset

/-! ## Reads and writes -/

/-- The kinds of reads. -/
def Kind.reads : List Kind := [.stripe .read, .mirrorRead, .parityRead]

/-- The kind of a read. -/
theorem Config.kind_mem_reads {i : c.Index} (hop : (c.request i).opType = .read) : c.kind i ∈ Kind.reads := by
  have hreads : ∀ k : Kind, k = .stripe .read ∨ k = .mirrorRead ∨ k = .parityRead → k ∈ Kind.reads := by
    rintro k (rfl | rfl | rfl) <;> decide
  apply hreads
  unfold Config.kind Request.kind
  rw [hop]
  cases c.mapping with
  | striping => exact .inl rfl
  | mirroring => exact .inr (.inl rfl)
  | raid4 | raid5 => exact .inr (.inr rfl)

/-- Any other kind is that of a write. -/
theorem Config.write_of_kind {i : c.Index} (h : c.kind i ∉ Kind.reads) : (c.request i).opType = .write := by
  cases hop : (c.request i).opType with
  | read => exact absurd (c.kind_mem_reads hop) h
  | write => rfl

/-- Checked over the kinds of reads: none of them writes. -/
private theorem check_reads : ∀ k ∈ Kind.reads, ∀ x ∈ k.locals, ∀ e, (x e).flight ≠ some .write := by
  decide

namespace Core

variable {s t : Core c} {d : Disk} {i j : c.Index} {op : OpType} {status : Statuses} {ev : Event c}

/-- No two writes of one row are in flight. -/
def RowExclusive (s : Core c) : Prop :=
  ∀ i j, i ≠ j → (c.request i).opType = .write → (c.request j).opType = .write →
    (c.request i).physOffset = (c.request j).physOffset → ¬ (s.InFlight i ∧ s.InFlight j)

/-- From the end of the parity read of a small write to the start of its parity write, no other request writes
the parity block of the row. -/
def Undisturbed (s : Core c) : Prop :=
  ∀ i d, c.kind i = .smallWrite → (c.request i).physDiskList[1]? = some d →
    ∀ before between after, s.log = before ++ Event.mk .finish d i .read :: (between ++ after) →
      Event.mk .start d i .write ∉ between → ∀ ev ∈ between, ¬ Disturbs i d ev

/-- The parity read is over, and the parity write has not been started. -/
def Awaits (s : Core c) (i : c.Index) (d : Disk) : Prop :=
  ∃ before between, s.log = before ++ Event.mk .finish d i .read :: between
    ∧ Event.mk .start d i .write ∉ between

/-- A new event only matters to the requests that wait. -/
theorem Undisturbed.append (h : s.Undisturbed) (hlog : t.log = s.log ++ [ev])
    (hev : ∀ i d, c.kind i = .smallWrite → (c.request i).physDiskList[1]? = some d → s.Awaits i d →
      ¬ Disturbs i d ev) : t.Undisturbed := by
  intro i d hkind hdisk before between after heq hnot ev' hev'
  rw [hlog] at heq
  rcases List.eq_nil_or_concat' after with rfl | ⟨after, last, rfl⟩
  · rcases List.eq_nil_or_concat' between with rfl | ⟨between, last, rfl⟩
    · cases hev'
    · -- the new event is the last of those in between
      have hsplit : s.log ++ [ev] = (before ++ Event.mk .finish d i .read :: between) ++ [last] := by
        rw [heq]
        simp
      obtain ⟨hold, hlast⟩ := List.append_inj' hsplit rfl
      cases hlast
      have hnot' : Event.mk .start d i .write ∉ between := fun hmem => hnot (List.mem_append_left _ hmem)
      rcases List.mem_append.mp hev' with hmem | hmem
      · exact h i d hkind hdisk before between [] (by rw [hold, List.append_nil]) hnot' ev' hmem
      · cases List.mem_singleton.mp hmem
        exact hev i d hkind hdisk ⟨before, between, hold, hnot'⟩
  · have hsplit : s.log ++ [ev]
        = (before ++ Event.mk .finish d i .read :: (between ++ after)) ++ [last] := by
      rw [heq]
      simp
    obtain ⟨hold, -⟩ := List.append_inj' hsplit rfl
    exact h i d hkind hdisk before between after hold hnot ev' hev'

/-! ## Requests in flight -/

/-- A request that a disk serves is in flight. -/
theorem inFlight_of_serving (hinv : s.Inv) (hseq : s.Sequential) (hserving : s.serving d = some (i, op)) :
    s.InFlight i := by
  obtain ⟨e, he⟩ := hinv.entry d i op hserving
  refine ⟨?_, not_complete_of_flight (flight_of_serving hserving he)⟩
  have hmem : (.start, op) ∈ eventsOf s.log i d := by
    rw [hseq i d, flightOn_of_serving hserving]
    exact List.mem_append_right _ List.mem_cons_self
  exact started_of_mem (mem_eventsOf.mp hmem)

/-- What writes belongs to a write request. -/
theorem write_of_serving (hinv : s.Inv) (hserving : s.serving d = some (i, .write)) :
    (c.request i).opType = .write := by
  obtain ⟨e, he⟩ := hinv.entry d i .write hserving
  have hflight : (s.config i e).flight = some .write := flight_of_serving hserving he
  exact c.write_of_kind fun hread => check_reads _ hread _ (hinv.locals i) e hflight

/-- Of the four events of a read and a write, the start of the write follows the end of the read. -/
private theorem start_mem_of_split {before between : List (EventKind × OpType)}
    (h : [OpType.read, .write].flatMap OpType.events = before ++ (.finish, .read) :: between) :
    (.start, .write) ∈ between := by
  change [(EventKind.start, OpType.read), (.finish, .read), (.start, .write), (.finish, .write)] = _ at h
  match before, h with
  | [], h => cases h
  | [_], h =>
    cases h
    exact List.mem_cons_self
  | [_, _], h => cases h
  | [_, _, _], h => cases h
  | _ :: _ :: _ :: _ :: before, h => simp at h

/-- A small write that waits with its parity write is in flight. -/
theorem Awaits.inFlight (hinv : s.Inv) (hseq : s.Sequential) (hkind : c.kind i = .smallWrite)
    (hdisk : (c.request i).physDiskList[1]? = some d) (h : s.Awaits i d) : s.InFlight i := by
  obtain ⟨before, between, hlog, hnot⟩ := h
  have hevents : eventsOf s.log i d = eventsOf before i d ++ (.finish, .read) :: eventsOf between i d := by
    rw [hlog, eventsOf_append, eventsOf_cons, if_pos ⟨rfl, rfl⟩]
    rfl
  have hread : .read ∈ s.performedOn i d := by
    have hmem : (.finish, .read) ∈ eventsOf s.log i d := by
      rw [hevents]
      exact List.mem_append_right _ List.mem_cons_self
    rw [hseq i d] at hmem
    rcases List.mem_append.mp hmem with hmem | hmem
    · obtain ⟨op, hop, hmem⟩ := List.mem_flatMap.mp hmem
      have heq : .read = op := by simpa [OpType.events] using hmem
      rwa [heq]
    · obtain ⟨op, -, heq⟩ := List.mem_map.mp hmem
      cases heq
  refine ⟨started_of_mem (hseq.start_mem hread), fun hcomplete => hnot ?_⟩
  -- a complete request has started its parity write after its parity read
  have hindex : (c.request i).diskIndex d = some 1 := c.diskIndex_eq_some_iff.mpr hdisk
  obtain ⟨ops, hops, hperformed⟩ := hinv.served hcomplete
  rw [hkind, Kind.outcomes, List.mem_singleton] at hops
  have hboth : s.performedOn i d = [.read, .write] := by
    rw [hperformed, hindex, hops]
    rfl
  have hflight : s.flightOn i d = none := by
    rw [← flight_eq hindex]
    exact hcomplete.2 1
  rw [hseq i d, hboth, hflight] at hevents
  exact mem_eventsOf.mp (start_mem_of_split ((List.append_nil _).symm.trans hevents))

/-- Starting an I/O leaves requests in flight. -/
theorem InFlight.start (h : s.InFlight i) (hidle : s.serving d = none)
    (hself : (s.start d j op status).InFlight j) : (s.start d j op status).InFlight i := by
  by_cases hij : i = j
  · rw [hij]
    exact hself
  · obtain ⟨⟨ev, hev, hkind, hindex⟩, hnot⟩ := h
    refine ⟨⟨ev, List.mem_append_left _ hev, hkind, hindex⟩, ?_⟩
    rw [config_start_of_ne hidle hij]
    exact hnot

/-! ## Runs in which no two writes of a row are in flight -/

/-- As long as no two writes of one row are in flight, no cycle is disturbed. -/
structure Guarded (s : Core c) : Prop where
  inv : s.Inv
  sequential : s.Sequential
  undisturbed : s.RowExclusive → s.Undisturbed

theorem write_of_smallWrite (h : c.kind i = .smallWrite) : (c.request i).opType = .write := by
  apply c.write_of_kind
  rw [h]
  decide

/-- A start keeps the guards. -/
theorem Guarded.start (h : s.Guarded) (hidle : s.serving d = none)
    (hschedule : (c.request j).doScheduling c.mapping (s.status j) d = some (op, status)) :
    (s.start d j op status).Guarded := by
  have hinv : (s.start d j op status).Inv := h.inv.start hidle hschedule
  have hseq : (s.start d j op status).Sequential := h.sequential.start hidle
  have hserving : (s.start d j op status).serving d = some (j, op) := by
    rw [start_serving, if_pos rfl]
  have hself : (s.start d j op status).InFlight j := inFlight_of_serving hinv hseq hserving
  refine ⟨hinv, hseq, fun hexclusive => ?_⟩
  have hbefore : s.RowExclusive := fun i i' hne hop hop' hrow hboth =>
    hexclusive i i' hne hop hop' hrow ⟨hboth.1.start hidle hself, hboth.2.start hidle hself⟩
  refine (h.undisturbed hbefore).append rfl fun i d' hkind hdisk hawaits hdisturbs => ?_
  -- the request that waits and the one that starts a write are both in flight
  obtain ⟨hop, -, hne, hrow⟩ := hdisturbs
  change op = .write at hop
  subst hop
  have hwaiting := hawaits.inFlight h.inv h.sequential hkind hdisk
  exact hexclusive i j (Ne.symm hne) (write_of_smallWrite hkind) (write_of_serving hinv hserving) hrow.symm
    ⟨hwaiting.start hidle hself, hself⟩

/-- The scheduler starts no write in the middle of another request's cycle. -/
theorem Guarded.getNextIOs (h : s.Guarded) (hnext : s.getNextIOs = some t) : t.Guarded :=
  getNextIOs_invariant hnext h (fun _ _ _ _ _ ht hstarts => ht.start hstarts.idle hstarts.schedule) fun _ _ =>
    ⟨h.inv.stop, h.sequential, h.undisturbed⟩

/-- A step keeps the guards, as long as no row is shared. -/
theorem Guarded.step (h : s.Guarded) (hexclusive : s.RowExclusive) (hstep : Core.step d s = some t) :
    t.Guarded := by
  obtain ⟨u, hfinish, hnext⟩ := Option.bind_eq_some_iff.mp hstep
  obtain ⟨j, op, _, _, ⟨hserving, -⟩, -⟩ := exists_served hfinish
  obtain ⟨status, done, hfinish', hinv⟩ := h.inv.finish hserving
  cases hfinish.symm.trans hfinish'
  have hself : s.InFlight j := inFlight_of_serving h.inv h.sequential hserving
  refine Guarded.getNextIOs ⟨hinv, h.sequential.served hserving, fun _ => ?_⟩ hnext
  refine (h.undisturbed hexclusive).append rfl fun i d' hkind hdisk hawaits hdisturbs => ?_
  -- the request that waits and the one whose write ends are both in flight
  obtain ⟨hop, -, hne, hrow⟩ := hdisturbs
  change op = .write at hop
  subst hop
  exact hexclusive i j (Ne.symm hne) (write_of_smallWrite hkind) (write_of_serving h.inv hserving) hrow.symm
    ⟨hawaits.inFlight h.inv h.sequential hkind hdisk, hself⟩

/-- The guards hold at the start. -/
theorem init_guarded : (Core.init c).Guarded where
  inv := init_inv
  sequential _ _ := rfl
  undisturbed _ i d _ _ before between after heq := by
    have hnil : ([] : List (Event c)) = before ++ Event.mk .finish d i .read :: (between ++ after) := heq
    simp at hnil

/-- A run that never shares a row keeps the guards. -/
theorem guarded_of_within (h : (untimed c).ReachableWithin RowExclusive s) : s.Guarded := by
  induction h with
  | init => exact untimed_init init_guarded fun _ => init_guarded.getNextIOs
  | step hs hstep _ ih => exact ih.step hs.holds hstep

/-- With a window of one, or with all writes in different rows, no two writes of one row are in flight. -/
theorem reachable_rowExclusive (h : (untimed c).Reachable s)
    (hc : c.window = 1 ∨ ∀ i j, i ≠ j → (c.request i).opType = .write → (c.request j).opType = .write →
      (c.request i).physOffset ≠ (c.request j).physOffset) : s.RowExclusive := by
  rintro i j hne hop hop' hrow ⟨hi, hj⟩
  rcases hc with hwindow | hrows
  · have hcard := card_inFlight_le h (by rw [hwindow]; decide)
    rw [hwindow] at hcard
    have htwo : 1 < (Finset.univ.filter s.InFlight).card :=
      Finset.one_lt_card.mpr ⟨i, Finset.mem_filter.mpr ⟨Finset.mem_univ i, hi⟩, j,
        Finset.mem_filter.mpr ⟨Finset.mem_univ j, hj⟩, hne⟩
    omega
  · exact hrows i j hne hop hop' hrow

end Core

/-- **Parity cycles of writes that are not in flight together do not interleave**: in every run in which no two
writes of one row are in flight at the same time, no parity block is written by another request between the
parity read and the parity write of a small write; in particular in every run with a window of one, or with all
writes in different rows. -/
theorem parity_cycles_undisturbed (c : Config) :
    (∀ s, (untimed c).ReachableWithin Core.RowExclusive s → s.Undisturbed)
      ∧ ((c.window = 1 ∨ ∀ i j, i ≠ j → (c.request i).opType = .write → (c.request j).opType = .write →
          (c.request i).physOffset ≠ (c.request j).physOffset) →
        ∀ s, (untimed c).Reachable s → s.Undisturbed) := by
  have hmain : ∀ s, (untimed c).ReachableWithin Core.RowExclusive s → s.Undisturbed := fun s hs =>
    (Core.guarded_of_within hs).undisturbed hs.holds
  refine ⟨hmain, fun hc s hs => hmain s ?_⟩
  exact hs.within fun t ht => Core.reachable_rowExclusive ht hc

/-- Two small writes of one row, and a read that keeps the disk of the first one busy. -/
def slowRead : Config :=
  .ofArgs .raid4 [(57, .read), (0, .write), (1, .write)] 20 (-1) (by decide)

/-- The same requests, one by one. -/
def slowReadInOrder : Config := { slowRead with window := 1, window_valid := by decide }

/-- In order and on a slow disk, the cycles do not disturb each other. -/
theorem parity_cycles_undisturbed_slowReadInOrder :
    ∀ s : Core slowReadInOrder, (untimed slowReadInOrder).Reachable s → s.Undisturbed :=
  (parity_cycles_undisturbed slowReadInOrder).2 (.inl rfl)

/-- Without a window, the second write reads and writes the parity block while the first one waits for its data
disk between its parity read and its parity write. -/
theorem slowRead_disturbed :
    ∃ n, ∃ s : State slowRead, run slowRead n = some s ∧ s.isDone = true ∧ ¬ s.core.Undisturbed := by
  have hrun : (run slowRead 68).any (fun s => s.isDone = true
      ∧ s.log = s.log.take 4 ++ Event.mk .finish 3 ⟨1, by decide⟩ .read
        :: ((s.log.drop 5).take 4 ++ s.log.drop 9)
      ∧ Event.mk .start 3 ⟨1, by decide⟩ .write ∉ (s.log.drop 5).take 4
      ∧ Event.mk .start 3 ⟨2, by decide⟩ .write ∈ (s.log.drop 5).take 4) = true := by
    decide +kernel
  obtain ⟨s, hs, h⟩ := (Option.any_eq_true _ _).mp hrun
  obtain ⟨hdone, hlog, hnot, hmem⟩ := of_decide_eq_true h
  refine ⟨68, s, hs, hdone, fun hundisturbed => ?_⟩
  exact hundisturbed ⟨1, by decide⟩ 3 rfl rfl _ _ _ hlog hnot _ hmem ⟨rfl, rfl, by decide, rfl⟩

end Cs537.Graphics
