import Cs537.Graphics.Trace

/-!
# Moves of the disks

The scheduler goes through the disks and the queue in a fixed order. Much of what it keeps does not depend on
that order: in `disks`, any idle disk picks any request that calls for it, as long as `within` lets it, and any
busy disk finishes. All states of the simulator, those in the middle of the scheduler's loop included, are
reached by such moves.
-/

namespace Cs537.Graphics

/-- A disk picks a request, a disk finishes its I/O, or the simulation ends. -/
inductive Move (c : Config)
  | pick (disk : Disk) (index : c.Index)
  | finish (disk : Disk)
  | stop

variable {c : Config}

namespace Core

/-- An idle disk starts the I/O that the request calls for. -/
def pick (s : Core c) (disk : Disk) (index : c.Index) : Option (Core c) :=
  if s.serving disk = none then
    ((c.request index).doScheduling c.mapping (s.status index) disk).map fun r => s.start disk index r.1 r.2
  else none

/-- The requests that the completion of a move reports done. -/
def reported (s : Core c) : Move c → List c.Index
  | .finish disk => Option.toList do
    let (index, _) ← s.serving disk
    let entry ← (c.request index).diskIndex disk
    let (_, requestDone) ← (c.request index).requestDone c.mapping (s.status index) entry
    if requestDone then some index else none
  | _ => []

end Core

/-- The disks, picking requests that are `within` bounds and finishing in any order. -/
def disks (c : Config) (within : Core c → c.Index → Prop) [∀ s i, Decidable (within s i)] :
    Transition.System (Core c) (Move c) where
  init := Core.init c
  step
    | .pick disk index, s => if within s index then s.pick disk index else none
    | .finish disk, s => s.finish disk
    | .stop, s =>
      if s.requestCount = c.requestCountNeeded ∧ s.logicalRequests ≠ 0 then some { s with isDone := true } else none

/-- The disks may pick any request. -/
abbrev free (c : Config) : Transition.System (Core c) (Move c) := disks c fun _ _ => True

/-- The disks pick requests within the window. -/
abbrev windowed (c : Config) : Transition.System (Core c) (Move c) := disks c Core.Eligible

namespace Core

variable {within : Core c → c.Index → Prop} [∀ s i, Decidable (within s i)]
variable {s s' : Core c} {m : Move c} {d : Disk} {i : c.Index} {op : OpType} {status : Statuses}
variable {done : Bool}

/-- An idle disk and a request that calls for an I/O on it. -/
structure Picks (s : Core c) (d : Disk) (i : c.Index) (op : OpType) (status : Statuses) : Prop where
  idle : s.serving d = none
  schedule : (c.request i).doScheduling c.mapping (s.status i) d = some (op, status)

theorem Picks.pick_eq (h : s.Picks d i op status) : s.pick d i = some (s.start d i op status) := by
  unfold pick
  rw [if_pos h.idle, h.schedule]
  rfl

/-- A pick that is possible is one that `within` lets through. -/
theorem pick_of_step (h : (disks c within).step (.pick d i) s = some s') : within s i ∧ s.pick d i = some s' := by
  change (if within s i then s.pick d i else none) = some s' at h
  split at h
  · rename_i hwithin
    exact ⟨hwithin, h⟩
  · cases h

/-- What a move does. -/
theorem move_cases (h : (disks c within).step m s = some s') :
    (∃ d i op status, m = .pick d i ∧ within s i ∧ s.Picks d i op status ∧ s' = s.start d i op status)
      ∨ (∃ d i op status done, m = .finish d ∧ s.Finishes d i op status done
        ∧ s' = s.served d i op status done)
      ∨ (m = .stop ∧ s' = { s with isDone := true }) := by
  cases m with
  | pick d i =>
    obtain ⟨hwithin, hpick⟩ := pick_of_step h
    unfold pick at hpick
    split at hpick
    · rename_i hidle
      obtain ⟨⟨op, status⟩, hschedule, rfl⟩ := Option.map_eq_some_iff.mp hpick
      exact .inl ⟨d, i, op, status, rfl, hwithin, ⟨hidle, hschedule⟩, rfl⟩
    · cases hpick
  | finish d =>
    obtain ⟨i, op, status, done, hfinishes, rfl⟩ := exists_served h
    exact .inr (.inl ⟨d, i, op, status, done, rfl, hfinishes, rfl⟩)
  | stop =>
    change (if s.requestCount = c.requestCountNeeded ∧ s.logicalRequests ≠ 0
      then some { s with isDone := true } else none) = some s' at h
    split at h
    · cases h
      exact .inr (.inr ⟨rfl, rfl⟩)
    · cases h

/-- What picking and finishing keep holds in every state that the disks reach. -/
theorem reachable_of_moves {P : Core c → Prop} (h : (disks c within).Reachable s) (hinit : P (init c))
    (hstart : ∀ (t : Core c) (d : Disk) (i : c.Index) (op : OpType) (status : Statuses), P t → within t i →
      t.Picks d i op status → P (t.start d i op status))
    (hserved : ∀ (t : Core c) (d : Disk) (i : c.Index) (op : OpType) (status : Statuses) (done : Bool), P t →
      t.Finishes d i op status done → P (t.served d i op status done))
    (hstop : ∀ t : Core c, P t → P { t with isDone := true }) : P s := by
  refine h.invariant hinit fun m t t' hstep ht => ?_
  obtain ⟨d, i, op, status, -, hwithin, hpicks, rfl⟩ | ⟨d, i, op, status, done, -, hfinishes, rfl⟩
    | ⟨-, rfl⟩ := move_cases hstep
  · exact hstart t d i op status ht hwithin hpicks
  · exact hserved t d i op status done ht hfinishes
  · exact hstop t ht

/-- **One move keeps the accounts.** -/
theorem Inv.move (h : s.Inv) (hstep : (disks c within).step m s = some s') : s'.Inv := by
  obtain ⟨d, i, op, status, -, -, hpicks, rfl⟩ | ⟨d, i, op, status, done, -, hfinishes, rfl⟩
    | ⟨-, rfl⟩ := move_cases hstep
  · exact h.start hpicks.idle hpicks.schedule
  · exact h.finishes hfinishes
  · exact h.stop

/-- The accounts hold in whatever order the disks pick. -/
theorem disks_inv (h : (disks c within).Reachable s) : s.Inv :=
  h.invariant init_inv fun _ _ _ hstep hinv => hinv.move hstep

/-- So does what the log says about each disk. -/
theorem disks_sequential (h : (disks c within).Reachable s) : s.Sequential :=
  reachable_of_moves h (fun _ _ => rfl) (fun _ _ _ _ _ ht _ hpicks => ht.start hpicks.idle)
    (fun _ _ _ _ _ _ ht hfinishes => ht.served hfinishes.serving) fun _ ht => ht

/-! ## What a move does to a request -/

/-- The entry on which a picked I/O is started. -/
theorem Picks.exists_entry (h : s.Picks d i op status) : ∃ e, (c.request i).diskIndex d = some e
    ∧ (s.config i e).flight = none ∧ (c.kind i).start (s.status i) e = some (op, status) := by
  obtain ⟨e, he, hstart⟩ := exists_entry_of_schedule h.schedule
  exact ⟨e, he, flight_of_disk_idle h.idle he, hstart⟩

/-- The entry on which an I/O finishes. -/
theorem Finishes.exists_entry (h : s.Finishes d i op status done) : ∃ e, (c.request i).diskIndex d = some e
    ∧ (s.config i e).flight = some op ∧ (c.kind i).finish (s.status i) e = some (status, done) := by
  obtain ⟨e, he, hdone⟩ := h.done
  rw [c.requestDone_eq] at hdone
  exact ⟨e, he, flight_of_serving h.serving he, hdone⟩

/-- A request is done when it is complete. -/
theorem Inv.complete_served_iff (h : s.Inv) (hfinishes : s.Finishes d i op status done) :
    (c.kind i).Complete ((s.served d i op status done).config i) ↔ done = true := by
  obtain ⟨e, he, hflight, hfinish⟩ := hfinishes.exists_entry
  obtain ⟨status', done', hfinish', -, -, hdone⟩ := Kind.afterFinish_mem_locals (h.locals i) hflight
  cases hfinish.symm.trans hfinish'
  rw [config_served_self hfinishes.serving he]
  exact hdone.symm

/-- A request is left alone, or its automaton takes a step. -/
theorem config_cases (hstep : (disks c within).step m s = some s') (i : c.Index) :
    s'.config i = s.config i
      ∨ (∃ e op status, (s.config i e).flight = none ∧ (c.kind i).start (s.status i) e = some (op, status)
        ∧ s'.config i = Kind.afterStart (s.config i) status e op)
      ∨ ∃ e op status done, (s.config i e).flight = some op
        ∧ (c.kind i).finish (s.status i) e = some (status, done)
        ∧ s'.config i = Kind.afterFinish (s.config i) status e op := by
  obtain ⟨d, j, op, status, -, -, hpicks, rfl⟩ | ⟨d, j, op, status, done, -, hfinishes, rfl⟩
    | ⟨-, rfl⟩ := move_cases hstep
  · by_cases hij : i = j
    · subst hij
      obtain ⟨e, he, hflight, hstart⟩ := hpicks.exists_entry
      exact .inr (.inl ⟨e, op, status, hflight, hstart, config_start_self hpicks.idle he⟩)
    · exact .inl (config_start_of_ne hpicks.idle hij)
  · by_cases hij : i = j
    · subst hij
      obtain ⟨e, he, hflight, hfinish⟩ := hfinishes.exists_entry
      exact .inr (.inr ⟨e, op, status, done, hflight, hfinish, config_served_self hfinishes.serving he⟩)
    · exact .inl (config_served_of_ne hfinishes.serving hij)
  · exact .inl rfl

/-! ## What is reported -/

/-- A completion reports its request if that is done, and nothing else. -/
theorem Finishes.reported_eq (h : s.Finishes d i op status done) :
    s.reported (.finish d) = if done = true then [i] else [] := by
  obtain ⟨e, he, hdone⟩ := h.done
  show Option.toList ((s.serving d).bind _) = _
  rw [h.serving]
  show Option.toList (((c.request i).diskIndex d).bind _) = _
  rw [he]
  show Option.toList (((c.request i).requestDone c.mapping (s.status i) e).bind _) = _
  rw [hdone]
  cases done <;> rfl

/-- A request is reported done in the step that completes it. -/
theorem Inv.count_reported (h : s.Inv) (hstep : (disks c within).step m s = some s') (i : c.Index) :
    ((s.reported m).count i + if (c.kind i).Complete (s.config i) then 1 else 0)
      = if (c.kind i).Complete (s'.config i) then 1 else 0 := by
  obtain ⟨d, j, op, status, rfl, -, hpicks, rfl⟩ | ⟨d, j, op, status, done, rfl, hfinishes, rfl⟩
    | ⟨rfl, rfl⟩ := move_cases hstep
  · show ([].count i + _) = _
    rw [List.count_nil, Nat.zero_add]
    by_cases hij : i = j
    · -- whoever starts an I/O is not complete
      subst hij
      obtain ⟨e, he, hflight, hstart⟩ := hpicks.exists_entry
      rw [if_neg (not_complete_of_start (h.locals i) hflight hstart),
        if_neg (not_complete_start hpicks.idle he)]
    · rw [config_start_of_ne hpicks.idle hij]
  · rw [hfinishes.reported_eq]
    by_cases hij : i = j
    · -- the end of an I/O reports exactly what it completes
      subst hij
      obtain ⟨e, he, hflight, -⟩ := hfinishes.exists_entry
      have hcomplete := h.complete_served_iff hfinishes
      rw [if_neg (not_complete_of_flight hflight)]
      by_cases hd : done = true
      · rw [if_pos hd, if_pos (hcomplete.mpr hd), List.count_singleton_self]
      · rw [if_neg hd, if_neg (mt hcomplete.mp hd), List.count_nil]
    · rw [config_served_of_ne hfinishes.serving hij]
      have hzero : (if done = true then [j] else []).count i = 0 := by
        split
        · exact List.count_eq_zero.mpr fun hmem => hij (List.mem_singleton.mp hmem)
        · exact List.count_nil
      rw [hzero, Nat.zero_add]
  · show ([].count i + _) = _
    rw [List.count_nil, Nat.zero_add]
    rfl

/-- A run reports a request as often as it completes it. -/
theorem Inv.count_trace_reported (h : s.Inv) {moves : List (Move c)}
    (hrun : (disks c within).run moves s = some s') (i : c.Index) :
    (((disks c within).trace reported moves s).count i + if (c.kind i).Complete (s.config i) then 1 else 0)
      = if (c.kind i).Complete (s'.config i) then 1 else 0 := by
  induction moves generalizing s with
  | nil =>
    cases hrun
    exact Nat.zero_add _
  | cons m moves ih =>
    obtain ⟨t, hstep, hrest⟩ := Option.bind_eq_some_iff.mp hrun
    have hfirst := h.count_reported hstep i
    have hlast := ih (h.move hstep) hrest
    show ((s.reported m ++ ((disks c within).step m s).elim [] _).count i + _) = _
    rw [hstep, List.count_append]
    show ((s.reported m).count i + ((disks c within).trace reported moves t).count i + _) = _
    omega

/-! ## The simulator moves the disks -/

/-- Every bound leaves fewer moves than none. -/
theorem step_free (h : (disks c within).step m s = some s') : (free c).step m s = some s' := by
  cases m with
  | pick d i =>
    show (if True then s.pick d i else none) = some s'
    rw [if_pos trivial]
    exact (pick_of_step h).2
  | finish d => exact h
  | stop => exact h

/-- Restricting the picks restricts the states. -/
theorem disks_free (h : (disks c within).Reachable s) : (free c).Reachable s :=
  h.invariant ⟨[], rfl⟩ fun _ _ _ hstep ht => ht.step (step_free hstep)

/-- **The scheduler picks within the window.** -/
theorem untimed_windowed (h : (untimed c).Reachable s) : (windowed c).Reachable s := by
  have hnext : ∀ t t' : Core c, t.getNextIOs = some t' → (windowed c).Reachable t → (windowed c).Reachable t' := by
    intro t t' hnext ht
    refine getNextIOs_invariant hnext ht (fun u d i op status hu hstarts => ?_) fun hcount hne => ?_
    · have hpick : u.pick d i = some (u.start d i op status) := Picks.pick_eq ⟨hstarts.idle, hstarts.schedule⟩
      exact hu.step (a := Move.pick d i) ((if_pos hstarts.eligible).trans hpick)
    · exact ht.step (a := Move.stop) (if_pos ⟨hcount, hne⟩)
  refine h.invariant (untimed_init ⟨[], rfl⟩ fun t ht => hnext _ t ht ⟨[], rfl⟩) fun d t t' hstep ht => ?_
  obtain ⟨u, hfinish, hu⟩ := Option.bind_eq_some_iff.mp hstep
  exact hnext u t' hu (ht.step (a := Move.finish d) hfinish)

end Core

end Cs537.Graphics
