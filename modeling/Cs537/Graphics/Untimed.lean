import Mathlib.Data.Int.Order.Basic
import Cs537.Lib.Transition
import Cs537.Graphics.Queue
import Cs537.Graphics.Simulator

/-!
# The simulator without its clock

Which I/O a disk starts depends on the statuses, the window and on which disks are idle; heads, seeks and
transfer counts only decide which disk finishes next. `untimed` leaves that choice open: in each step some
busy disk finishes and `GetNextIOs` runs.
-/

namespace Cs537.Graphics

/-- The part of the state that scheduling depends on. A busy disk serves a request with an operation. -/
structure Core (c : Config) where
  status : c.Index → Statuses
  serving : Disk → Option (c.Index × OpType)
  requestCount : ℤ
  window : ℤ
  logicalRequests : ℕ
  isDone : Bool
  log : List (Event c)

variable {c : Config}

namespace Core

/-- The state before `Start`. -/
def init (c : Config) : Core c where
  status _ := .init
  serving _ := none
  requestCount := 0
  window := c.window
  logicalRequests := 0
  isDone := false
  log := []

/-- `disk` starts an I/O for the request at `index`. -/
def start (s : Core c) (disk : Disk) (index : c.Index) (op : OpType) (status : Statuses) : Core c :=
  { s with
    status := Function.update s.status index status
    serving := Function.update s.serving disk (some (index, op))
    log := s.log ++ [Event.mk .start disk index op] }

/-- The request is within the window. -/
def Eligible (s : Core c) (index : c.Index) : Prop := s.window = -1 ∨ (index : ℤ) < s.window

instance (s : Core c) (index : c.Index) : Decidable (s.Eligible index) :=
  inferInstanceAs (Decidable (_ ∨ _))

/-- The scheduler looks at one disk and one request. -/
def schedule (s : Core c) (disk : Disk) (index : c.Index) : Core c :=
  if s.serving disk = none ∧ s.Eligible index then
    match (c.request index).doScheduling c.mapping (s.status index) disk with
    | none => s
    | some r => s.start disk index r.1 r.2
  else s

/-- The scheduler looks at every request for one disk. -/
def scheduleDisk (s : Core c) (disk : Disk) : Core c :=
  (List.finRange c.requestQueue.length).foldl (fun s index => s.schedule disk index) s

/-- The scheduler looks at every disk. -/
def scheduleDisks (s : Core c) : Core c := (List.finRange 4).foldl scheduleDisk s

/-- `GetNextIOs`; `none` is the exception of `PrintStats`, which divides by the number of requests done. -/
def getNextIOs (s : Core c) : Option (Core c) :=
  if s.requestCount = c.requestCountNeeded then
    if s.logicalRequests = 0 then none else some { s with isDone := true }
  else some s.scheduleDisks

/-- What a finished I/O leaves, given the new statuses and whether the request is done. -/
def served (s : Core c) (disk : Disk) (index : c.Index) (op : OpType) (status : Statuses)
    (requestDone : Bool) : Core c :=
  { s with
    status := Function.update s.status index status
    serving := Function.update s.serving disk none
    requestCount := s.requestCount + 1
    window := if requestDone ∧ 0 < s.window then s.window + 1 else s.window
    logicalRequests := if requestDone then s.logicalRequests + 1 else s.logicalRequests
    log := s.log ++ [Event.mk .finish disk index op] }

/-- The I/O of `disk` finishes; `none` when the disk is idle or an exception is raised. -/
def finish (s : Core c) (disk : Disk) : Option (Core c) := do
  let (index, op) ← s.serving disk
  let entry ← (c.request index).diskIndex disk
  let (status, requestDone) ← (c.request index).requestDone c.mapping (s.status index) entry
  return s.served disk index op status requestDone

/-- `disk` finishes, and the scheduler runs. -/
def step (disk : Disk) (s : Core c) : Option (Core c) := (s.finish disk).bind getNextIOs

end Core

/-- The simulator, with the disks finishing in any order. An exception of `Start` leaves it as it was. -/
def untimed (c : Config) : Transition.System (Core c) Disk where
  init := (Core.init c).getNextIOs.getD (Core.init c)
  step := Core.step

namespace Core

section Updates

variable (s : Core c) (d d' : Disk) (i j : c.Index) (op : OpType) (status : Statuses) (done : Bool)

theorem start_serving : (s.start d i op status).serving d' = if d' = d then some (i, op) else s.serving d' :=
  Function.update_apply ..

theorem start_status : (s.start d i op status).status j = if j = i then status else s.status j :=
  Function.update_apply ..

theorem served_serving :
    (s.served d i op status done).serving d' = if d' = d then none else s.serving d' :=
  Function.update_apply ..

theorem served_status :
    (s.served d i op status done).status j = if j = i then status else s.status j :=
  Function.update_apply ..

end Updates

/-! ## Rules for the scheduler -/

/-- If the disk is idle, it has nothing to start. -/
def QuietOn (s : Core c) (disk : Disk) : Prop :=
  ∀ index, s.serving disk = none → s.Eligible index →
    (c.request index).doScheduling c.mapping (s.status index) disk = none

/-- An idle disk takes the first request of those that have anything for it. -/
structure TakesFirst (s : Core c) (disk : Disk) (index : c.Index) (op : OpType) (status : Statuses) : Prop where
  idle : s.serving disk = none
  eligible : s.Eligible index
  schedule : (c.request index).doScheduling c.mapping (s.status index) disk = some (op, status)
  first : ∀ j < index, (c.request j).doScheduling c.mapping (s.status j) disk = none

/-- The scheduler starts an I/O: the disk is idle, the request is within the window and calls for the I/O, and
no request ahead of it has anything for the disk. -/
structure Starts (s : Core c) (disk : Disk) (index : c.Index) (op : OpType) (status : Statuses) : Prop where
  idle : s.serving disk = none
  eligible : s.Eligible index
  count : s.requestCount ≠ c.requestCountNeeded
  schedule : (c.request index).doScheduling c.mapping (s.status index) disk = some (op, status)
  first : ∀ j < index, (c.request j).doScheduling c.mapping (s.status j) disk = none

/-- What is ahead of a request within the window is within the window. -/
theorem Eligible.of_lt {s : Core c} {i j : c.Index} (h : s.Eligible i) (hlt : j < i) : s.Eligible j := by
  rcases h with hall | hi
  · exact .inl hall
  · refine .inr (lt_trans ?_ hi)
    exact Int.ofNat_lt.mpr hlt

section

variable {s : Core c} {d : Disk}

/-- A busy disk does not look at the queue. -/
theorem schedule_busy {i : c.Index} (hbusy : s.serving d ≠ none) : s.schedule d i = s := if_neg fun h => hbusy h.1

/-- Once the disk is busy, the rest of its loop does nothing. -/
theorem foldl_schedule_busy (hbusy : s.serving d ≠ none) (rest : List c.Index) :
    rest.foldl (fun s i => s.schedule d i) s = s := by
  induction rest with
  | nil => rfl
  | cons i rest ih => rw [List.foldl_cons, schedule_busy hbusy, ih]

/-- At most one request is the first that a disk takes. -/
theorem TakesFirst.unique {i j : c.Index} {op op' : OpType} {status status' : Statuses}
    (hi : s.TakesFirst d i op status) (hj : s.TakesFirst d j op' status') : i = j ∧ op = op' := by
  rcases lt_trichotomy i j with hlt | rfl | hlt
  · cases hi.schedule.symm.trans (hj.first i hlt)
  · cases hi.schedule.symm.trans hj.schedule
    exact ⟨rfl, rfl⟩
  · cases hj.schedule.symm.trans (hi.first j hlt)

/-- The loop for an idle disk starts the first I/O there is, or leaves everything as it was. -/
theorem foldl_schedule_cases (hidle : s.serving d = none) {rest : List c.Index} (hsorted : rest.Pairwise (· < ·))
    (hseen : ∀ j ∉ rest, s.Eligible j → (c.request j).doScheduling c.mapping (s.status j) d = none) :
    (rest.foldl (fun s i => s.schedule d i) s = s ∧ s.QuietOn d)
      ∨ ∃ i op status, s.TakesFirst d i op status
        ∧ rest.foldl (fun s i => s.schedule d i) s = s.start d i op status := by
  induction rest with
  | nil => exact .inl ⟨rfl, fun i _ helig => hseen i List.not_mem_nil helig⟩
  | cons i rest ih =>
    obtain ⟨hlt, hsorted⟩ := List.pairwise_cons.mp hsorted
    rw [List.foldl_cons]
    by_cases helig : s.Eligible i
    · cases hschedule : (c.request i).doScheduling c.mapping (s.status i) d with
      | none =>
        have heq : s.schedule d i = s := by
          unfold schedule
          rw [if_pos ⟨hidle, helig⟩, hschedule]
        rw [heq]
        refine ih hsorted fun j hj hjelig => ?_
        by_cases hji : j = i
        · rw [hji, hschedule]
        · exact hseen j (fun hmem => (List.mem_cons.mp hmem).elim hji hj) hjelig
      | some r =>
        have heq : s.schedule d i = s.start d i r.1 r.2 := by
          unfold schedule
          rw [if_pos ⟨hidle, helig⟩, hschedule]
        have hbusy : (s.start d i r.1 r.2).serving d ≠ none := by
          rw [start_serving, if_pos rfl]
          exact Option.some_ne_none _
        rw [heq, foldl_schedule_busy hbusy]
        refine .inr ⟨i, r.1, r.2, ⟨hidle, helig, hschedule, fun j hj => ?_⟩, rfl⟩
        -- a request ahead of `i` has been seen: those still to come are behind it
        refine hseen j (fun hmem => ?_) (helig.of_lt hj)
        rcases List.mem_cons.mp hmem with rfl | hmem
        · exact lt_irrefl _ hj
        · exact lt_asymm hj (hlt j hmem)
    · have heq : s.schedule d i = s := if_neg fun h => helig h.2
      rw [heq]
      refine ih hsorted fun j hj hjelig => ?_
      by_cases hji : j = i
      · exact absurd (hji ▸ hjelig) helig
      · exact hseen j (fun hmem => (List.mem_cons.mp hmem).elim hji hj) hjelig

/-- **What the scheduler does for one disk.** -/
theorem scheduleDisk_cases (s : Core c) (d : Disk) :
    (s.scheduleDisk d = s ∧ s.QuietOn d)
      ∨ ∃ i op status, s.TakesFirst d i op status ∧ s.scheduleDisk d = s.start d i op status := by
  by_cases hidle : s.serving d = none
  · exact foldl_schedule_cases hidle (List.pairwise_lt_finRange _) fun j hj => absurd (List.mem_finRange j) hj
  · exact .inl ⟨foldl_schedule_busy hidle _, fun _ hnone => absurd hnone hidle⟩

end

/-- What `GetNextIOs` does: it stops the simulation, or the scheduler looks at every disk. -/
theorem getNextIOs_eq_some_iff {s t : Core c} : s.getNextIOs = some t ↔
    (s.requestCount = c.requestCountNeeded ∧ s.logicalRequests ≠ 0 ∧ t = { s with isDone := true })
      ∨ (s.requestCount ≠ c.requestCountNeeded ∧ t = s.scheduleDisks) := by
  unfold getNextIOs
  split
  · rename_i hcount
    split
    · rename_i hzero
      simp [hcount, hzero]
    · rename_i hne
      simp [hcount, hne, eq_comm]
  · rename_i hcount
    simp [hcount, eq_comm]

/-- What every start of an I/O keeps, a run of the scheduler keeps. -/
theorem scheduleDisks_invariant {P : Core c → Prop} {s : Core c} (hs : P s)
    (hstart : ∀ (t : Core c) (disk : Disk) (index : c.Index) (op : OpType) (status : Statuses), P t →
      t.Starts disk index op status → P (t.start disk index op status))
    (hcount : s.requestCount ≠ c.requestCountNeeded) : P s.scheduleDisks := by
  refine (List.foldlRecOn (motive := fun t => P t ∧ t.requestCount ≠ c.requestCountNeeded) _ _ ⟨hs, hcount⟩
    fun t ht disk _ => ?_).1
  rcases t.scheduleDisk_cases disk with ⟨heq, -⟩ | ⟨index, op, status, htakes, heq⟩
  · rwa [heq]
  · rw [heq]
    refine ⟨hstart t disk index op status ht.1 ?_, ht.2⟩
    exact ⟨htakes.idle, htakes.eligible, ht.2, htakes.schedule, htakes.first⟩

/-- What every start of an I/O and the end of the simulation keep, `GetNextIOs` keeps. -/
theorem getNextIOs_invariant {P : Core c → Prop} {s t : Core c} (hnext : s.getNextIOs = some t) (hs : P s)
    (hstart : ∀ (t : Core c) (disk : Disk) (index : c.Index) (op : OpType) (status : Statuses), P t →
      t.Starts disk index op status → P (t.start disk index op status))
    (hstop : s.requestCount = c.requestCountNeeded → s.logicalRequests ≠ 0 → P { s with isDone := true }) : P t := by
  rcases getNextIOs_eq_some_iff.mp hnext with ⟨hcount, hne, rfl⟩ | ⟨hcount, rfl⟩
  · exact hstop hcount hne
  · exact scheduleDisks_invariant hs hstart hcount

/-- What `Start` establishes, if it does not fail, holds to begin with. -/
theorem untimed_init {P : Core c → Prop} (hinit : P (init c)) (hnext : ∀ t, (init c).getNextIOs = some t → P t) :
    P (untimed c).init := by
  show P ((init c).getNextIOs.getD (init c))
  cases heq : (init c).getNextIOs with
  | none => exact hinit
  | some t => exact hnext t heq

/-- The I/O of a disk ends, with the statuses that the completion method of the mapping leaves. -/
structure Finishes (s : Core c) (disk : Disk) (index : c.Index) (op : OpType) (status : Statuses)
    (requestDone : Bool) : Prop where
  serving : s.serving disk = some (index, op)
  done : ∃ entry, (c.request index).diskIndex disk = some entry
    ∧ (c.request index).requestDone c.mapping (s.status index) entry = some (status, requestDone)

/-- What a disk serves when it finishes. -/
theorem exists_served {s s' : Core c} {disk : Disk} (h : s.finish disk = some s') :
    ∃ index op status requestDone, s.Finishes disk index op status requestDone
      ∧ s' = s.served disk index op status requestDone := by
  unfold finish at h
  simp only [Option.bind_eq_bind, Option.bind_eq_some_iff] at h
  obtain ⟨⟨index, op⟩, hserving, entry, hentry, ⟨status, requestDone⟩, hdone, hserved⟩ := h
  cases hserved
  exact ⟨index, op, status, requestDone, ⟨hserving, entry, hentry, hdone⟩, rfl⟩

/-- An end that is possible happens. -/
theorem Finishes.finish_eq {s : Core c} {disk : Disk} {index : c.Index} {op : OpType} {status : Statuses}
    {requestDone : Bool} (h : s.Finishes disk index op status requestDone) :
    s.finish disk = some (s.served disk index op status requestDone) := by
  obtain ⟨hserving, entry, hentry, hdone⟩ := h
  unfold finish
  rw [hserving]
  show ((c.request index).diskIndex disk).bind _ = _
  rw [hentry]
  show Option.bind ((c.request index).requestDone c.mapping (s.status index) entry) _ = _
  rw [hdone]
  rfl

/-- What the start and the end of every I/O keep holds in every reachable state. -/
theorem reachable_of_events {P : Core c → Prop} {s : Core c} (h : (untimed c).Reachable s)
    (hinit : P (init c))
    (hstart : ∀ (t : Core c) (disk : Disk) (index : c.Index) (op : OpType) (status : Statuses), P t →
      t.Starts disk index op status → P (t.start disk index op status))
    (hserved : ∀ (t : Core c) (disk : Disk) (index : c.Index) (op : OpType) (status : Statuses)
      (requestDone : Bool), P t → t.Finishes disk index op status requestDone →
      P (t.served disk index op status requestDone))
    (hstop : ∀ t : Core c, P t → P { t with isDone := true }) : P s := by
  have hnext : ∀ t t' : Core c, t.getNextIOs = some t' → P t → P t' := fun t t' hnext ht =>
    getNextIOs_invariant hnext ht hstart fun _ _ => hstop t ht
  refine h.invariant (untimed_init hinit fun t ht => hnext _ t ht hinit) fun disk t t' hstep ht => ?_
  obtain ⟨u, hfinish, hu⟩ := Option.bind_eq_some_iff.mp hstep
  obtain ⟨index, op, status, requestDone, hfinishes, rfl⟩ := exists_served hfinish
  exact hnext _ t' hu (hserved t disk index op status requestDone ht hfinishes)

/-- Some disk is busy. -/
def Busy (s : Core c) : Prop := ∃ disk, s.serving disk ≠ none

/-- A start leaves its disk busy. -/
theorem busy_of_start (s : Core c) (disk : Disk) (index : c.Index) (op : OpType) (status : Statuses) :
    (s.start disk index op status).Busy := by
  refine ⟨disk, ?_⟩
  rw [start_serving, if_pos rfl]
  exact Option.some_ne_none _

/-- No idle disk has anything to start. -/
def Quiet (s : Core c) : Prop :=
  ∀ disk index, s.serving disk = none → s.Eligible index →
    (c.request index).doScheduling c.mapping (s.status index) disk = none

/-- The scheduler leaves a busy disk, unless there is nothing to start. -/
theorem scheduleDisks_cases (s : Core c) : (s.scheduleDisks = s ∧ s.Quiet) ∨ s.scheduleDisks.Busy := by
  have hloop : ∀ (disks : List Disk) (t : Core c), (disks.foldl scheduleDisk t = t ∧ ∀ disk ∈ disks, t.QuietOn disk)
      ∨ (disks.foldl scheduleDisk t).Busy := by
    intro disks
    induction disks with
    | nil => exact fun t => .inl ⟨rfl, nofun⟩
    | cons disk disks ih =>
      intro t
      rw [List.foldl_cons]
      rcases t.scheduleDisk_cases disk with ⟨heq, hquiet⟩ | ⟨index, op, status, -, heq⟩
      · rw [heq]
        exact (ih t).imp_left fun ⟨hrest, hall⟩ => ⟨hrest, List.forall_mem_cons.mpr ⟨hquiet, hall⟩⟩
      · -- the rest of the loop changes nothing, or starts something as well
        rw [heq]
        rcases ih (t.start disk index op status) with ⟨hrest, -⟩ | hbusy
        · rw [hrest]
          exact .inr (busy_of_start ..)
        · exact .inr hbusy
  refine (hloop (List.finRange 4) s).imp_left fun ⟨heq, hall⟩ => ⟨heq, ?_⟩
  exact fun disk => hall disk (List.mem_finRange disk)

end Core

end Cs537.Graphics
