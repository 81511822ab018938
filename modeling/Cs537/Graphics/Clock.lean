import Mathlib.Algebra.Order.Ring.Int
import Cs537.Graphics.Progress

/-!
# The clocked simulator refines the untimed one

`State.core` forgets heads, seeks and transfers. Every tick of a disk either leaves this part alone and
brings the disk closer to the end of its I/O, or is the step of the untimed simulator in which the disk
finishes.
-/

namespace Cs537.Graphics

variable {c : Config}

namespace State

variable {s s' t : State c} {d d' : Disk} {i : c.Index} {op : OpType} {status : Statuses}

/-- The part of the state that scheduling depends on. -/
def core (s : State c) : Core c where
  status := s.status
  serving d := if s.diskState d = .null then none
    else (s.currentTarget d).bind fun i => (s.currentOptype d).map fun op => (i, op)
  requestCount := s.requestCount
  window := s.window
  logicalRequests := s.logicalRequests
  isDone := s.isDone
  log := s.log

/-- The head is a number of seek steps away from the row, in the direction of the seek. -/
def Approaches (s : State c) (d : Disk) (i : c.Index) : Prop :=
  (s.seekDelta d = c.seekSpeed ∨ s.seekDelta d = -c.seekSpeed)
    ∧ ∃ k : ℕ, offsetToYpos (c.request i).physOffset - s.headPosition d = k * s.seekDelta d

/-- The clock of one disk: a busy disk knows what it serves, its head stands on a multiple of the seek speed,
a seek leads to its row, and a transfer has ticks left. -/
structure DiskTiming (s : State c) (d : Disk) : Prop where
  target : s.diskState d ≠ .null → ∃ i op, s.currentTarget d = some i ∧ s.currentOptype d = some op
  aligned : c.seekSpeed ∣ s.headPosition d - 100
  seek : ∀ i, s.diskState d = .seek → s.currentTarget d = some i → s.Approaches d i
  xfer : s.diskState d = .xfer → 0 < s.transferCount d

/-- Two states agree on a disk. -/
structure SameDisk (s s' : State c) (d : Disk) : Prop where
  diskState : s'.diskState d = s.diskState d
  currentTarget : s'.currentTarget d = s.currentTarget d
  currentOptype : s'.currentOptype d = s.currentOptype d
  headPosition : s'.headPosition d = s.headPosition d
  seekDelta : s'.seekDelta d = s.seekDelta d
  transferCount : s'.transferCount d = s.transferCount d

/-- What a disk knows about its own timing depends on its own fields. -/
theorem DiskTiming.congr {s' : State c} (h : s.DiskTiming d) (hsame : SameDisk s s' d) :
    s'.DiskTiming d where
  target := by
    rw [hsame.diskState, hsame.currentTarget, hsame.currentOptype]
    exact h.target
  aligned := by
    rw [hsame.headPosition]
    exact h.aligned
  seek := by
    unfold Approaches
    rw [hsame.diskState, hsame.currentTarget, hsame.headPosition, hsame.seekDelta]
    exact h.seek
  xfer := by
    rw [hsame.diskState, hsame.transferCount]
    exact h.xfer

/-- The invariant of the clock. -/
structure Timing (s : State c) : Prop where
  disk : ∀ d, s.DiskTiming d
  animate : s.doAnimate = !s.isDone

/-- Busy disks know what they serve. -/
def Targeted (s : State c) : Prop :=
  ∀ d, s.diskState d ≠ .null → ∃ i op, s.currentTarget d = some i ∧ s.currentOptype d = some op

theorem Timing.targeted (h : s.Timing) : s.Targeted := fun d => (h.disk d).target

theorem core_init : (State.init c).core = Core.init c := rfl

/-- The timing holds at the start. -/
theorem init_timing : (State.init c).Timing where
  disk _ := ⟨fun h => absurd rfl h, by simp [State.init], nofun, nofun⟩
  animate := rfl

/-- A disk is idle in both views of the state. -/
theorem core_serving_eq_none_iff
    (h : s.diskState d ≠ .null → ∃ i op, s.currentTarget d = some i ∧ s.currentOptype d = some op) :
    s.core.serving d = none ↔ s.diskState d = .null := by
  show (if s.diskState d = .null then none else _) = none ↔ _
  by_cases hnull : s.diskState d = .null
  · rw [if_pos hnull]
    exact ⟨fun _ => hnull, fun _ => rfl⟩
  · obtain ⟨i, op, htarget, hoptype⟩ := h hnull
    rw [if_neg hnull, htarget, hoptype]
    exact ⟨fun heq => (nomatch heq), fun heq => absurd heq hnull⟩

theorem core_serving (hnull : s.diskState d ≠ .null) (htarget : s.currentTarget d = some i)
    (hoptype : s.currentOptype d = some op) : s.core.serving d = some (i, op) := by
  show (if s.diskState d = .null then none else _) = _
  rw [if_neg hnull, htarget, hoptype]
  rfl

/-! ## Starting I/Os -/

/-- `SetSeekDirection` turns towards the row. -/
theorem approaches_of_aligned {head delta : ℤ} {offset : ℕ} (haligned : c.seekSpeed ∣ head - 100)
    (hdelta : delta = if head < offsetToYpos offset then c.seekSpeed else -c.seekSpeed) :
    (delta = c.seekSpeed ∨ delta = -c.seekSpeed)
      ∧ ∃ k : ℕ, offsetToYpos offset - head = k * delta := by
  have hpos := c.seekSpeed_pos
  have hdvd : c.seekSpeed ∣ offsetToYpos offset - head := by
    have hrow : c.seekSpeed ∣ offsetToYpos offset - 100 := by
      unfold offsetToYpos
      rw [add_sub_cancel_right]
      exact Dvd.dvd.mul_right c.seekSpeed_dvd _
    have hsub := Int.dvd_sub hrow haligned
    rwa [sub_sub_sub_cancel_right] at hsub
  obtain ⟨q, hq⟩ := hdvd
  -- the quotient, without its sign, is the number of moves
  split at hdelta
  · rename_i hlt
    refine ⟨.inl hdelta, q.toNat, ?_⟩
    have hnonneg : 0 ≤ q := by
      by_contra hneg
      have := mul_neg_of_pos_of_neg hpos (not_le.mp hneg)
      omega
    rw [hdelta, Int.toNat_of_nonneg hnonneg, hq, mul_comm]
  · rename_i hge
    refine ⟨.inr hdelta, (-q).toNat, ?_⟩
    have hnonneg : 0 ≤ -q := by
      by_contra hneg
      have := mul_pos hpos (show 0 < q by omega)
      omega
    rw [hdelta, Int.toNat_of_nonneg hnonneg, hq, neg_mul_neg, mul_comm]

section

variable (s) (d i op status)

/-- What a disk does when it starts an I/O. -/
def begin : State c := { s.markStart i with status := Function.update s.status i status }.startRequest d i op

/-- `MarkStart` changes a start time at most. -/
theorem markStart_eq : ∃ startTime, s.markStart i = { s with startTime := startTime } := by
  unfold markStart
  split
  · exact ⟨_, rfl⟩
  · exact ⟨_, rfl⟩

end

/-- Starting an I/O is the same in the untimed part. -/
theorem core_begin : (s.begin d i op status).core = s.core.start d i op status := by
  obtain ⟨startTime, hstart⟩ := markStart_eq s i
  unfold begin core Core.start
  rw [hstart]
  simp only [Core.mk.injEq]
  refine ⟨rfl, ?_, rfl, rfl, rfl, rfl, rfl⟩
  funext d'
  show (if Function.update s.diskState d .seek d' = .null then none else
      (Function.update s.currentTarget d (some i) d').bind fun i =>
        (Function.update s.currentOptype d (some op) d').map fun op => (i, op)) = _
  by_cases hd : d' = d
  · rw [hd]
    simp only [Function.update_self]
    rfl
  · simp only [Function.update_of_ne hd]

/-- Starting an I/O concerns its disk only. -/
theorem sameDisk_begin (hd : d' ≠ d) : SameDisk s (s.begin d i op status) d' := by
  obtain ⟨startTime, hstart⟩ := markStart_eq s i
  unfold begin
  rw [hstart]
  constructor
  all_goals first | exact Function.update_of_ne hd .. | rfl

/-- The disk that starts an I/O seeks towards its row. -/
theorem DiskTiming.begin (h : s.DiskTiming d) : (s.begin d i op status).DiskTiming d := by
  obtain ⟨startTime, hstart⟩ := markStart_eq s i
  have hstate : (s.begin d i op status).diskState d = .seek := Function.update_self ..
  have htarget : (s.begin d i op status).currentTarget d = some i := Function.update_self ..
  have hoptype : (s.begin d i op status).currentOptype d = some op := Function.update_self ..
  have hhead : (s.begin d i op status).headPosition d = s.headPosition d := by
    unfold State.begin
    rw [hstart]
    rfl
  have hdelta : (s.begin d i op status).seekDelta d
      = if s.headPosition d < offsetToYpos (c.request i).physOffset then c.seekSpeed
        else -c.seekSpeed := by
    unfold State.begin
    rw [hstart]
    exact Function.update_self ..
  refine ⟨fun _ => ⟨i, op, htarget, hoptype⟩, ?_, fun j _ hj => ?_, fun heq => ?_⟩
  · rw [hhead]
    exact h.aligned
  · cases htarget.symm.trans hj
    unfold Approaches
    rw [hhead]
    exact approaches_of_aligned h.aligned hdelta
  · rw [hstate] at heq
    cases heq

/-- A disk that starts an I/O has its timing. -/
theorem Timing.begin (h : s.Timing) : (s.begin d i op status).Timing := by
  refine ⟨fun d' => ?_, ?_⟩
  · by_cases hd : d' = d
    · rw [hd]
      exact (h.disk d).begin
    · exact (h.disk d').congr (sameDisk_begin hd)
  · obtain ⟨startTime, hstart⟩ := markStart_eq s i
    unfold State.begin
    rw [hstart]
    exact h.animate

/-- A disk that starts an I/O has its target. -/
theorem Targeted.begin (h : s.Targeted) : (s.begin d i op status).Targeted := by
  intro d' hbusy
  by_cases hd : d' = d
  · subst hd
    exact ⟨i, op, Function.update_self .., Function.update_self ..⟩
  · have hsame : SameDisk s (s.begin d i op status) d' := sameDisk_begin hd
    rw [hsame.diskState] at hbusy
    rw [hsame.currentTarget, hsame.currentOptype]
    exact h d' hbusy

/-- Looking at one request: nothing happens, or the idle disk starts an I/O that the request asks for. -/
theorem schedule_cases (s : State c) (d : Disk) (i : c.Index) :
    s.schedule d i = s ∨ (s.diskState d = .null ∧ ∃ op status,
      (c.request i).doScheduling c.mapping (s.status i) d = some (op, status)
        ∧ s.schedule d i = s.begin d i op status) := by
  unfold schedule
  split
  · rename_i hnull
    split
    · exact .inl rfl
    · rename_i hsome
      exact .inr ⟨hnull, _, _, hsome, rfl⟩
  · exact .inl rfl

section

variable {P : State c → Prop}
variable (hbegin : ∀ (t : State c) (d : Disk) (i : c.Index) (op : OpType) (status : Statuses), P t →
  t.diskState d = .null → (c.request i).doScheduling c.mapping (t.status i) d = some (op, status) →
  P (t.begin d i op status))
include hbegin

/-- What every start keeps, looking at one request keeps. -/
theorem schedule_invariant (hs : P s) (d : Disk) (i : c.Index) : P (s.schedule d i) := by
  rcases s.schedule_cases d i with heq | ⟨hnull, op, status, hsome, heq⟩
  · rwa [heq]
  · rw [heq]
    exact hbegin s d i op status hs hnull hsome

/-- What every start keeps, the loop over the queue keeps. -/
theorem scheduleDisk_invariant (hs : P s) (d : Disk) (rest : List c.Index) (count : ℤ) :
    P (scheduleDisk d rest count s) := by
  induction rest generalizing s count with
  | nil => exact hs
  | cons i rest ih =>
    unfold scheduleDisk
    split
    · exact ih hs count
    · exact ih (schedule_invariant hbegin hs d i) (count + 1)

/-- What every start of an I/O keeps, the scheduler keeps. -/
theorem scheduleDisks_invariant (hs : P s) : P s.scheduleDisks :=
  List.foldlRecOn _ _ hs fun _ ht d _ => scheduleDisk_invariant hbegin ht d _ 0

end

/-- What `GetNextIOs` does: it stops the simulation, or the scheduler looks at every disk. -/
theorem getNextIOs_eq_some_iff : s.getNextIOs = some t ↔
    (s.requestCount = c.requestCountNeeded ∧ s.logicalRequests ≠ 0
        ∧ t = { s with doAnimate := false, isDone := true })
      ∨ (s.requestCount ≠ c.requestCountNeeded ∧ t = s.scheduleDisks) := by
  unfold getNextIOs printStats
  split
  · rename_i hcount
    split
    · rename_i hzero
      simp [hcount, hzero]
    · rename_i hne
      simp [hcount, hne, eq_comm]
  · rename_i hcount
    simp [hcount, eq_comm]

/-- What every start of an I/O and the end of the simulation keep, `GetNextIOs` keeps. -/
theorem getNextIOs_invariant {P : State c → Prop} (hnext : s.getNextIOs = some t)
    (hbegin : ∀ (t : State c) (d : Disk) (i : c.Index) (op : OpType) (status : Statuses), P t →
      t.diskState d = .null → (c.request i).doScheduling c.mapping (t.status i) d = some (op, status) →
      P (t.begin d i op status))
    (hs : P s) (hstop : P { s with doAnimate := false, isDone := true }) : P t := by
  rcases getNextIOs_eq_some_iff.mp hnext with ⟨-, -, rfl⟩ | ⟨-, rfl⟩
  · exact hstop
  · exact scheduleDisks_invariant hbegin hs

/-- `GetNextIOs` keeps the timing. -/
theorem Timing.getNextIOs (h : s.Timing) (hnext : s.getNextIOs = some t) : t.Timing :=
  getNextIOs_invariant hnext (fun _ _ _ _ _ ht _ _ => ht.begin) h
    ⟨fun d => (h.disk d).congr ⟨rfl, rfl, rfl, rfl, rfl, rfl⟩, rfl⟩

/-- Looking at one request within the window. -/
theorem core_schedule (h : s.Targeted) (helig : s.core.Eligible i) :
    (s.schedule d i).core = s.core.schedule d i := by
  unfold schedule Core.schedule
  by_cases hnull : s.diskState d = .null
  · rw [if_pos hnull, if_pos ⟨(core_serving_eq_none_iff (h d)).mpr hnull, helig⟩]
    have hstatus : s.core.status i = s.status i := rfl
    rw [hstatus]
    cases (c.request i).doScheduling c.mapping (s.status i) d with
    | none => rfl
    | some r => exact core_begin
  · rw [if_neg hnull, if_neg fun hboth => hnull ((core_serving_eq_none_iff (h d)).mp hboth.1)]

/-- The scheduler's `count` tells which requests are within the window. -/
theorem core_scheduleDisk (d : Disk) (rest : List c.Index) (k : ℕ) (count : ℤ) (s : State c)
    (hrest : rest.map Fin.val = List.range' k rest.length)
    (hcount : count = k ∨ (s.window ≠ -1 ∧ s.window ≤ count ∧ s.window ≤ k)) (h : s.Targeted) :
    (scheduleDisk d rest count s).core = rest.foldl (fun t i => t.schedule d i) s.core := by
  induction rest generalizing k count s with
  | nil => rfl
  | cons i rest ih =>
    rw [List.map_cons, List.length_cons, List.range'_succ, List.cons.injEq] at hrest
    obtain ⟨hi, hrest⟩ := hrest
    unfold scheduleDisk
    rw [List.foldl_cons]
    by_cases hskip : s.window ≠ -1 ∧ s.window ≤ count
    · -- outside the window
      have hnot : ¬ s.core.Eligible i := by
        rintro (hall | hlt)
        · exact hskip.1 hall
        · change ((i : ℕ) : ℤ) < s.window at hlt
          omega
      have hsame : s.core.schedule d i = s.core := if_neg fun hboth => hnot hboth.2
      rw [if_pos hskip, hsame]
      exact ih (k + 1) count s hrest (by omega) h
    · -- inside the window the count is the index
      have helig : s.core.Eligible i := by
        by_cases hall : s.window = -1
        · exact .inl hall
        · refine .inr ?_
          show ((i : ℕ) : ℤ) < s.window
          omega
      rw [if_neg hskip, ← core_schedule h helig]
      refine ih (k + 1) (count + 1) (s.schedule d i) hrest ?_ ?_
      · omega
      · exact schedule_invariant (fun _ _ _ _ _ ht _ _ => ht.begin) h d i

/-- The scheduler of the clocked simulator is that of the untimed one. -/
theorem core_scheduleDisks (h : s.Targeted) : s.scheduleDisks.core = s.core.scheduleDisks := by
  have hdisk : ∀ (d : Disk) (t : State c), t.Targeted →
      (scheduleDisk d (List.finRange c.requestQueue.length) 0 t).core = t.core.scheduleDisk d := fun d t ht =>
    core_scheduleDisk d _ 0 0 t (by rw [List.map_coe_finRange_eq_range, List.length_finRange,
      List.range_eq_range']) (.inl rfl) ht
  have hloop : ∀ (disks : List Disk) (t : State c), t.Targeted →
      (disks.foldl (fun s d => scheduleDisk d (List.finRange c.requestQueue.length) 0 s) t).core
        = disks.foldl Core.scheduleDisk t.core := by
    intro disks
    induction disks with
    | nil => exact fun t _ => rfl
    | cons d disks ih =>
      intro t ht
      rw [List.foldl_cons, List.foldl_cons, ← hdisk d t ht]
      exact ih _ (scheduleDisk_invariant (fun _ _ _ _ _ ht _ _ => ht.begin) ht d _ 0)
  exact hloop _ s h

/-- `GetNextIOs` of the clocked simulator is that of the untimed one, and fails where it does. -/
theorem core_getNextIOs (h : s.Targeted) : s.getNextIOs.map core = s.core.getNextIOs := by
  unfold getNextIOs printStats Core.getNextIOs
  by_cases hcount : s.requestCount = c.requestCountNeeded
  · rw [if_pos hcount, if_pos (show s.core.requestCount = _ from hcount)]
    by_cases hzero : s.logicalRequests = 0
    · rw [if_pos hzero, if_pos (show s.core.logicalRequests = 0 from hzero)]
      rfl
    · rw [if_neg hzero, if_neg (show s.core.logicalRequests ≠ 0 from hzero)]
      rfl
  · rw [if_neg hcount, if_neg (show s.core.requestCount ≠ _ from hcount)]
    exact congrArg some (core_scheduleDisks h)

/-- The state that `GetNextIOs` leaves. -/
theorem core_of_getNextIOs (h : s.Targeted) (hnext : s.getNextIOs = some t) : s.core.getNextIOs = some t.core := by
  rw [← core_getNextIOs h, hnext]
  rfl

/-! ## Finishing I/Os -/

/-- `MarkDone`, and what follows it, is the end of an I/O of the untimed simulator. -/
theorem core_markDone (hnull : s.diskState d ≠ .null) (htarget : s.currentTarget d = some i)
    (hoptype : s.currentOptype d = some op) :
    (s.markDone d).map (fun t => (t.release d).core) = s.core.finish d := by
  have hserving : ∀ (t : State c), t.diskState = s.diskState → t.currentTarget = s.currentTarget →
      t.currentOptype = s.currentOptype →
      (t.release d).core.serving = Function.update s.core.serving d none := by
    intro t hstate htargets hoptypes
    funext d'
    show (if Function.update t.diskState d .null d' = .null then none else _) = _
    by_cases hd : d' = d
    · rw [hd, Function.update_self, Function.update_self]
      rfl
    · rw [Function.update_of_ne hd, Function.update_of_ne hd, hstate]
      show (if s.diskState d' = .null then none
        else (t.currentTarget d').bind fun i => (t.currentOptype d').map fun op => (i, op)) = _
      rw [htargets, hoptypes]
      rfl
  unfold markDone Core.finish
  rw [core_serving hnull htarget hoptype, htarget, hoptype]
  show Option.map _ (((c.request i).diskIndex d).bind _) = ((c.request i).diskIndex d).bind _
  cases (c.request i).diskIndex d with
  | none => rfl
  | some e =>
    show Option.map _ (((c.request i).requestDone c.mapping (s.status i) e).bind _)
      = ((c.request i).requestDone c.mapping (s.status i) e).bind _
    cases (c.request i).requestDone c.mapping (s.status i) e with
    | none => rfl
    | some r =>
      obtain ⟨status, done⟩ := r
      -- a request that is done also moves the window
      cases done with
      | false =>
        refine congrArg some ?_
        unfold core Core.served
        simp only [Core.mk.injEq]
        exact ⟨rfl, hserving _ rfl rfl rfl, rfl, rfl, rfl, rfl, rfl⟩
      | true =>
        refine congrArg some ?_
        unfold core Core.served
        simp only [Core.mk.injEq]
        refine ⟨rfl, hserving _ rfl rfl rfl, rfl, ?_, rfl, rfl, rfl⟩
        simp only [true_and]
        rfl

/-- `MarkDone` does not touch the clock. -/
theorem markDone_frame {t : State c} (h : s.markDone d = some t) :
    (∀ d', SameDisk s t d') ∧ t.doAnimate = s.doAnimate ∧ t.isDone = s.isDone := by
  unfold markDone at h
  simp only [Option.bind_eq_bind, Option.bind_eq_some_iff] at h
  obtain ⟨i, -, op, -, e, -, ⟨status, done⟩, -, h⟩ := h
  cases done <;> cases h <;> exact ⟨fun _ => ⟨rfl, rfl, rfl, rfl, rfl, rfl⟩, rfl, rfl⟩

theorem sameDisk_release (hd : d' ≠ d) : SameDisk s (s.release d) d' :=
  ⟨Function.update_of_ne hd .., rfl, rfl, rfl, rfl, rfl⟩

/-- An idle disk only has to stand on a multiple of the seek speed. -/
theorem release_timing (hother : ∀ d', d' ≠ d → s.DiskTiming d')
    (haligned : c.seekSpeed ∣ s.headPosition d - 100) (hanimate : s.doAnimate = !s.isDone) :
    (s.release d).Timing := by
  refine ⟨fun d' => ?_, hanimate⟩
  by_cases hd : d' = d
  · rw [hd]
    have hnull : (s.release d).diskState d = .null := Function.update_self ..
    refine ⟨fun hne => absurd hnull hne, haligned, fun i heq => ?_, fun heq => ?_⟩
    · rw [hnull] at heq
      cases heq
    · rw [hnull] at heq
      cases heq
  · exact (hother d' hd).congr (sameDisk_release hd)

/-! ## One tick of a disk -/

/-- The ticks that a disk may still need; no transfer needs more than ten. -/
def fuel (s : State c) (d : Disk) : ℕ :=
  match s.diskState d, s.currentTarget d with
  | .seek, some i => (offsetToYpos (c.request i).physOffset - s.headPosition d).natAbs + 11
  | .xfer, _ => (s.transferCount d).toNat
  | _, _ => 0

/-- The fuel of a disk is that of its own fields. -/
theorem SameDisk.fuel_eq {s' : State c} (h : SameDisk s s' d) : s'.fuel d = s.fuel d := by
  unfold fuel
  rw [h.diskState, h.currentTarget, h.headPosition, h.transferCount]

/-- A tick of the disk `d` leads from `s` to `s'`: either scheduling is not affected and the disk comes
closer to the end of its I/O, or its I/O ends. -/
def Ticked (d : Disk) (s s' : State c) : Prop :=
  s'.Timing ∧
    ((s'.core = s.core ∧ (∀ d', d' ≠ d → SameDisk s s' d')
        ∧ (s.diskState d = .null → s' = s) ∧ (s.diskState d ≠ .null → s'.fuel d < s.fuel d))
      ∨ Core.step d s.core = some s'.core)

theorem sameDisk_countDown (hd : d' ≠ d) : SameDisk s (s.countDown d) d' :=
  ⟨rfl, rfl, rfl, rfl, rfl, Function.update_of_ne hd ..⟩

theorem countDown_transferCount : (s.countDown d).transferCount d = s.transferCount d - 1 :=
  Function.update_self ..

/-- What the transfer of a tick does: it goes on, or the I/O ends and `GetNextIOs` runs. -/
theorem transferStep_cases (hstep : s.transferStep d = some s') :
    (s.transferCount d ≠ 1 ∧ s' = s.countDown d)
      ∨ (s.transferCount d = 1
        ∧ ∃ t, (s.countDown d).markDone d = some t ∧ (t.release d).getNextIOs = some s') := by
  change (if (s.countDown d).transferCount d = 0
    then ((s.countDown d).markDone d).bind fun t => (t.release d).getNextIOs else some (s.countDown d)) = _ at hstep
  rw [countDown_transferCount] at hstep
  split at hstep
  · exact .inr ⟨by omega, Option.bind_eq_some_iff.mp hstep⟩
  · cases hstep
    exact .inl ⟨by omega, rfl⟩

/-- The last tick of a transfer. -/
theorem transferStep_last (h : ∀ d', d' ≠ d → s.DiskTiming d')
    (haligned : c.seekSpeed ∣ s.headPosition d - 100) (hanimate : s.doAnimate = !s.isDone)
    (hnull : s.diskState d ≠ .null) (htarget : s.currentTarget d = some i) (hoptype : s.currentOptype d = some op)
    (hmark : (s.countDown d).markDone d = some t) (hnext : (t.release d).getNextIOs = some s') :
    s'.Timing ∧ Core.step d s.core = some s'.core := by
  have hfinish := core_markDone (s := s.countDown d) hnull htarget hoptype
  rw [hmark] at hfinish
  obtain ⟨hframe, hanim, hdone⟩ := markDone_frame hmark
  have htiming : (t.release d).Timing := by
    refine release_timing (fun d' hd => ?_) ?_ ?_
    · exact ((h d' hd).congr (sameDisk_countDown hd)).congr (hframe d')
    · rw [(hframe d).headPosition]
      exact haligned
    · rw [hanim, hdone]
      exact hanimate
  refine ⟨htiming.getNextIOs hnext, ?_⟩
  have hcore : s.core.finish d = some (t.release d).core := hfinish.symm
  unfold Core.step
  rw [hcore]
  exact core_of_getNextIOs htiming.targeted hnext

/-- A tick of a disk in the middle of a transfer. -/
theorem ticked_xfer (h : s.Timing) (hxfer : s.diskState d = .xfer) (hstep : s.transferStep d = some s') :
    Ticked d s s' := by
  have hnull : s.diskState d ≠ .null := by
    rw [hxfer]
    decide
  have hpos := (h.disk d).xfer hxfer
  obtain ⟨i, op, htarget, hoptype⟩ := (h.disk d).target hnull
  rcases transferStep_cases hstep with ⟨hcount, rfl⟩ | ⟨-, t, hmark, hnext⟩
  · refine ⟨⟨fun d' => ?_, h.animate⟩, .inl ⟨rfl, fun d' hd => ?_, ?_, ?_⟩⟩
    · by_cases hd : d' = d
      · rw [hd]
        refine ⟨(h.disk d).target, (h.disk d).aligned, (h.disk d).seek, fun _ => ?_⟩
        rw [countDown_transferCount]
        omega
      · exact (h.disk d').congr (sameDisk_countDown hd)
    · exact sameDisk_countDown hd
    · exact fun heq => absurd heq hnull
    · intro _
      unfold fuel
      rw [show (s.countDown d).diskState d = .xfer from hxfer, hxfer, countDown_transferCount]
      show (s.transferCount d - 1).toNat < (s.transferCount d).toNat
      omega
  · obtain ⟨htiming, hcore⟩ := transferStep_last (fun d' _ => h.disk d') (h.disk d).aligned h.animate hnull htarget
      hoptype hmark hnext
    exact ⟨htiming, .inr hcore⟩

theorem sameDisk_moveHead (hd : d' ≠ d) : SameDisk s (s.moveHead d) d' :=
  ⟨rfl, rfl, rfl, Function.update_of_ne hd .., rfl, rfl⟩

/-- A tick of a disk that has not reached its row. -/
theorem ticked_moveHead (h : s.Timing) (hseek : s.diskState d = .seek) (htarget : s.currentTarget d = some i)
    (haway : s.headPosition d ≠ offsetToYpos (c.request i).physOffset) : Ticked d s (s.moveHead d) := by
  have hpos := c.seekSpeed_pos
  obtain ⟨hdelta, k, hk⟩ := (h.disk d).seek i hseek htarget
  have hhead : (s.moveHead d).headPosition d = s.headPosition d + s.seekDelta d := Function.update_self ..
  -- away from its row the head has a move left
  obtain ⟨k', rfl⟩ : ∃ k', k = k' + 1 := by
    refine Nat.exists_eq_succ_of_ne_zero ?_
    rintro rfl
    rw [Nat.cast_zero, zero_mul] at hk
    omega
  have hrest : offsetToYpos (c.request i).physOffset - (s.moveHead d).headPosition d
      = k' * s.seekDelta d := by
    rw [Nat.cast_succ, add_mul, one_mul] at hk
    rw [hhead]
    omega
  refine ⟨⟨fun d' => ?_, h.animate⟩, .inl ⟨rfl, fun d' hd => sameDisk_moveHead hd, ?_, fun _ => ?_⟩⟩
  · by_cases hd : d' = d
    · rw [hd]
      refine ⟨(h.disk d).target, ?_, fun j _ hj => ?_, (h.disk d).xfer⟩
      · rw [hhead, add_sub_right_comm]
        refine Int.dvd_add (h.disk d).aligned ?_
        rcases hdelta with heq | heq
        · rw [heq]
        · rw [heq]
          exact Int.dvd_neg.mpr (Int.dvd_refl _)
      · cases htarget.symm.trans hj
        exact ⟨hdelta, k', hrest⟩
    · exact (h.disk d').congr (sameDisk_moveHead hd)
  · intro heq
    rw [hseek] at heq
    cases heq
  · have hfuel : s.fuel d = ((k' + 1 : ℕ) * s.seekDelta d).natAbs + 11 := by
      unfold fuel
      rw [hseek, htarget, ← hk]
    have hfuel' : (s.moveHead d).fuel d = (k' * s.seekDelta d).natAbs + 11 := by
      unfold fuel
      rw [show (s.moveHead d).diskState d = .seek from hseek,
        show (s.moveHead d).currentTarget d = some i from htarget, ← hrest]
    have hne : 0 < (s.seekDelta d).natAbs := by omega
    rw [hfuel, hfuel', Int.natAbs_mul, Int.natAbs_mul, Int.natAbs_natCast, Int.natAbs_natCast,
      Nat.succ_mul]
    omega

/-- The state in which the transfer begins. -/
def arrive (s : State c) (d : Disk) (i : c.Index) : State c :=
  { s with diskState := Function.update s.diskState d .xfer }.startTransfer d i

theorem sameDisk_arrive (hd : d' ≠ d) : SameDisk s (s.arrive d i) d' :=
  ⟨Function.update_of_ne hd .., rfl, rfl, rfl, rfl, Function.update_of_ne hd ..⟩

theorem arrive_diskState : (s.arrive d i).diskState d = .xfer := Function.update_self ..

/-- A transfer takes one tick or ten. -/
theorem arrive_transferCount : (s.arrive d i).transferCount d = 1 ∨ (s.arrive d i).transferCount d = 10 := by
  show Function.update _ d _ d = 1 ∨ Function.update _ d _ d = 10
  rw [Function.update_self]
  exact ite_eq_or_eq ..

/-- Whether a head moves or transfers is not seen by the untimed part. -/
theorem core_arrive (hnull : s.diskState d ≠ .null) : (s.arrive d i).core = s.core := by
  unfold arrive startTransfer core
  simp only [Core.mk.injEq, true_and, and_true]
  funext d'
  by_cases hd : d' = d
  · rw [hd, Function.update_self, if_neg hnull]
    exact if_neg (by decide)
  · rw [Function.update_of_ne hd]

/-- A tick of a disk that has reached its row: the transfer begins with its first tick. -/
theorem ticked_arrive (h : s.Timing) (hseek : s.diskState d = .seek) (htarget : s.currentTarget d = some i)
    (hstep : (s.arrive d i).transferStep d = some s') : Ticked d s s' := by
  have hnull : s.diskState d ≠ .null := by
    rw [hseek]
    decide
  have hcore := core_arrive (i := i) hnull
  have hother : ∀ d', d' ≠ d → (s.arrive d i).DiskTiming d' := fun d' hd =>
    (h.disk d').congr (sameDisk_arrive hd)
  obtain ⟨-, op, -, hoptype⟩ := (h.disk d).target hnull
  rcases transferStep_cases hstep with ⟨hne, rfl⟩ | ⟨-, t, hmark, hnext⟩
  · -- not the row behind the last one: nine ticks are left
    have hten : (s.arrive d i).transferCount d = 10 := arrive_transferCount.resolve_left hne
    have hstate : ((s.arrive d i).countDown d).diskState d = .xfer :=
      arrive_diskState (s := s) (i := i)
    have hcount : ((s.arrive d i).countDown d).transferCount d = 9 := by
      rw [countDown_transferCount, hten]
      rfl
    refine ⟨⟨fun d' => ?_, h.animate⟩,
      .inl ⟨hcore, fun d' hd => ?_, fun heq => absurd heq hnull, fun _ => ?_⟩⟩
    · by_cases hd : d' = d
      · rw [hd]
        refine ⟨fun _ => ⟨i, op, htarget, hoptype⟩, (h.disk d).aligned, fun j heq => ?_, fun _ => ?_⟩
        · rw [hstate] at heq
          cases heq
        · rw [hcount]
          decide
      · exact (hother d' hd).congr (sameDisk_countDown hd)
    · have hsame := sameDisk_arrive (s := s) (i := i) hd
      have hsame' := sameDisk_countDown (s := s.arrive d i) hd
      exact ⟨hsame'.1.trans hsame.1, hsame'.2.trans hsame.2, hsame'.3.trans hsame.3,
        hsame'.4.trans hsame.4, hsame'.5.trans hsame.5, hsame'.6.trans hsame.6⟩
    · unfold fuel
      rw [hstate, hcount, hseek, htarget]
      show 9 < _ + 11
      omega
  · -- the row behind the last one: its only tick is this one
    have hbusy : (s.arrive d i).diskState d ≠ .null := by
      rw [arrive_diskState]
      decide
    obtain ⟨htiming, hfinish⟩ := transferStep_last (s := s.arrive d i) hother (h.disk d).aligned h.animate hbusy
      htarget hoptype hmark hnext
    exact ⟨htiming, .inr (hcore ▸ hfinish)⟩

/-! ## The loop of `Animate` -/

theorem animateDisk_null (hnull : s.diskState d = .null) : s.animateDisk d = some s := by
  unfold animateDisk
  simp [hnull]

theorem animateDisk_xfer (hxfer : s.diskState d = .xfer) : s.animateDisk d = s.transferStep d := by
  unfold animateDisk
  simp [hxfer]

/-- At its row, the disk goes on to the transfer. -/
theorem animateDisk_arrive (hseek : s.diskState d = .seek) (htarget : s.currentTarget d = some i)
    (hat : s.headPosition d = offsetToYpos (c.request i).physOffset) :
    s.animateDisk d = (s.arrive d i).transferStep d := by
  have hstep : s.seekStep d = some (s.arrive d i) := by
    unfold seekStep
    rw [htarget]
    exact if_pos hat
  unfold animateDisk
  rw [if_pos hseek, hstep]
  show (if (s.arrive d i).diskState d = .xfer then _ else _) = _
  rw [if_pos arrive_diskState]

/-- A seeking disk that is not there moves its head. -/
theorem animateDisk_moveHead (hseek : s.diskState d = .seek) (htarget : s.currentTarget d = some i)
    (haway : s.headPosition d ≠ offsetToYpos (c.request i).physOffset) :
    s.animateDisk d = some (s.moveHead d) := by
  have hstep : s.seekStep d = some (s.moveHead d) := by
    unfold seekStep
    rw [htarget]
    exact if_neg haway
  unfold animateDisk
  rw [if_pos hseek, hstep]
  show (if (s.moveHead d).diskState d = .xfer then _ else _) = _
  rw [if_neg (by rw [show (s.moveHead d).diskState d = .seek from hseek]; decide)]

/-- What one disk does in the loop of `Animate`. -/
theorem animateDisk_cases (h : s.Targeted) (hstep : s.animateDisk d = some s') :
    (s.diskState d = .null ∧ s' = s)
      ∨ (s.diskState d = .xfer ∧ s.transferStep d = some s')
      ∨ ∃ i, s.diskState d = .seek ∧ s.currentTarget d = some i
        ∧ ((s.headPosition d = offsetToYpos (c.request i).physOffset ∧ (s.arrive d i).transferStep d = some s')
          ∨ (s.headPosition d ≠ offsetToYpos (c.request i).physOffset ∧ s' = s.moveHead d)) := by
  cases hstate : s.diskState d with
  | null =>
    rw [animateDisk_null hstate] at hstep
    exact .inl ⟨rfl, (Option.some_inj.mp hstep).symm⟩
  | xfer =>
    rw [animateDisk_xfer hstate] at hstep
    exact .inr (.inl ⟨rfl, hstep⟩)
  | seek =>
    obtain ⟨i, op, htarget, -⟩ := h d (by rw [hstate]; exact nofun)
    refine .inr (.inr ⟨i, rfl, htarget, ?_⟩)
    by_cases hat : s.headPosition d = offsetToYpos (c.request i).physOffset
    · rw [animateDisk_arrive hstate htarget hat] at hstep
      exact .inl ⟨hat, hstep⟩
    · rw [animateDisk_moveHead hstate htarget hat] at hstep
      exact .inr ⟨hat, (Option.some_inj.mp hstep).symm⟩

/-- **One disk in the loop of `Animate`**, when it does not fail. -/
theorem ticked_animateDisk (h : s.Timing) (hstep : s.animateDisk d = some s') : Ticked d s s' := by
  rcases animateDisk_cases h.targeted hstep with
    ⟨hnull, rfl⟩ | ⟨hxfer, htransfer⟩ | ⟨i, hseek, htarget, ⟨-, htransfer⟩ | ⟨haway, rfl⟩⟩
  · exact ⟨h, .inl ⟨rfl, fun _ _ => ⟨rfl, rfl, rfl, rfl, rfl, rfl⟩, fun _ => rfl, fun hne => absurd hnull hne⟩⟩
  · exact ticked_xfer h hxfer htransfer
  · exact ticked_arrive h hseek htarget htransfer
  · exact ticked_moveHead h hseek htarget haway

/-! ## Exceptions -/

/-- Busy disks know what they serve, and scheduling is in a state that the untimed simulator can be in. -/
structure Consistent (s : State c) : Prop where
  targeted : s.Targeted
  inv : s.core.Inv

/-- `__init__` leaves a consistent state. -/
theorem init_consistent : (State.init c).Consistent :=
  ⟨fun _ hbusy => absurd rfl hbusy, core_init (c := c) ▸ Core.init_inv⟩

/-- `GetNextIOs` keeps a state consistent. -/
theorem Consistent.getNextIOs (h : s.Consistent) (hnext : s.getNextIOs = some t) : t.Consistent :=
  ⟨getNextIOs_invariant hnext (fun _ _ _ _ _ ht _ _ => ht.begin) h.targeted h.targeted,
    h.inv.getNextIOs (core_of_getNextIOs h.targeted hnext)⟩

/-- With an exact count, `GetNextIOs` does not fail. -/
theorem Consistent.exists_getNextIOs (hexact : c.Exact) (h : s.Consistent) : ∃ t, s.getNextIOs = some t := by
  obtain ⟨u, hu⟩ := h.inv.exists_getNextIOs hexact
  rw [← core_getNextIOs h.targeted] at hu
  obtain ⟨t, ht, -⟩ := Option.map_eq_some_iff.mp hu
  exact ⟨t, ht⟩

/-- An I/O can always end. -/
theorem Consistent.markDone (h : s.Consistent) (hbusy : s.diskState d ≠ .null) :
    ∃ t, s.markDone d = some t ∧ (t.release d).Consistent := by
  obtain ⟨i, op, htarget, hoptype⟩ := h.targeted d hbusy
  obtain ⟨status, done, hfinish, hinv⟩ := h.inv.finish (core_serving hbusy htarget hoptype)
  obtain ⟨t, ht, hcore⟩ := Option.map_eq_some_iff.mp ((core_markDone hbusy htarget hoptype).trans hfinish)
  refine ⟨t, ht, fun d' hbusy' => ?_, hcore ▸ hinv⟩
  obtain ⟨hframe, -, -⟩ := markDone_frame ht
  have hd : d' ≠ d := by
    rintro rfl
    exact hbusy' (Function.update_self ..)
  have hsame := sameDisk_release (s := t) hd
  rw [hsame.diskState, (hframe d').diskState] at hbusy'
  rw [hsame.currentTarget, hsame.currentOptype, (hframe d').currentTarget, (hframe d').currentOptype]
  exact h.targeted d' hbusy'

/-- A transfer begins in a consistent state. -/
theorem Consistent.arrive (h : s.Consistent) (hbusy : s.diskState d ≠ .null) : (s.arrive d i).Consistent := by
  refine ⟨fun d' hbusy' => ?_, core_arrive (i := i) hbusy ▸ h.inv⟩
  by_cases hd : d' = d
  · rw [hd]
    exact h.targeted d hbusy
  · rw [(sameDisk_arrive (i := i) hd).diskState] at hbusy'
    exact h.targeted d' hbusy'

/-- With an exact count, no tick of a transfer fails. -/
theorem Consistent.exists_transferStep (hexact : c.Exact) (h : s.Consistent) (hbusy : s.diskState d ≠ .null) :
    ∃ s', s.transferStep d = some s' := by
  have hcount : (s.countDown d).Consistent := ⟨h.targeted, h.inv⟩
  by_cases hlast : (s.countDown d).transferCount d = 0
  · obtain ⟨t, hmark, ht⟩ := hcount.markDone (d := d) hbusy
    obtain ⟨s', hnext⟩ := ht.exists_getNextIOs hexact
    refine ⟨s', (if_pos hlast).trans ?_⟩
    show Option.bind ((s.countDown d).markDone d) _ = _
    rw [hmark]
    exact hnext
  · exact ⟨_, if_neg hlast⟩

/-- **With an exact count, no disk fails** in the loop of `Animate`. -/
theorem Consistent.exists_animateDisk (hexact : c.Exact) (h : s.Consistent) (d : Disk) :
    ∃ s', s.animateDisk d = some s' := by
  cases hstate : s.diskState d with
  | null => exact ⟨s, animateDisk_null hstate⟩
  | xfer =>
    rw [animateDisk_xfer hstate]
    exact h.exists_transferStep hexact (by rw [hstate]; exact nofun)
  | seek =>
    have hbusy : s.diskState d ≠ .null := by
      rw [hstate]
      exact nofun
    obtain ⟨i, op, htarget, -⟩ := h.targeted d hbusy
    by_cases hat : s.headPosition d = offsetToYpos (c.request i).physOffset
    · rw [animateDisk_arrive hstate htarget hat]
      exact (h.arrive hbusy).exists_transferStep hexact (by rw [arrive_diskState]; exact nofun)
    · exact ⟨_, animateDisk_moveHead hstate htarget hat⟩

end State

end Cs537.Graphics
