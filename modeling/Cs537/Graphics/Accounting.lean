import Cs537.Lib.Count
import Cs537.Graphics.Untimed

/-!
# Accounting

Every request is in a configuration of its kind, every I/O is counted once as to be started, under way or
performed, and the window has moved by the requests that are complete.
-/

namespace Cs537.Graphics

variable {c : Config}

/-- The kind of the request at an index. -/
def Config.kind (c : Config) (i : c.Index) : Kind := (c.request i).kind c.mapping

/-- All I/Os of the queue. -/
def Config.total (c : Config) : ℕ := ∑ i : c.Index, (c.kind i).todo .init

namespace Core

/-! ## The configuration of a request -/

/-- The operation under way for a request on a disk. -/
def flightOn (s : Core c) (i : c.Index) (d : Disk) : Option OpType :=
  (s.serving d).bind fun r => if r.1 = i then some r.2 else none

/-- The operations performed for a request on a disk, in order. -/
def performedOn (s : Core c) (i : c.Index) (d : Disk) : List OpType :=
  (s.log.filter fun ev => ev.kind = .finish ∧ ev.disk = d ∧ ev.index = i).map Event.op

/-- The configuration of a request. -/
def config (s : Core c) (i : c.Index) : Fin 2 → Kind.Entry := fun e =>
  ⟨s.status i e, (c.request i).physDiskList[(e : ℕ)]?.bind (s.flightOn i),
    ((c.request i).physDiskList[(e : ℕ)]?.map (s.performedOn i)).getD []⟩

variable {s : Core c} {d d' : Disk} {i j : c.Index} {e : Fin 2} {op : OpType} {status : Statuses}

theorem flightOn_of_idle (hidle : s.serving d = none) : s.flightOn j d = none := by
  unfold flightOn
  rw [hidle]
  rfl

theorem flightOn_of_serving (hserving : s.serving d = some (i, op)) : s.flightOn i d = some op := by
  unfold flightOn
  rw [hserving]
  exact if_pos rfl

/-- A start puts one I/O under way. -/
theorem flightOn_start (hidle : s.serving d = none) :
    (s.start d i op status).flightOn j d' = if j = i ∧ d' = d then some op else s.flightOn j d' := by
  unfold flightOn
  rw [start_serving]
  by_cases hd : d' = d
  · rw [hd, if_pos rfl, hidle]
    by_cases hj : j = i
    · simp [hj]
    · simp [hj, Ne.symm hj]
  · simp [hd]

/-- The end of an I/O takes it off its way. -/
theorem flightOn_served (hserving : s.serving d = some (i, op)) {done : Bool} :
    (s.served d i op status done).flightOn j d' = if j = i ∧ d' = d then none else s.flightOn j d' := by
  unfold flightOn
  rw [served_serving]
  by_cases hd : d' = d
  · rw [hd, if_pos rfl, hserving]
    by_cases hj : j = i
    · simp [hj]
    · simp [hj, Ne.symm hj]
  · simp [hd]

/-- A start performs nothing yet. -/
theorem performedOn_start : (s.start d i op status).performedOn j d' = s.performedOn j d' := by
  unfold performedOn start
  rw [List.filter_append, List.map_append]
  simp

/-- The end of an I/O performs it. -/
theorem performedOn_served {done : Bool} :
    (s.served d i op status done).performedOn j d'
      = if j = i ∧ d' = d then s.performedOn j d' ++ [op] else s.performedOn j d' := by
  unfold performedOn served
  rw [List.filter_append, List.map_append]
  by_cases hj : j = i ∧ d' = d
  · simp [hj]
  · rw [if_neg hj, List.filter_cons_of_neg, List.filter_nil, List.map_nil, List.append_nil]
    rintro h
    have h' := of_decide_eq_true h
    exact hj ⟨h'.2.2.symm, h'.2.1.symm⟩

/-- The entry of a disk in the disk list, read from the list. -/
private theorem getElem?_eq_some_iff (he : (c.request i).diskIndex d = some e) (e' : Fin 2) :
    (c.request i).physDiskList[(e' : ℕ)]? = some d ↔ e' = e := by
  rw [← c.diskIndex_eq_some_iff, he, Option.some_inj]
  exact eq_comm

/-- The request that starts an I/O. -/
theorem config_start_self (hidle : s.serving d = none) (he : (c.request i).diskIndex d = some e) :
    (s.start d i op status).config i = Kind.afterStart (s.config i) status e op := by
  funext e'
  have hentry := getElem?_eq_some_iff he e'
  unfold config Kind.afterStart
  cases hlist : (c.request i).physDiskList[(e' : ℕ)]? with
  | none =>
    have hne : e' ≠ e := fun heq => by rw [hentry.mpr heq] at hlist; cases hlist
    simp [start_status, hne, hlist]
  | some d' =>
    rw [hlist, Option.some_inj] at hentry
    simp [start_status, flightOn_start hidle, performedOn_start, hentry, hlist]

/-- The request whose I/O finishes. -/
theorem config_served_self (hserving : s.serving d = some (i, op))
    (he : (c.request i).diskIndex d = some e) {done : Bool} :
    (s.served d i op status done).config i = Kind.afterFinish (s.config i) status e op := by
  funext e'
  have hentry := getElem?_eq_some_iff he e'
  unfold config Kind.afterFinish
  cases hlist : (c.request i).physDiskList[(e' : ℕ)]? with
  | none =>
    have hne : e' ≠ e := fun heq => by rw [hentry.mpr heq] at hlist; cases hlist
    simp [served_status, hne, hlist]
  | some d' =>
    rw [hlist, Option.some_inj] at hentry
    simp [served_status, flightOn_served hserving, performedOn_served, hentry, hlist]

/-- Other requests do not notice. -/
theorem config_start_of_ne (hidle : s.serving d = none) (hj : j ≠ i) :
    (s.start d i op status).config j = s.config j := by
  funext e'
  unfold config
  cases (c.request j).physDiskList[(e' : ℕ)]? with
  | none => simp [start_status, hj]
  | some d' => simp [start_status, flightOn_start hidle, performedOn_start, hj]

/-- The end of an I/O concerns its request only. -/
theorem config_served_of_ne (hserving : s.serving d = some (i, op)) (hj : j ≠ i) {done : Bool} :
    (s.served d i op status done).config j = s.config j := by
  funext e'
  unfold config
  cases (c.request j).physDiskList[(e' : ℕ)]? with
  | none => simp [served_status, hj]
  | some d' => simp [served_status, flightOn_served hserving, performedOn_served, hj]

/-! ## The invariant -/

/-- The busy disks. -/
def busy (s : Core c) : ℕ := ∑ d : Disk, if (s.serving d).isSome then 1 else 0

/-- The I/Os still to be started. -/
def todo (s : Core c) : ℕ := ∑ i : c.Index, (c.kind i).todo (s.status i)

/-- The complete requests. -/
def completed (s : Core c) : ℕ := ∑ i : c.Index, if (c.kind i).Complete (s.config i) then 1 else 0

/-- Only the disk `d` changes. -/
theorem busy_update {t : Core c} (h : ∀ d', d' ≠ d → t.serving d' = s.serving d') :
    (t.busy + if (s.serving d).isSome then 1 else 0)
      = s.busy + if (t.serving d).isSome then 1 else 0 := by
  exact Finset.sum_add_of_agree (f := fun d => if (t.serving d).isSome then 1 else 0)
    (g := fun d => if (s.serving d).isSome then 1 else 0) d fun d' hd => by rw [h d' hd]

/-- Only the request `i` changes. -/
theorem todo_update {t : Core c} (h : ∀ j, j ≠ i → t.status j = s.status j) :
    t.todo + (c.kind i).todo (s.status i) = s.todo + (c.kind i).todo (t.status i) := by
  exact Finset.sum_add_of_agree (f := fun i => (c.kind i).todo (t.status i))
    (g := fun i => (c.kind i).todo (s.status i)) i fun j hj => by rw [h j hj]

/-- Where one request changes, the number of complete requests changes with it. -/
theorem completed_update {t : Core c} (h : ∀ j, j ≠ i → t.config j = s.config j) :
    (t.completed + if (c.kind i).Complete (s.config i) then 1 else 0)
      = s.completed + if (c.kind i).Complete (t.config i) then 1 else 0 := by
  exact Finset.sum_add_of_agree (f := fun i => if (c.kind i).Complete (t.config i) then 1 else 0)
    (g := fun i => if (c.kind i).Complete (s.config i) then 1 else 0) i fun j hj => by rw [h j hj]

/-- A start makes one disk more busy. -/
theorem busy_start (hidle : s.serving d = none) : (s.start d i op status).busy = s.busy + 1 := by
  have hupdate := busy_update (t := s.start d i op status) (s := s) (d := d)
    fun d' hd => by rw [start_serving, if_neg hd]
  rwa [start_serving, if_pos rfl, hidle] at hupdate

/-- The end of an I/O makes one disk less busy. -/
theorem busy_served (hserving : s.serving d = some (i, op)) {done : Bool} :
    (s.served d i op status done).busy + 1 = s.busy := by
  have hupdate := busy_update (t := s.served d i op status done) (s := s) (d := d)
    fun d' hd => by rw [served_serving, if_neg hd]
  rwa [served_serving, if_pos rfl, hserving] at hupdate

/-- What a start takes from the I/Os that are still to be started. -/
theorem todo_start :
    (s.start d i op status).todo + (c.kind i).todo (s.status i) = s.todo + (c.kind i).todo status := by
  have hupdate := todo_update (t := s.start d i op status) (s := s) (i := i)
    fun j hj => by rw [start_status, if_neg hj]
  rwa [start_status, if_pos rfl] at hupdate

/-- The end of an I/O may add to the I/Os that are still to be started, for its own request. -/
theorem todo_served {done : Bool} :
    (s.served d i op status done).todo + (c.kind i).todo (s.status i)
      = s.todo + (c.kind i).todo status := by
  have hupdate := todo_update (t := s.served d i op status done) (s := s) (i := i)
    fun j hj => by rw [served_status, if_neg hj]
  rwa [served_status, if_pos rfl] at hupdate

/-- A request with an I/O under way is not complete. -/
theorem not_complete_of_flight {k : Kind} {x : Fin 2 → Kind.Entry} (h : (x e).flight = some op) :
    ¬ k.Complete x := by
  rintro ⟨-, hflight⟩
  rw [hflight e] at h
  cases h

/-- A request that starts an I/O is not complete before. -/
theorem not_complete_of_start (hlocals : s.config i ∈ (c.kind i).locals)
    (hflight : (s.config i e).flight = none) (hstart : (c.kind i).start (s.status i) e = some (op, status)) :
    ¬ (c.kind i).Complete (s.config i) := by
  rintro ⟨hzero, -⟩
  have htodo := (Kind.afterStart_mem_locals hlocals hflight hstart).2
  rw [hzero] at htodo
  cases htodo

/-- Nor is it after, with the I/O under way. -/
theorem not_complete_start (hidle : s.serving d = none) (he : (c.request i).diskIndex d = some e) :
    ¬ (c.kind i).Complete ((s.start d i op status).config i) := by
  have hflight : (Kind.afterStart (s.config i) status e op e).flight = some op := if_pos rfl
  rw [config_start_self hidle he]
  exact not_complete_of_flight hflight

/-- The entry on which an I/O is started. -/
theorem exists_entry_of_schedule
    (hschedule : (c.request i).doScheduling c.mapping (s.status i) d = some (op, status)) :
    ∃ e, (c.request i).diskIndex d = some e ∧ (c.kind i).start (s.status i) e = some (op, status) := by
  rw [c.doScheduling_eq] at hschedule
  exact Option.bind_eq_some_iff.mp hschedule

/-- The invariant of the scheduler. -/
structure Inv (s : Core c) : Prop where
  locals : ∀ i, s.config i ∈ (c.kind i).locals
  entry : ∀ d i op, s.serving d = some (i, op) → ∃ e, (c.request i).diskIndex d = some e
  count : s.requestCount + s.busy + s.todo = c.total
  logical : s.logicalRequests = s.completed
  window : s.window = if c.window = -1 then -1 else c.window + s.logicalRequests
  logged : ∀ ev ∈ s.log, ∃ e, (c.request ev.index).diskIndex ev.disk = some e

/-- The flight of the entry of a disk. -/
theorem flight_eq (he : (c.request i).diskIndex d = some e) : (s.config i e).flight = s.flightOn i d := by
  have hlist := c.diskIndex_eq_some_iff.mp he
  show (c.request i).physDiskList[(e : ℕ)]?.bind (s.flightOn i) = _
  rw [hlist]
  rfl

/-- An idle disk serves nobody. -/
theorem flight_of_disk_idle (hidle : s.serving d = none) (he : (c.request i).diskIndex d = some e) :
    (s.config i e).flight = none := by
  rw [flight_eq he]
  exact flightOn_of_idle hidle

theorem flight_of_serving (hserving : s.serving d = some (i, op)) (he : (c.request i).diskIndex d = some e) :
    (s.config i e).flight = some op := by
  rw [flight_eq he]
  exact flightOn_of_serving hserving

/-- At the start, every request is fresh. -/
theorem config_init (i : c.Index) : (Core.init c).config i = fun _ => Kind.Entry.fresh := by
  funext e
  unfold config
  cases (c.request i).physDiskList[(e : ℕ)]? <;> rfl

/-- The accounts hold at the start. -/
theorem init_inv : (Core.init c).Inv where
  locals i := by
    rw [config_init]
    exact Kind.fresh_mem_locals _
  entry := nofun
  count := by
    show (0 : ℤ) + (∑ _ : Disk, 0 : ℕ) + (c.total : ℕ) = c.total
    simp
  logical := by
    symm
    apply Finset.sum_eq_zero
    intro i _
    rw [config_init, if_neg (Kind.not_complete_fresh _)]
  window := by
    show c.window = _
    split
    · assumption
    · exact (add_zero _).symm
  logged := nofun

/-- An event of an entry can be added to the log. -/
theorem Inv.logged_concat (h : s.Inv) (he : (c.request i).diskIndex d = some e) {kind : EventKind} :
    ∀ ev ∈ s.log ++ [Event.mk kind d i op], ∃ e, (c.request ev.index).diskIndex ev.disk = some e := by
  intro ev hev
  rcases List.mem_append.mp hev with hold | hnew
  · exact h.logged ev hold
  · cases List.mem_singleton.mp hnew
    exact ⟨e, he⟩

/-- Starting an I/O: one less to start, one more under way. -/
theorem Inv.start (h : s.Inv) (hidle : s.serving d = none)
    (hschedule : (c.request i).doScheduling c.mapping (s.status i) d = some (op, status)) :
    (s.start d i op status).Inv := by
  obtain ⟨e, he, hstart⟩ := exists_entry_of_schedule hschedule
  have hflight : (s.config i e).flight = none := flight_of_disk_idle hidle he
  obtain ⟨hlocals, htodo⟩ := Kind.afterStart_mem_locals (h.locals i) hflight hstart
  have hself : (s.start d i op status).config i = Kind.afterStart (s.config i) status e op :=
    config_start_self hidle he
  have hother : ∀ j, j ≠ i → (s.start d i op status).config j = s.config j := fun j hj =>
    config_start_of_ne hidle hj
  refine ⟨fun j => ?_, fun d' j op' hserving => ?_, ?_, ?_, h.window, fun ev hev => ?_⟩
  · by_cases hj : j = i
    · rw [hj, hself]
      exact hlocals
    · rw [hother j hj]
      exact h.locals j
  · rw [start_serving] at hserving
    split at hserving
    · rename_i hd
      cases hserving
      exact ⟨e, hd ▸ he⟩
    · exact h.entry d' j op' hserving
  · -- an I/O less to be started is one more under way
    have hbusy : (s.start d i op status).busy = s.busy + 1 := busy_start hidle
    have htodo' : (s.start d i op status).todo + (c.kind i).todo (s.status i)
        = s.todo + (c.kind i).todo status := todo_start
    have hcount := h.count
    change (c.kind i).todo (s.status i) = _ at htodo
    show s.requestCount + _ + _ = _
    omega
  · -- whoever starts an I/O is not complete, neither before nor after
    have hupdate := completed_update hother
    rw [if_neg (not_complete_of_start (h.locals i) hflight hstart), if_neg (not_complete_start hidle he)]
      at hupdate
    exact h.logical.trans hupdate.symm
  · exact h.logged_concat he ev hev

/-- The window moves by one with every request that is reported done. -/
theorem Inv.served_window (h : s.Inv) {done : Bool} :
    (s.served d i op status done).window
      = if c.window = -1 then -1 else c.window + (s.served d i op status done).logicalRequests := by
  have hwindow := h.window
  have hvalid := c.window_valid
  show (if done = true ∧ 0 < s.window then s.window + 1 else s.window)
    = if c.window = -1 then -1
      else c.window + ((if done = true then s.logicalRequests + 1 else s.logicalRequests : ℕ) : ℤ)
  by_cases hall : c.window = -1
  · rw [if_pos hall] at hwindow ⊢
    rw [if_neg (by omega), hwindow]
  · rw [if_neg hall] at hwindow ⊢
    by_cases hd : done = true
    · rw [if_pos ⟨hd, by omega⟩, if_pos hd]
      omega
    · rw [if_neg (fun h => hd h.1), if_neg hd]
      exact hwindow

/-- Finishing an I/O never fails: one less under way, one more performed. -/
theorem Inv.finish (h : s.Inv) (hserving : s.serving d = some (i, op)) :
    ∃ status done, s.finish d = some (s.served d i op status done)
      ∧ (s.served d i op status done).Inv := by
  obtain ⟨e, he⟩ := h.entry d i op hserving
  have hflight : (s.config i e).flight = some op := flight_of_serving hserving he
  obtain ⟨status, done, hfinish, hlocals, htodo, hdone⟩ :=
    Kind.afterFinish_mem_locals (h.locals i) hflight
  have hself : (s.served d i op status done).config i = Kind.afterFinish (s.config i) status e op :=
    config_served_self hserving he
  have hother : ∀ j, j ≠ i → (s.served d i op status done).config j = s.config j := fun j hj =>
    config_served_of_ne hserving hj
  refine ⟨status, done, ?_, fun j => ?_, fun d' j op' hserving' => ?_, ?_, ?_, ?_, fun ev hev => ?_⟩
  · exact Finishes.finish_eq ⟨hserving, e, he, (c.requestDone_eq i _ e).trans hfinish⟩
  · by_cases hj : j = i
    · rw [hj, hself]
      exact hlocals
    · rw [hother j hj]
      exact h.locals j
  · rw [served_serving] at hserving'
    split at hserving'
    · cases hserving'
    · exact h.entry d' j op' hserving'
  · -- an I/O less under way is one more that has ended
    have hbusy : (s.served d i op status done).busy + 1 = s.busy := busy_served hserving
    have htodo' : (s.served d i op status done).todo + (c.kind i).todo (s.status i)
        = s.todo + (c.kind i).todo status := todo_served
    have hcount := h.count
    change _ = (c.kind i).todo (s.status i) at htodo
    show s.requestCount + 1 + _ + _ = _
    omega
  · -- the request is reported done exactly when it becomes complete
    have hupdate := completed_update hother
    rw [if_neg (not_complete_of_flight hflight), hself] at hupdate
    show (if done = true then s.logicalRequests + 1 else s.logicalRequests) = _
    rw [Nat.add_zero] at hupdate
    rw [hupdate, h.logical]
    by_cases hd : done = true
    · rw [if_pos hd, if_pos (hdone.mp hd)]
    · rw [if_neg hd, if_neg (mt hdone.mpr hd)]
      rfl
  · exact h.served_window
  · exact h.logged_concat he ev hev

end Core

end Cs537.Graphics
