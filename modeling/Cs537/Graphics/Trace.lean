import Cs537.Graphics.Progress

/-!
# The log

On a disk, the I/Os of a request are logged one after the other: each starts, and finishes before the next one
starts. So the log tells what has been performed and what is under way.
-/

namespace Cs537.Graphics

variable {c : Config}

/-- The events of an I/O that has been performed. -/
def OpType.events (op : OpType) : List (EventKind × OpType) := [(.start, op), (.finish, op)]

/-- The events of a request on a disk, in order. -/
def eventsOf (log : List (Event c)) (i : c.Index) (d : Disk) : List (EventKind × OpType) :=
  (log.filter fun ev => ev.disk = d ∧ ev.index = i).map fun ev => (ev.kind, ev.op)

section

variable {log log' : List (Event c)} {ev : Event c} {i : c.Index} {d : Disk} {op : OpType}

/-- An event of the log, seen from its request and disk. -/
theorem mem_eventsOf {kind : EventKind} : (kind, op) ∈ eventsOf log i d ↔ Event.mk kind d i op ∈ log := by
  unfold eventsOf
  rw [List.mem_map]
  constructor
  · rintro ⟨⟨kind', d', i', op'⟩, hev, heq⟩
    obtain ⟨hmem, hmatch⟩ := List.mem_filter.mp hev
    obtain ⟨hdisk, hindex⟩ := of_decide_eq_true hmatch
    cases heq
    cases hdisk
    cases hindex
    exact hmem
  · intro hmem
    exact ⟨_, List.mem_filter.mpr ⟨hmem, decide_eq_true ⟨rfl, rfl⟩⟩, rfl⟩

theorem eventsOf_append : eventsOf (log ++ log') i d = eventsOf log i d ++ eventsOf log' i d := by
  unfold eventsOf
  rw [List.filter_append, List.map_append]

theorem eventsOf_cons : eventsOf (ev :: log) i d
    = (if ev.disk = d ∧ ev.index = i then [(ev.kind, ev.op)] else []) ++ eventsOf log i d := by
  unfold eventsOf
  by_cases hev : ev.disk = d ∧ ev.index = i
  · rw [if_pos hev, List.filter_cons, if_pos (decide_eq_true hev)]
    rfl
  · rw [if_neg hev, List.filter_cons, if_neg fun h => hev (of_decide_eq_true h)]
    rfl

/-- An event of an extended log is the new one, or it is an event of the log. -/
theorem concat_eq_append_cons {before after : List (Event c)} {new : Event c}
    (h : log ++ [new] = before ++ ev :: after) :
    (log = before ∧ new = ev) ∨ ∃ after', log = before ++ ev :: after' := by
  rcases List.eq_nil_or_concat' after with rfl | ⟨after, last, rfl⟩
  · obtain ⟨hlog, hlast⟩ := List.append_inj' h rfl
    exact .inl ⟨hlog, List.singleton_injective hlast⟩
  · have hsplit : log ++ [new] = (before ++ ev :: after) ++ [last] := by
      rw [h]
      simp
    exact .inr ⟨after, (List.append_inj' hsplit rfl).1⟩

end

namespace Core

variable {s : Core c} {d d' : Disk} {i j : c.Index} {op : OpType} {status : Statuses}

/-- On every disk, the I/Os of a request follow each other. -/
def Sequential (s : Core c) : Prop :=
  ∀ i d, eventsOf s.log i d
    = (s.performedOn i d).flatMap OpType.events ++ (s.flightOn i d).toList.map fun op => (.start, op)

/-- A start follows an end on its disk. -/
theorem Sequential.start (h : s.Sequential) (hidle : s.serving d = none) :
    (s.start d i op status).Sequential := by
  intro j d'
  have hnone : s.flightOn j d = none := flightOn_of_idle hidle
  rw [performedOn_start, flightOn_start hidle]
  show eventsOf (s.log ++ [Event.mk .start d i op]) j d' = _
  rw [eventsOf_append, eventsOf_cons, h j d']
  by_cases hj : j = i ∧ d' = d
  · obtain ⟨rfl, rfl⟩ := hj
    simp [hnone, eventsOf]
  · rw [if_neg hj, if_neg fun heq => hj ⟨heq.2.symm, heq.1.symm⟩]
    exact List.append_nil _

/-- An end follows its start. -/
theorem Sequential.served (h : s.Sequential) (hserving : s.serving d = some (i, op)) {done : Bool} :
    (s.served d i op status done).Sequential := by
  intro j d'
  have hflight : s.flightOn i d = some op := flightOn_of_serving hserving
  rw [performedOn_served, flightOn_served hserving]
  show eventsOf (s.log ++ [Event.mk .finish d i op]) j d' = _
  rw [eventsOf_append, eventsOf_cons, h j d']
  by_cases hj : j = i ∧ d' = d
  · obtain ⟨rfl, rfl⟩ := hj
    simp [hflight, OpType.events, eventsOf]
  · rw [if_neg hj, if_neg hj, if_neg fun heq => hj ⟨heq.2.symm, heq.1.symm⟩]
    exact List.append_nil _

/-- **On every disk, starts and ends alternate.** -/
theorem reachable_sequential (h : (untimed c).Reachable s) : s.Sequential :=
  reachable_of_events h (fun _ _ => rfl) (fun _ _ _ _ _ ht hstarts => ht.start hstarts.idle)
    (fun _ _ _ _ _ _ ht hfinishes => ht.served hfinishes.serving) fun _ ht => ht

/-- What has been performed is what has been logged as finished. -/
theorem mem_performedOn : op ∈ s.performedOn i d ↔ Event.mk .finish d i op ∈ s.log := by
  unfold performedOn
  rw [List.mem_map]
  constructor
  · rintro ⟨⟨kind, d', i', op'⟩, hev, rfl⟩
    obtain ⟨hmem, hmatch⟩ := List.mem_filter.mp hev
    obtain ⟨hkind, hdisk, hindex⟩ := of_decide_eq_true hmatch
    cases hkind
    cases hdisk
    cases hindex
    exact hmem
  · exact fun hmem => ⟨_, List.mem_filter.mpr ⟨hmem, decide_eq_true ⟨rfl, rfl, rfl⟩⟩, rfl⟩

/-- What has been performed has been started. -/
theorem Sequential.start_mem (h : s.Sequential) (hop : op ∈ s.performedOn i d) :
    Event.mk .start d i op ∈ s.log := by
  rw [← mem_eventsOf, h i d]
  apply List.mem_append_left
  exact List.mem_flatMap.mpr ⟨op, hop, List.mem_cons_self⟩

/-- What has been started and is not under way has been performed. -/
theorem Sequential.performed_of_start (h : s.Sequential) (hev : Event.mk .start d i op ∈ s.log)
    (hflight : s.flightOn i d = none) : op ∈ s.performedOn i d := by
  rw [← mem_eventsOf, h i d, hflight] at hev
  rcases List.mem_append.mp hev with hev | hev
  · obtain ⟨op', hop', hmem⟩ := List.mem_flatMap.mp hev
    have heq : op = op' := by simpa [OpType.events] using hmem
    exact heq ▸ hop'
  · cases hev

end Core

end Cs537.Graphics
