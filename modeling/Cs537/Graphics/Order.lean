import Cs537.Graphics.Completion
import Cs537.Graphics.Trace

/-!
# The order of striped and mirrored I/Os

Under striping and mirroring, an entry of a request is served at most once. A disk takes the first request of
the queue that it can serve, so what it has passed stays behind: each disk serves the queue in order, and a
read finds every earlier write of its block performed on the disk that serves it.
-/

namespace Cs537.Graphics

variable {c : Config}

/-! ## Started entries -/

namespace Kind

/-- Checked over all kinds: a start takes its entry, and no entry that was taken becomes startable again. -/
private theorem check_start_status : ∀ k ∈ all, ∀ x ∈ k.locals, ∀ e : Fin 2, (x e).flight = none →
    (k.start (fun i => (x i).status) e).all (fun r => r.2 e ≠ .notStarted
      ∧ ∀ e', (x e').status ≠ .notStarted → r.2 e' ≠ .notStarted) = true := by
  decide +kernel

/-- Checked over all kinds: nor does an end. -/
private theorem check_finish_status : ∀ k ∈ all, ∀ x ∈ k.locals, ∀ e : Fin 2, (x e).flight ≠ none →
    (k.finish (fun i => (x i).status) e).all (fun r =>
      ∀ e', (x e').status ≠ .notStarted → r.1 e' ≠ .notStarted) = true := by
  decide +kernel

/-- A write that is served in one phase has been performed on an entry that is started and not under way. -/
theorem performed_of_started : ∀ k ∈ [stripe .write, mirrorWrite], ∀ x ∈ k.locals, ∀ e : Fin 2,
    (x e).status ≠ .notStarted → (x e).flight = none → (x e).performed = [.write] := by
  decide +kernel

variable {k : Kind} {x : Fin 2 → Entry} {e e' : Fin 2} {op : OpType} {status : Statuses} {done : Bool}

/-- Starting an I/O starts the entry, and no started entry is reset. -/
theorem start_status_ne (hx : x ∈ k.locals) (hflight : (x e).flight = none)
    (hstart : k.start (fun i => (x i).status) e = some (op, status)) :
    status e ≠ .notStarted ∧ ∀ e', (x e').status ≠ .notStarted → status e' ≠ .notStarted := by
  have hcheck := check_start_status k k.mem_all x hx e hflight
  rw [hstart] at hcheck
  exact of_decide_eq_true hcheck

/-- Finishing an I/O resets no started entry. -/
theorem finish_status_ne (hx : x ∈ k.locals) (hflight : (x e).flight ≠ none)
    (hfinish : k.finish (fun i => (x i).status) e = some (status, done)) (e' : Fin 2)
    (hne : (x e').status ≠ .notStarted) : status e' ≠ .notStarted := by
  have hcheck := check_finish_status k k.mem_all x hx e hflight
  rw [hfinish] at hcheck
  exact of_decide_eq_true hcheck e' hne

end Kind

namespace Config

variable {i : c.Index} {d : Disk} {e : Fin 2} {status : Statuses}

/-- Under striping, requests only use the first entry. -/
theorem entry_eq_zero (h : c.mapping = .striping) (he : (c.request i).diskIndex d = some e) : e = 0 := by
  rw [c.diskIndex_eq_some_iff] at he
  rcases c.physDiskList_cases i with ⟨-, a, hlist⟩ | ⟨hne, -⟩
  · rw [hlist] at he
    fin_cases e
    · rfl
    · cases he
  · exact absurd h hne

/-- Under striping and mirroring, a disk has something to start for a request exactly when its entry has not
been started. -/
theorem doScheduling_eq_none_iff (h : c.mapping = .striping ∨ c.mapping = .mirroring)
    (he : (c.request i).diskIndex d = some e) :
    (c.request i).doScheduling c.mapping status d = none ↔ status e ≠ .notStarted := by
  rw [c.doScheduling_eq, he]
  show ((c.request i).kind c.mapping).start status e = none ↔ _
  unfold Request.kind
  rcases h with h | h
  · obtain rfl := entry_eq_zero h he
    rw [h]
    simp [Kind.start]
  · rw [h]
    cases (c.request i).opType <;> simp [Kind.start]

/-- Their writes are served in one phase. -/
theorem kind_of_write (h : c.mapping = .striping ∨ c.mapping = .mirroring)
    (hop : (c.request i).opType = .write) : c.kind i ∈ [Kind.stripe .write, .mirrorWrite] := by
  unfold kind Request.kind
  rw [hop]
  rcases h with h | h
  · rw [h]
    exact List.mem_cons_self
  · rw [h]
    exact List.mem_cons_of_mem _ List.mem_cons_self

end Config

/-- The requests whose I/Os a disk has started, in order. -/
def startsOn (log : List (Event c)) (d : Disk) : List c.Index :=
  (log.filter fun ev => ev.kind = .start ∧ ev.disk = d).map Event.index

/-- Every read that has been started on a disk was started after all earlier writes of its block had been
performed there. -/
def ReadsAfterWrites (log : List (Event c)) : Prop :=
  ∀ (i j : c.Index) (d : Disk) (op : OpType) (before after : List (Event c)), i < j →
    (c.request i).opType = .write → (c.request j).opType = .read →
    (c.request i).logicalAddress = (c.request j).logicalAddress →
    log = before ++ Event.mk .start d j op :: after → Event.mk .finish d i .write ∈ before

section Log

variable {log : List (Event c)} {ev : Event c} {d : Disk}

/-- The requests that a disk starts, with one event more. -/
theorem startsOn_append : startsOn (log ++ [ev]) d
    = startsOn log d ++ if ev.kind = .start ∧ ev.disk = d then [ev.index] else [] := by
  unfold startsOn
  rw [List.filter_append, List.map_append, List.filter_cons]
  by_cases hev : ev.kind = .start ∧ ev.disk = d
  · rw [if_pos hev, if_pos (decide_eq_true hev)]
    rfl
  · rw [if_neg hev, if_neg fun h => hev (of_decide_eq_true h)]
    rfl

/-- Only the last event has to be looked at. -/
theorem ReadsAfterWrites.append (h : ReadsAfterWrites log)
    (hev : ∀ i, i < ev.index → ev.kind = .start → (c.request i).opType = .write →
      (c.request i).logicalAddress = (c.request ev.index).logicalAddress →
      Event.mk .finish ev.disk i .write ∈ log) : ReadsAfterWrites (log ++ [ev]) := by
  intro i j d op before after hlt hwrite hread hblock heq
  rcases concat_eq_append_cons heq with ⟨rfl, rfl⟩ | ⟨after', hlog⟩
  · exact hev i hlt rfl hwrite hblock
  · exact h i j d op before after' hlt hwrite hread hblock hlog

end Log

namespace Core

variable {s : Core c} {d : Disk} {i j : c.Index} {e : Fin 2} {op : OpType} {status : Statuses} {done : Bool}

/-- No started entry is reset. -/
theorem Inv.start_status_ne (h : s.Inv) (hstarts : s.Starts d i op status) (hne : s.status j e ≠ .notStarted) :
    (s.start d i op status).status j e ≠ .notStarted := by
  rw [start_status]
  split
  · rename_i hj
    obtain ⟨e', he', hstart⟩ := exists_entry_of_schedule hstarts.schedule
    have hflight : (s.config i e').flight = none := flight_of_disk_idle hstarts.idle he'
    exact (Kind.start_status_ne (h.locals i) hflight hstart).2 e (hj ▸ hne)
  · exact hne

/-- An end does not make a request startable again. -/
theorem Inv.served_status_ne (h : s.Inv) (hfinishes : s.Finishes d i op status done)
    (hne : s.status j e ≠ .notStarted) : (s.served d i op status done).status j e ≠ .notStarted := by
  rw [served_status]
  split
  · rename_i hj
    obtain ⟨e', he', hdone⟩ := hfinishes.done
    rw [c.requestDone_eq] at hdone
    have hflight : (s.config i e').flight ≠ none := by
      rw [flight_of_serving hfinishes.serving he']
      exact Option.some_ne_none _
    exact Kind.finish_status_ne (h.locals i) hflight hdone e (hj ▸ hne)
  · exact hne

/-- What holds of the order of striped and mirrored I/Os. -/
structure Ordered (s : Core c) : Prop where
  inv : s.Inv
  sorted : ∀ d, (startsOn s.log d).Pairwise (· < ·)
  /-- A disk has passed every entry up to the last one that it has started. -/
  passed : ∀ d, ∀ i ∈ startsOn s.log d, ∀ j ≤ i, ∀ e, (c.request j).diskIndex d = some e →
    s.status j e ≠ .notStarted
  reads : ReadsAfterWrites s.log

theorem init_ordered : (Core.init c).Ordered where
  inv := init_inv
  sorted _ := List.Pairwise.nil
  passed _ _ h := absurd h List.not_mem_nil
  reads i j d op before after _ _ _ _ heq := by
    have hnil : ([] : List (Event c)) = before ++ Event.mk .start d j op :: after := heq
    simp at hnil

/-- An earlier write of the block has been performed on a disk that has passed it and is idle. -/
theorem Inv.mem_performedOn (h : s.Inv) (hc : c.mapping = .striping ∨ c.mapping = .mirroring)
    (hidle : s.serving d = none) (hwrite : (c.request i).opType = .write)
    (he : (c.request i).diskIndex d = some e) (hne : s.status i e ≠ .notStarted) :
    .write ∈ s.performedOn i d := by
  have hflight := flight_of_disk_idle hidle he
  have hperformed :=
    Kind.performed_of_started _ (Config.kind_of_write hc hwrite) _ (h.locals i) e hne hflight
  rw [← performed_eq he, hperformed]
  exact List.mem_singleton_self _

/-- The requests that a disk starts, with one start more. -/
private theorem startsOn_start (d' : Disk) :
    startsOn (s.start d i op status).log d' = startsOn s.log d' ++ if d = d' then [i] else [] := by
  show startsOn (s.log ++ [Event.mk .start d i op]) d' = _
  rw [startsOn_append]
  simp

/-- What a disk starts it has not started before. -/
private theorem status_of_starts (hc : c.mapping = .striping ∨ c.mapping = .mirroring)
    (hstarts : s.Starts d i op status) (he : (c.request i).diskIndex d = some e) :
    s.status i e = .notStarted := by
  by_contra hne
  have hnone := (Config.doScheduling_eq_none_iff hc he).mpr hne
  rw [hstarts.schedule] at hnone
  cases hnone

/-- Nothing up to the request a disk starts is left unstarted by it. -/
private theorem Inv.start_passed (h : s.Inv) (hc : c.mapping = .striping ∨ c.mapping = .mirroring)
    (hstarts : s.Starts d i op status) (hj : j ≤ i)
    (he : (c.request j).diskIndex d = some e) :
    (s.start d i op status).status j e ≠ .notStarted := by
  rcases hj.lt_or_eq with hlt | rfl
  · -- the scheduler has looked at this request first
    have hnone := (Config.doScheduling_eq_none_iff hc he).mp (hstarts.first j hlt)
    exact h.start_status_ne hstarts hnone
  · obtain ⟨e', he', hstart⟩ := exists_entry_of_schedule hstarts.schedule
    cases he'.symm.trans he
    rw [start_status, if_pos rfl]
    have hflight := flight_of_disk_idle hstarts.idle he
    exact (Kind.start_status_ne (h.locals j) hflight hstart).1

/-- The scheduler starts the requests of a disk in queue order. -/
theorem Ordered.start (h : s.Ordered) (hc : c.mapping = .striping ∨ c.mapping = .mirroring)
    (hstarts : s.Starts d i op status) : (s.start d i op status).Ordered := by
  obtain ⟨e, he, -⟩ := exists_entry_of_schedule hstarts.schedule
  -- what the disk has started is behind it: a request that waits has not been passed over
  have hbefore : ∀ m ∈ startsOn s.log d, m < i := by
    intro m hm
    by_contra hge
    exact h.passed d m hm i (not_lt.mp hge) e he (status_of_starts hc hstarts he)
  refine ⟨h.inv.start hstarts.idle hstarts.schedule, fun d' => ?_, fun d' m hm j hj e' he' => ?_, ?_⟩
  · rw [startsOn_start]
    split
    · rename_i hd
      subst hd
      refine List.pairwise_append.mpr ⟨h.sorted d, List.pairwise_singleton _ _, fun m hm m' hm' => ?_⟩
      rw [List.mem_singleton.mp hm']
      exact hbefore m hm
    · rw [List.append_nil]
      exact h.sorted d'
  · rw [startsOn_start] at hm
    rcases List.mem_append.mp hm with hold | hnew
    · exact h.inv.start_status_ne hstarts (h.passed d' m hold j hj e' he')
    · split at hnew
      · rename_i hd
        subst hd
        rw [List.mem_singleton.mp hnew] at hj
        exact h.inv.start_passed hc hstarts hj he'
      · cases hnew
  · -- an earlier write of the block is on the same disk, and had nothing left for it
    refine h.reads.append fun j hlt _ hwrite hblock => ?_
    have he' : (c.request j).diskIndex d = some e := by
      rw [c.diskIndex_eq_some_iff, c.physDiskList_eq] at he ⊢
      rwa [hblock]
    have hnone := (Config.doScheduling_eq_none_iff hc he').mp (hstarts.first j hlt)
    exact mem_performedOn.mp (h.inv.mem_performedOn hc hstarts.idle hwrite he' hnone)

/-- Ends do not change the order of the starts. -/
theorem Ordered.served (h : s.Ordered) (hfinishes : s.Finishes d i op status done) :
    (s.served d i op status done).Ordered := by
  have hlog : ∀ d', startsOn (s.served d i op status done).log d' = startsOn s.log d' := by
    intro d'
    show startsOn (s.log ++ [Event.mk .finish d i op]) d' = _
    rw [startsOn_append]
    exact List.append_nil _
  refine ⟨h.inv.finishes hfinishes, fun d' => ?_, fun d' m hm j hj e he => ?_, h.reads.append fun j _ hkind => ?_⟩
  · rw [hlog]
    exact h.sorted d'
  · rw [hlog] at hm
    exact h.inv.served_status_ne hfinishes (h.passed d' m hm j hj e he)
  · cases hkind

/-- **Striping and mirroring keep the order.** -/
theorem reachable_ordered (hc : c.mapping = .striping ∨ c.mapping = .mirroring) (h : (untimed c).Reachable s) :
    s.Ordered := by
  exact reachable_of_events h init_ordered (fun _ _ _ _ _ ht hstarts => ht.start hc hstarts)
    (fun _ _ _ _ _ _ ht hfinishes => ht.served hfinishes) fun _ ht => ⟨ht.inv.stop, ht.sorted, ht.passed, ht.reads⟩

end Core

/-- **Striped and mirrored I/Os are served in queue order**: the requests that a disk starts have increasing
indices, so a read is served by a disk on which every earlier write of its block has been performed. -/
theorem starts_in_queue_order (c : Config) (hc : c.mapping = .striping ∨ c.mapping = .mirroring) (s : Core c)
    (hs : (untimed c).Reachable s) :
    (∀ d, (startsOn s.log d).Pairwise (· < ·)) ∧ ReadsAfterWrites s.log :=
  ⟨(Core.reachable_ordered hc hs).sorted, (Core.reachable_ordered hc hs).reads⟩

/-- A mirrored block is written and read, and another one in its row is written, with a window of two. -/
def mirroredBlock : Config :=
  .ofArgs .mirroring [(2, .write), (3, .write), (2, .read)] 4 2 (by decide)

/-- The read of the mirrored block starts behind the writes before it. -/
theorem starts_in_queue_order_mirroredBlock :
    ∃ s : State mirroredBlock, run mirroredBlock 60 = some s ∧ s.isDone = true
      ∧ (∀ d, (startsOn s.log d).Pairwise (· < ·)) ∧ ReadsAfterWrites s.log := by
  have hrun : (run mirroredBlock 60).any (fun s => s.isDone = true) = true := by decide +kernel
  obtain ⟨s, hs, hdone⟩ := (Option.any_eq_true _ _).mp hrun
  exact ⟨s, hs, of_decide_eq_true hdone,
    starts_in_queue_order mirroredBlock (.inr rfl) s.core (reached_of_run hs).reachable⟩

end Cs537.Graphics
