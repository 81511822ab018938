import Mathlib.Algebra.BigOperators.Fin
import Cs537.Graphics.Termination

/-!
# What a finished simulation has done

A complete request has performed each of its I/Os once, and for every mapping but RAID-4 the count that
`Raid.__init__` computes is the number of I/Os that the scheduler starts. So these simulations end, and when
they do, every request has been served.
-/

namespace Cs537.Graphics

/-! ## The I/Os of a complete request -/

namespace Kind

/-- What the two entries of a complete request may have performed. -/
def outcomes : Kind → List (Fin 2 → List OpType)
  | stripe op => [![[op], []]]
  | mirrorRead => [![[.read], []], ![[], [.read]]]
  | mirrorWrite => [![[.write], [.write]]]
  | parityRead => [![[.read], []]]
  | smallWrite => [![[.read, .write], [.read, .write]]]
  | stripeData => [![[.write], []], ![[], [.write]]]
  | stripeParity => [![[.write], [.write]]]

/-- Checked over all kinds: a complete request has performed one of its outcomes. -/
private theorem check_outcome : ∀ k ∈ all, ∀ x ∈ k.locals, k.Complete x →
    (fun e => (x e).performed) ∈ k.outcomes := by
  decide +kernel

/-- A complete request has performed one of the outcomes of its kind. -/
theorem performed_mem_outcomes {k : Kind} {x : Fin 2 → Entry} (hx : x ∈ k.locals) (h : k.Complete x) :
    (fun e => (x e).performed) ∈ k.outcomes :=
  check_outcome k k.mem_all x hx h

end Kind

variable {c : Config}

namespace Core

variable {s : Core c} {i : c.Index} {d : Disk} {e : Fin 2}

/-- The list of the entry of a disk. -/
theorem performed_eq (he : (c.request i).diskIndex d = some e) :
    (s.config i e).performed = s.performedOn i d := by
  have hlist := c.diskIndex_eq_some_iff.mp he
  show ((c.request i).physDiskList[(e : ℕ)]?.map (s.performedOn i)).getD [] = _
  rw [hlist]
  rfl

/-- Nothing is performed on the disks of other requests. -/
theorem Inv.performedOn_eq_nil (h : s.Inv) (hnone : (c.request i).diskIndex d = none) :
    s.performedOn i d = [] := by
  unfold performedOn
  rw [List.map_eq_nil_iff, List.filter_eq_nil_iff]
  intro ev hev hmatch
  obtain ⟨-, hdisk, hindex⟩ := of_decide_eq_true hmatch
  obtain ⟨e, he⟩ := h.logged ev hev
  rw [hdisk, hindex, hnone] at he
  cases he

/-- The request at `i` has been served: its disks have performed what its kind asks for, and no other disk
has performed anything for it. -/
def Served (s : Core c) (i : c.Index) : Prop :=
  ∃ ops ∈ (c.kind i).outcomes, ∀ d, s.performedOn i d = ((c.request i).diskIndex d).elim [] ops

/-- A complete request is served. -/
theorem Inv.served (h : s.Inv) (hcomplete : (c.kind i).Complete (s.config i)) : s.Served i := by
  refine ⟨_, Kind.performed_mem_outcomes (h.locals i) hcomplete, fun d => ?_⟩
  cases hindex : (c.request i).diskIndex d with
  | none => exact h.performedOn_eq_nil hindex
  | some e => exact (performed_eq hindex).symm

end Core

/-! ## Counting I/Os -/

/-- The number of I/Os of a request. -/
def Request.ioCount (mapping : Mapping) (request : Request) : ℕ := (request.kind mapping).todo .init

namespace Config

/-- The I/Os of all requests, one by one. -/
theorem total_eq (c : Config) : c.total = (c.requestQueue.map (Request.ioCount c.mapping)).sum :=
  Fin.sum_univ_fun_getElem c.requestQueue (Request.ioCount c.mapping)

/-- A sum with one for each element, and something more for those with a property. -/
private theorem sum_map_one_add {α : Type*} (l : List α) (p : α → Prop) [DecidablePred p] (k : ℕ) :
    (l.map fun a => 1 + if p a then k else 0).sum = l.length + k * l.countP fun a => p a := by
  induction l with
  | nil => rfl
  | cons a l ih =>
    rw [List.map_cons, List.sum_cons, ih, List.length_cons, List.countP_cons]
    by_cases ha : p a
    · rw [if_pos ha, if_pos (decide_eq_true ha), Nat.mul_succ]
      omega
    · rw [if_neg ha, if_neg (fun h => ha (of_decide_eq_true h))]
      simp only [Nat.add_zero]
      omega

/-- The I/Os of the requests of a list, when each has one and each write `k` more. -/
private theorem sum_ioCount {mapping : Mapping} {k : ℕ} (l : List Request)
    (h : ∀ r ∈ l, r.ioCount mapping = 1 + if r.opType = .write then k else 0) :
    (l.map (Request.ioCount mapping)).sum = l.length + k * l.countP fun r => r.opType = .write := by
  rw [List.map_congr_left h]
  exact sum_map_one_add l (fun r => r.opType = .write) k

theorem ioCount_striping (r : Request) : r.ioCount .striping = 1 := rfl

theorem ioCount_mirroring (r : Request) :
    r.ioCount .mirroring = 1 + if r.opType = .write then 1 else 0 := by
  unfold Request.ioCount Request.kind
  cases r.opType <;> rfl

/-- A small write of RAID-5 is four I/Os, a read one. -/
theorem ioCount_raid5 (r : Request) : r.ioCount .raid5 = 1 + if r.opType = .write then 3 else 0 := by
  unfold Request.ioCount Request.kind
  cases r.opType <;> rfl

/-- **The count is exact** for every mapping but RAID-4. -/
theorem exact_of_ne_raid4 (h : c.mapping ≠ .raid4) : c.Exact := by
  have htotal := c.total_eq
  unfold Exact requestCountNeeded
  unfold requestQueue at htotal
  cases hmapping : c.mapping with
  | striping =>
    rw [hmapping] at htotal
    rw [htotal, List.map_congr_left fun r _ => ioCount_striping r, List.map_const', List.sum_replicate]
    simp
  | mirroring =>
    rw [hmapping] at htotal
    rw [htotal, sum_ioCount (k := 1) _ fun r _ => ioCount_mirroring r]
    push_cast
    omega
  | raid4 => exact absurd hmapping h
  | raid5 =>
    rw [hmapping] at htotal
    rw [htotal, sum_ioCount (k := 3) _ fun r _ => ioCount_raid5 r]
    push_cast
    omega

end Config

/-! ## The end of the simulation -/

/-- What holds when the simulation has ended: no disk is busy, all requests are done, and each has been
served. -/
structure State.Finished (s : State c) : Prop where
  idle : ∀ d, s.diskState d = .null
  logical : s.logicalRequests = c.addr.length
  served : ∀ i, s.core.Served i

/-- When all requests are complete, everything is at rest. -/
theorem State.Reached.finished {s : State c} (h : s.Reached) (hall : s.core.AllComplete) : s.Finished where
  idle d := by
    have hinv := Core.reachable_inv h.reachable
    exact (core_serving_eq_none_iff (h.timing.targeted d)).mp (hinv.idle_of_allComplete hall d)
  logical := by
    have hinv := Core.reachable_inv h.reachable
    exact (hinv.logical_of_allComplete hall).trans c.length_requestQueue
  served i := (Core.reachable_inv h.reachable).served (hall i)

/-- With an exact count, the simulation has ended exactly when all requests are complete. -/
theorem State.Reached.isDone_iff {s : State c} (hexact : c.Exact) (h : s.Reached) :
    s.isDone = true ↔ s.core.AllComplete :=
  (Core.reachable_settled hexact h.reachable).done_iff.trans
    (Core.reachable_inv h.reachable).allComplete_iff.symm

/-- **The animated simulator finishes with exact accounting**: under striping, mirroring and RAID-5, no tick
fails, the count never exceeds `request_count_needed`, the simulation ends when it is reached, which happens,
and then every request has been served. -/
theorem simulation_finishes (c : Config) (h : c.mapping ≠ .raid4) :
    (∀ n, ∃ s, run c n = some s ∧ s.requestCount ≤ c.requestCountNeeded
        ∧ (s.isDone = true ↔ s.requestCount = c.requestCountNeeded))
      ∧ (∃ n s, run c n = some s ∧ s.isDone = true)
      ∧ ∀ n s, run c n = some s → s.isDone = true → s.Finished := by
  have hexact := Config.exact_of_ne_raid4 h
  refine ⟨fun n => ?_, exists_isDone hexact, fun n s hrun hdone => ?_⟩
  · obtain ⟨s, hrun, hreached⟩ := run_reached hexact n
    refine ⟨s, hrun, ?_, ?_⟩
    · rw [hexact]
      exact (Core.reachable_inv hreached.reachable).requestCount_le
    · rw [hexact]
      exact (Core.reachable_settled hexact hreached.reachable).done_iff
  · have hreached := reached_of_run hrun
    exact hreached.finished ((hreached.isDone_iff hexact).mp hdone)

/-- A read and two small writes of RAID-5 that share a row, with a window of two. -/
def sharedRow : Config :=
  .ofArgs .raid5 [(3, .read), (4, .write), (5, .write)] 4 2 (by decide)

/-- The simulation of the shared row ends. -/
theorem simulation_finishes_sharedRow :
    (∃ n s, run sharedRow n = some s ∧ s.isDone = true)
      ∧ ∀ n s, run sharedRow n = some s → s.isDone = true → s.Finished :=
  (simulation_finishes sharedRow (by decide)).2

end Cs537.Graphics
