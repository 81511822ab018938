import Mathlib.Data.Fin.VecNotation
import Mathlib.Data.Fintype.Basic
import Cs537.Graphics.Request

/-!
# The life of a request

Seen alone, a request is a small automaton: its two status entries, the I/O under way on each entry, and the
I/Os performed so far. Requests come in seven kinds, by mapping, operation and full-stripe mark.
`Kind.locals` lists the configurations that a request of a kind can be in. The list is closed under
starting and finishing I/Os, and what the simulator relies on can be read off it.
-/

namespace Cs537.Graphics

/-- What decides how a request is served. -/
inductive Kind
  /-- Striping: one I/O on the data disk. -/
  | stripe (op : OpType)
  /-- Mirroring: a read on either mirror. -/
  | mirrorRead
  /-- Mirroring: a write on both mirrors. -/
  | mirrorWrite
  /-- RAID-4 and RAID-5: a read on the data disk. -/
  | parityRead
  /-- RAID-4 and RAID-5: a read and a write on the data and the parity disk. -/
  | smallWrite
  /-- RAID-4: a write of a full stripe that leaves the parity to the last one. -/
  | stripeData
  /-- RAID-4: the last write of a full stripe. -/
  | stripeParity
  deriving DecidableEq, Repr

/-- The kind of a request. -/
def Request.kind (mapping : Mapping) (request : Request) : Kind :=
  match mapping, request.opType with
  | .striping, op => .stripe op
  | .mirroring, .read => .mirrorRead
  | .mirroring, .write => .mirrorWrite
  | .raid4, .read => .parityRead
  | .raid4, .write =>
    if request.fullStripeWrite then
      if request.fullStripeWriteParity then .stripeParity else .stripeData
    else .smallWrite
  | .raid5, .read => .parityRead
  | .raid5, .write => .smallWrite

namespace Kind

/-- The I/O that an idle disk starts on an entry, and the statuses it leaves. -/
def start (k : Kind) (status : Statuses) (e : Fin 2) : Option (OpType × Statuses) :=
  match k with
  | stripe op => if e = 0 ∧ status 0 = .notStarted then some (op, status.set 0 op.doing) else none
  | mirrorRead =>
    if status e = .notStarted then some (.read, (status.set e .doRead).set (1 - e) .done) else none
  | mirrorWrite => if status e = .notStarted then some (.write, status.set e .doWrite) else none
  | parityRead => if e = 0 ∧ status 0 = .notStarted then some (.read, status.set 0 .doRead) else none
  | smallWrite => Request.subtractiveParity status e
  | stripeData =>
    if status e = .notStarted then some (.write, (status.set e .doWrite).set (1 - e) .done) else none
  | stripeParity => if status e = .notStarted then some (.write, status.set e .doWrite) else none

/-- The statuses after the I/O on an entry, and whether the request is done. -/
def finish (k : Kind) (status : Statuses) (e : Fin 2) : Option (Statuses × Bool) :=
  match k with
  | stripe _ => some (Request.requestLevel0Done status e)
  | mirrorRead | mirrorWrite => Request.requestLevel1Done status e
  | parityRead => some (status, true)
  | smallWrite | stripeData | stripeParity => some (Request.twoPhaseDone status e)

/-- The I/Os of a request that are still to be started. -/
def todo (k : Kind) (status : Statuses) : ℕ :=
  match k with
  | stripe _ | mirrorRead | parityRead | stripeData => if status 0 = .notStarted then 1 else 0
  | mirrorWrite | stripeParity =>
    (if status 0 = .notStarted then 1 else 0) + if status 1 = .notStarted then 1 else 0
  | smallWrite => phases (status 0) + phases (status 1)
where
  phases : ReqStatus → ℕ
    | .notStarted => 2
    | .doRead | .parityReadPhaseDone | .parityWritePhaseBegin => 1
    | .doWrite | .done => 0

/-! ## Configurations -/

/-- One entry of a request: its status, the I/O under way on its disk, and those performed there. -/
structure Entry where
  status : ReqStatus
  flight : Option OpType
  performed : List OpType
  deriving DecidableEq

namespace Entry

/-- Nothing has happened on the entry. -/
def fresh : Entry := ⟨.notStarted, none, []⟩

/-- The first I/O is under way. -/
def busy (op : OpType) : Entry := ⟨op.doing, some op, []⟩

/-- The only I/O of the entry has been performed. -/
def served (op : OpType) : Entry := ⟨.done, none, [op]⟩

/-- The entry has been left out. -/
def skipped : Entry := ⟨.done, none, []⟩

end Entry

/-- The configurations in which one of the two entries is served and the other left out. -/
def either (op : OpType) : List (Fin 2 → Entry) :=
  [![.fresh, .fresh], ![.busy op, .skipped], ![.served op, .skipped], ![.skipped, .busy op],
    ![.skipped, .served op]]

/-- The configurations in which both entries are written. -/
def both : List (Fin 2 → Entry) :=
  [Entry.fresh, .busy .write, .served .write].flatMap fun a =>
    [Entry.fresh, .busy .write, .served .write].map fun b => ![a, b]

/-- The entries of a small write before both blocks have been read. -/
def reading : List Entry :=
  [.fresh, .busy .read, ⟨.parityReadPhaseDone, none, [.read]⟩]

/-- The entries of a small write after both blocks have been read. -/
def writing : List Entry :=
  [⟨.parityWritePhaseBegin, none, [.read]⟩, ⟨.doWrite, some .write, [.read]⟩,
    ⟨.done, none, [.read, .write]⟩]

/-- The configurations that a request can be in. -/
def locals : Kind → List (Fin 2 → Entry)
  | stripe op => [![.fresh, .fresh], ![.busy op, .fresh], ![.served op, .fresh]]
  | mirrorRead => either .read
  | mirrorWrite => both
  | parityRead => [![.fresh, .fresh], ![.busy .read, .fresh], ![⟨.doRead, none, [.read]⟩, .fresh]]
  | smallWrite =>
    ((reading.flatMap fun a => reading.map fun b => ![a, b]).filter fun x =>
        ¬ ((x 0).status = .parityReadPhaseDone ∧ (x 1).status = .parityReadPhaseDone))
      ++ writing.flatMap fun a => writing.map fun b => ![a, b]
  | stripeData => either .write
  | stripeParity => both

/-- The kinds, for checks over all of them. -/
def all : List Kind :=
  [stripe .read, stripe .write, mirrorRead, mirrorWrite, parityRead, smallWrite, stripeData, stripeParity]

theorem mem_all (k : Kind) : k ∈ all := by
  cases k with
  | stripe op => cases op <;> decide
  | _ => decide

/-- The configuration after `op` has been started on an entry. -/
def afterStart (x : Fin 2 → Entry) (status : Statuses) (e : Fin 2) (op : OpType) : Fin 2 → Entry :=
  fun i => ⟨status i, if i = e then some op else (x i).flight, (x i).performed⟩

/-- The configuration after `op` has been finished on an entry. -/
def afterFinish (x : Fin 2 → Entry) (status : Statuses) (e : Fin 2) (op : OpType) : Fin 2 → Entry :=
  fun i => ⟨status i, if i = e then none else (x i).flight,
    if i = e then (x i).performed ++ [op] else (x i).performed⟩

/-- Nothing is left to do and nothing is under way. -/
def Complete (k : Kind) (x : Fin 2 → Entry) : Prop :=
  k.todo (fun i => (x i).status) = 0 ∧ ∀ i, (x i).flight = none

instance (k : Kind) (x : Fin 2 → Entry) : Decidable (k.Complete x) :=
  inferInstanceAs (Decidable (_ ∧ _))

/-- Checked over all kinds: a start leads to a configuration of the kind and takes one from the I/Os to be started. -/
private theorem check_start : ∀ k ∈ all, ∀ x ∈ k.locals, ∀ e : Fin 2, (x e).flight = none →
    (k.start (fun i => (x i).status) e).all (fun r =>
      afterStart x r.2 e r.1 ∈ k.locals ∧ k.todo (fun i => (x i).status) = k.todo r.2 + 1) = true := by
  decide +kernel

/-- Checked over all kinds: an end leads to a configuration of the kind and tells whether the request is complete. -/
private theorem check_finish : ∀ k ∈ all, ∀ x ∈ k.locals, ∀ e : Fin 2, ∀ op ∈ (x e).flight,
    (k.finish (fun i => (x i).status) e).any (fun r =>
      afterFinish x r.1 e op ∈ k.locals ∧ k.todo r.1 = k.todo (fun i => (x i).status)
        ∧ (r.2 = true ↔ k.Complete (afterFinish x r.1 e op))) = true := by
  decide +kernel

/-- Checked over all kinds: what is not complete and has nothing under way can start something. -/
private theorem check_startable : ∀ k ∈ all, ∀ x ∈ k.locals, ¬ k.Complete x → (∀ i, (x i).flight = none) →
    ∃ e, (k.start (fun i => (x i).status) e).isSome = true := by
  decide +kernel

variable {k : Kind} {x : Fin 2 → Entry} {e : Fin 2} {op : OpType} {status : Statuses}

/-- A new request. -/
theorem fresh_mem_locals : ∀ k : Kind, (fun _ => Entry.fresh) ∈ k.locals := by
  intro k
  cases k with
  | stripe op => cases op <;> decide
  | _ => decide

/-- A fresh request is not complete. -/
theorem not_complete_fresh (k : Kind) : ¬ k.Complete fun _ => Entry.fresh := by
  cases k with
  | stripe op => cases op <;> decide
  | _ => decide

/-- Starting an I/O leads to a listed configuration, with one I/O less to start. -/
theorem afterStart_mem_locals (hx : x ∈ k.locals) (hflight : (x e).flight = none)
    (hstart : k.start (fun i => (x i).status) e = some (op, status)) :
    afterStart x status e op ∈ k.locals ∧ k.todo (fun i => (x i).status) = k.todo status + 1 := by
  have hcheck := check_start k k.mem_all x hx e hflight
  rw [hstart] at hcheck
  exact of_decide_eq_true hcheck

/-- Finishing an I/O never fails and leads to a listed configuration; the request is reported done exactly
when it is complete. -/
theorem afterFinish_mem_locals (hx : x ∈ k.locals) (hflight : (x e).flight = some op) :
    ∃ status done, k.finish (fun i => (x i).status) e = some (status, done)
      ∧ afterFinish x status e op ∈ k.locals ∧ k.todo status = k.todo (fun i => (x i).status)
      ∧ (done = true ↔ k.Complete (afterFinish x status e op)) := by
  have hcheck := check_finish k k.mem_all x hx e op hflight
  obtain ⟨⟨status, done⟩, hfinish, hr⟩ := (Option.any_eq_true _ _).mp hcheck
  exact ⟨status, done, hfinish, of_decide_eq_true hr⟩

/-- A request with nothing under way is complete or can go on. -/
theorem exists_start (hx : x ∈ k.locals) (hnot : ¬ k.Complete x) (hflight : ∀ i, (x i).flight = none) :
    ∃ e op status, k.start (fun i => (x i).status) e = some (op, status) := by
  obtain ⟨e, he⟩ := check_startable k k.mem_all x hx hnot hflight
  obtain ⟨⟨op, status⟩, hstart⟩ := Option.isSome_iff_exists.mp he
  exact ⟨e, op, status, hstart⟩

end Kind

end Cs537.Graphics
