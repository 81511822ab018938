import Mathlib.Data.List.Basic
import Cs537.Raid.Tiling

/-!
# Logical requests as sequences of physical accesses

`enqueue0`, `enqueue1` and `enqueue45` of `raid.py` turn a logical request into calls of `doSingleRead`
and `doSingleWrite`. Which calls they make depends on the configuration and on the request only, so
each routine is modelled by the list of its calls, in order; `performAll` then carries the list out on
the disks and stops at the first failed assertion of `disk.enqueue`.

Every access carries a `Role`: the logical block for whose sake the source issues it, or that it is a
parity access. The disks never see it; it says which line of the source makes the call.
-/

namespace Cs537

/-- A slot of the array: a disk and an offset on it. -/
abbrev Slot := ℕ × ℕ

inductive Op where
  | read
  | write
deriving DecidableEq, Repr

/-- On whose behalf an access is made. -/
inductive Role where
  | data (bnum : ℕ)
  | parity
deriving DecidableEq, Repr

/-- One call of `doSingleRead` or `doSingleWrite`. -/
structure Access where
  op : Op
  slot : Slot
  role : Role
deriving DecidableEq, Repr

namespace Access

/-- The access to the slot of logical block `bnum`. -/
def data (op : Op) (bnum : ℕ) (slot : Slot) : Access := ⟨op, slot, .data bnum⟩

/-- The access to the parity block at offset `off` of disk `pdisk`. -/
def parity (op : Op) (pdisk off : ℕ) : Access := ⟨op, (pdisk, off), .parity⟩

end Access

/-- A logical request: `size` blocks from `addr` on. -/
structure Request where
  addr : ℕ
  size : ℕ
  isWrite : Bool
deriving DecidableEq, Repr

namespace Request

/-- `range(addr, addr+size)`. -/
def blocks (q : Request) : List ℕ := List.range' q.addr q.size

def op (q : Request) : Op := if q.isWrite then .write else .read

theorem mem_blocks {q : Request} {b : ℕ} : b ∈ q.blocks ↔ q.addr ≤ b ∧ b < q.addr + q.size :=
  List.mem_range'_1

end Request

/-- `offList`: the offsets in the order of their first occurrence. -/
def offListOf (offs : List ℕ) : List ℕ :=
  offs.foldl (fun offList off => if off ∈ offList then offList else offList ++ [off]) []

namespace Raid

variable (r : Raid)

/-- Access the blocks `begin_ ≤ voff < end_` one by one through `bmap`. -/
def dataAccesses (op : Op) (begin_ end_ : ℕ) : Except PyError (List Access) :=
  (List.range' begin_ (end_ - begin_)).mapM fun voff => do
    let slot ← r.bmap voff
    return Access.data op voff slot

/-- The accesses of `dataAccesses` followed by one parity access for each distinct offset among them. -/
def dataAndParity (op : Op) (pdisk begin_ end_ : ℕ) : Except PyError (List Access) := do
  let data ← r.dataAccesses op begin_ end_
  let offList := offListOf (data.map fun io => io.slot.2)
  return data ++ offList.map (Access.parity op pdisk)

/-- The reads of the additive method: the blocks of the stripe that are not written. -/
def additiveReads (stripe begin_ end_ : ℕ) : Except PyError (List Access) := do
  let stripeBegin := stripe * r.blocksInStripe
  let stripeEnd := stripeBegin + r.blocksInStripe
  let before ← r.dataAccesses .read stripeBegin begin_
  let after ← r.dataAccesses .read end_ stripeEnd
  return before ++ after

/-- The test of `doPartialWrite` for the subtractive method. -/
def Subtractive (begin_ end_ : ℕ) : Prop :=
  (end_ - begin_) + 1 ≤ r.blocksInStripe - (end_ - begin_)

instance (begin_ end_ : ℕ) : Decidable (r.Subtractive begin_ end_) :=
  inferInstanceAs (Decidable (_ ≤ _))

/-- `doPartialWrite`: write the blocks `begin_ ≤ voff < end_` of a stripe and its parity. -/
def doPartialWrite (stripe begin_ end_ : ℕ) : Except PyError (List Access) := do
  let pdisk ← r.pmap stripe
  let reads ←
    if r.Subtractive begin_ end_ then r.dataAndParity .read pdisk begin_ end_
    else r.additiveReads stripe begin_ end_
  let writes ← r.dataAndParity .write pdisk begin_ end_
  return reads ++ writes

/-- The `end` that the write loop of `enqueue45` computes for a stripe. -/
def pieceEnd (stripe left begin_ : ℕ) : ℕ :=
  let endOfStripe := stripe * r.blocksInStripe + r.blocksInStripe
  let end_ := if left ≥ r.blocksInStripe then begin_ + r.blocksInStripe else begin_ + left
  if end_ ≥ endOfStripe then endOfStripe else end_

/-- The arguments `(stripe, begin, end)` that the write loop of `enqueue45` passes to
`doPartialWrite`, for the stripes still to come. -/
def stripeLoop : List ℕ → (left begin_ : ℕ) → List (ℕ × ℕ × ℕ)
  | [], _, _ => []
  | stripe :: stripes, left, begin_ =>
    let end_ := r.pieceEnd stripe left begin_
    (stripe, begin_, end_) :: stripeLoop stripes (left - (end_ - begin_)) end_

/-- The pieces of a write request, one per stripe. -/
def pieces (addr size : ℕ) : List (ℕ × ℕ × ℕ) :=
  let initStripe := addr / r.blocksInStripe
  let finalStripe := (addr + size - 1) / r.blocksInStripe
  r.stripeLoop (List.range' initStripe (finalStripe + 1 - initStripe)) size addr

/-- `enqueue0`. -/
def enqueue0 (q : Request) : List Access :=
  q.blocks.map fun b => Access.data q.op b (r.bmap0 b)

/-- `enqueue1`: a write goes to both mirrors, a read to the one that the parity of the offset picks. -/
def enqueue1 (q : Request) : List Access :=
  q.blocks.flatMap fun b =>
    let (disk1, disk2, off) := r.bmap1 b
    if q.isWrite then [Access.data .write b (disk1, off), Access.data .write b (disk2, off)]
    else if off % 2 = 0 then [Access.data .read b (disk1, off)]
    else [Access.data .read b (disk2, off)]

/-- `enqueue45`. -/
def enqueue45 (q : Request) : Except PyError (List Access) :=
  if q.isWrite then do
    let calls ← (r.pieces q.addr q.size).mapM fun (stripe, begin_, end_) =>
      r.doPartialWrite stripe begin_ end_
    return calls.flatten
  else
    r.dataAccesses .read q.addr (q.addr + q.size)

/-- `raid.enqueue`: the accesses of one logical request. -/
def enqueue (q : Request) : Except PyError (List Access) :=
  match r.raidLevel with
  | .zero => .ok (r.enqueue0 q)
  | .one => .ok (r.enqueue1 q)
  | .four | .five => r.enqueue45 q

end Raid

/-! ## Carrying the accesses out -/

/-- `doSingleRead` and `doSingleWrite`: both charge the access to the addressed disk. -/
def perform (disks : List Disk) (io : Access) : Except PyError (List Disk) :=
  match disks[io.slot.1]? with
  | none => .error .indexError
  | some d => do
    let d' ← d.enqueue io.slot.2
    return disks.set io.slot.1 d'

/-- The accesses in order, up to the first exception. -/
def performAll (disks : List Disk) (ios : List Access) : Except PyError (List Disk) :=
  ios.foldlM perform disks

end Cs537
