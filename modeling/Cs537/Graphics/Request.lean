import Mathlib.Algebra.GroupWithZero.Nat
import Mathlib.Data.Int.Notation
import Mathlib.Data.Nat.Notation

/-!
# Requests of the animated simulator

`class Request` of `raid-graphics.py`, with the decisions of the four `Do…Scheduling` methods: whether a
disk starts an I/O for a request, which one, and the statuses it leaves. `Raid.__init__` places the
requests on the disks and, for RAID-4, marks full stripes.
-/

namespace Cs537.Graphics

/-- The simulator runs four disks. -/
abbrev Disk := Fin 4

/-- The disk list of a request has two entries at most. -/
instance (priority := high) neZero_two : NeZero 2 := ⟨by decide⟩

instance (priority := high) neZero_four : NeZero 4 := ⟨by decide⟩

/-- The `REQ_…` constants. -/
inductive ReqStatus
  | notStarted
  | doRead
  | doWrite
  | parityReadPhaseDone
  | parityWritePhaseBegin
  | done
  deriving DecidableEq, Repr

inductive OpType
  | read
  | write
  deriving DecidableEq, Repr

/-- The status while an I/O of the type is under way. -/
def OpType.doing : OpType → ReqStatus
  | .read => .doRead
  | .write => .doWrite

/-- The mappings `0`, `1`, `4` and `5`. -/
inductive Mapping
  | striping
  | mirroring
  | raid4
  | raid5
  deriving DecidableEq, Repr

/-- What `__init__` fixes about a request. -/
structure Request where
  logicalAddress : ℕ
  opType : OpType
  fullStripeWrite : Bool
  fullStripeWriteParity : Bool
  physDiskList : List Disk
  physOffset : ℕ
  deriving DecidableEq, Repr

/-- `Request.status`: one status for each entry of the disk list. -/
abbrev Statuses := Fin 2 → ReqStatus

/-- `SetPhysicalAddress` starts every status at `REQ_NOT_STARTED`. -/
def Statuses.init : Statuses := fun _ => .notStarted

/-- `SetStatus`. -/
def Statuses.set (status : Statuses) (index : Fin 2) (value : ReqStatus) : Statuses :=
  fun i => if i = index then value else status i

namespace Request

/-- The entry of `disk` in the disk list: `disk_to_index_map`. -/
def diskIndex (request : Request) (disk : Disk) : Option (Fin 2) :=
  if request.physDiskList[0]? = some disk then some 0
  else if request.physDiskList[1]? = some disk then some 1
  else none

/-- `MarkFullStripeWrite`. -/
def markFullStripeWrite (parity : Bool) (request : Request) : Request :=
  { request with fullStripeWrite := true, fullStripeWriteParity := parity }

/-! ## Completion -/

/-- `RequestLevel0Done`: the statuses after the I/O on `index`, and whether the request is done. -/
def requestLevel0Done (status : Statuses) (index : Fin 2) : Statuses × Bool :=
  if status index = .doRead ∨ status index = .doWrite then (status.set index .done, true)
  else (status, true)

/-- `RequestLevel1Done`; `none` is its failing assertion. -/
def requestLevel1Done (status : Statuses) (index : Fin 2) : Option (Statuses × Bool) :=
  if status index = .doRead then some (status.set index .done, true)
  else if status index = .doWrite then
    let status := status.set index .done
    some (status, status (1 - index) = .done)
  else none

/-- The part of `RequestLevel4Done` for writes, which have two phases. -/
def twoPhaseDone (status : Statuses) (index : Fin 2) : Statuses × Bool :=
  let status := if status index = .doRead then status.set index .parityReadPhaseDone
    else if status index = .doWrite then status.set index .done
    else status
  let status := if status index = .parityReadPhaseDone ∧ status (1 - index) = .parityReadPhaseDone
    then (status.set 0 .parityWritePhaseBegin).set 1 .parityWritePhaseBegin
    else status
  (status, status index = .done ∧ status (1 - index) = .done)

/-- `RequestLevel4Done`. -/
def requestLevel4Done (request : Request) (status : Statuses) (index : Fin 2) : Statuses × Bool :=
  if request.opType = .read then (status, true) else twoPhaseDone status index

/-- The completion method of each mapping. -/
def requestDone (mapping : Mapping) (request : Request) (status : Statuses) (index : Fin 2) :
    Option (Statuses × Bool) :=
  match mapping with
  | .striping => some (requestLevel0Done status index)
  | .mirroring => requestLevel1Done status index
  | .raid4 => some (request.requestLevel4Done status index)
  | .raid5 => some (request.requestLevel4Done status index)

/-! ## Scheduling -/

/-- `DoStripeScheduling`: the I/O that `disk` starts and the new statuses, or `none`. -/
def doStripeScheduling (request : Request) (status : Statuses) (disk : Disk) :
    Option (OpType × Statuses) :=
  if status 0 = .notStarted ∧ request.logicalAddress % 4 = disk then
    some (request.opType, status.set 0 request.opType.doing)
  else none

/-- `DoMirrorScheduling`. -/
def doMirrorScheduling (request : Request) (status : Statuses) (disk : Disk) :
    Option (OpType × Statuses) :=
  match request.diskIndex disk with
  | none => none
  | some index =>
    if status index = .notStarted then
      match request.opType with
      | .read => some (.read, (status.set index .doRead).set (1 - index) .done)
      | .write => some (.write, status.set index .doWrite)
    else none

/-- The subtractive parity handling of RAID-4 and RAID-5: a write first reads both blocks, then
writes both. -/
def subtractiveParity (status : Statuses) (index : Fin 2) : Option (OpType × Statuses) :=
  if status index = .notStarted then some (.read, status.set index .doRead)
  else if status index = .parityWritePhaseBegin then some (.write, status.set index .doWrite)
  else none

/-- `DoRaid4Scheduling`. -/
def doRaid4Scheduling (request : Request) (status : Statuses) (disk : Disk) :
    Option (OpType × Statuses) :=
  if request.opType = .read ∧ status 0 = .notStarted ∧ request.logicalAddress % 3 = disk then
    some (.read, status.set 0 .doRead)
  else if request.opType ≠ .write then none
  else
    match request.diskIndex disk with
    | none => none
    | some index =>
      if request.fullStripeWrite then
        if ¬ request.fullStripeWriteParity ∧ status index = .notStarted then
          -- the data block is written and the other entry is left out
          some (.write, (status.set index .doWrite).set (1 - index) .done)
        else if request.fullStripeWriteParity ∧ status index = .notStarted then
          some (.write, status.set index .doWrite)
        else none
      else subtractiveParity status index

/-- `DoRaid5Scheduling`. -/
def doRaid5Scheduling (request : Request) (status : Statuses) (disk : Disk) :
    Option (OpType × Statuses) :=
  if request.opType = .read ∧ status 0 = .notStarted ∧ request.physDiskList[0]? = some disk then
    some (.read, status.set 0 .doRead)
  else if request.opType ≠ .write then none
  else
    match request.diskIndex disk with
    | none => none
    | some index => subtractiveParity status index

/-- The scheduling method of each mapping. -/
def doScheduling (mapping : Mapping) (request : Request) (status : Statuses) (disk : Disk) :
    Option (OpType × Statuses) :=
  match mapping with
  | .striping => request.doStripeScheduling status disk
  | .mirroring => request.doMirrorScheduling status disk
  | .raid4 => request.doRaid4Scheduling status disk
  | .raid5 => request.doRaid5Scheduling status disk

end Request

/-! ## Placement -/

/-- The number of logical blocks. -/
def Mapping.blockCount : Mapping → ℕ
  | .striping => 80
  | .mirroring => 40
  | .raid4 => 60
  | .raid5 => 60

/-- Where `__init__` places the logical block of a RAID-5 request: its disk and its parity disk. -/
def raid5Disks (logical : ℕ) : List Disk :=
  let disk : Disk := Fin.ofNat 4 (logical % 3)
  match logical / 3 % 4 with
  | 0 => [disk, 3]
  | 1 => [if disk ≥ 2 then disk + 1 else disk, 2]
  | 2 => [if disk ≥ 1 then disk + 1 else disk, 1]
  | _ => [disk + 1, 0]

/-- The disk list of a logical block. -/
def Mapping.physDiskList (mapping : Mapping) (logical : ℕ) : List Disk :=
  match mapping with
  | .striping => [Fin.ofNat 4 (logical % 4)]
  | .mirroring => [Fin.ofNat 4 (2 * (logical % 2)), Fin.ofNat 4 (2 * (logical % 2) + 1)]
  | .raid4 => [Fin.ofNat 4 (logical % 3), 3]
  | .raid5 => raid5Disks logical

/-- The row of a logical block. -/
def Mapping.physOffset (mapping : Mapping) (logical : ℕ) : ℕ :=
  match mapping with
  | .striping => logical / 4
  | .mirroring => logical / 2
  | .raid4 => logical / 3
  | .raid5 => logical / 3

/-- A request for the logical block, with its physical address. -/
def Mapping.request (mapping : Mapping) (addr : ℕ × OpType) : Request where
  logicalAddress := addr.1
  opType := addr.2
  fullStripeWrite := false
  fullStripeWriteParity := false
  physDiskList := mapping.physDiskList addr.1
  physOffset := mapping.physOffset addr.1

/-- The full-stripe detection of RAID-4: every aligned triple of consecutive addresses is marked,
whatever its operations are. The second component is the number of triples found. -/
def markFullStripes : List Request → List Request × ℕ
  | a :: b :: c :: rest =>
    let marked := markFullStripes rest
    if b.logicalAddress = a.logicalAddress + 1 ∧ c.logicalAddress = a.logicalAddress + 2 then
      (a.markFullStripeWrite false :: b.markFullStripeWrite false :: c.markFullStripeWrite true
        :: marked.1, marked.2 + 1)
    else (a :: b :: c :: marked.1, marked.2)
  | rest => (rest, 0)

/-- The arguments of `Raid`, after parsing the request list. -/
structure Config where
  mapping : Mapping
  addr : List (ℕ × OpType)
  seekSpeed : ℤ
  window : ℤ
  addr_ne_nil : addr ≠ []
  addr_lt : ∀ a ∈ addr, a.1 < mapping.blockCount
  seekSpeed_pos : 0 < seekSpeed
  seekSpeed_dvd : seekSpeed ∣ 20
  window_valid : window = -1 ∨ 0 < window

namespace Config

/-- Arguments that can be checked. -/
def ofArgs (mapping : Mapping) (addr : List (ℕ × OpType)) (seekSpeed window : ℤ)
    (h : addr ≠ [] ∧ (∀ a ∈ addr, a.1 < mapping.blockCount) ∧ 0 < seekSpeed ∧ seekSpeed ∣ 20
      ∧ (window = -1 ∨ 0 < window)) : Config where
  mapping := mapping
  addr := addr
  seekSpeed := seekSpeed
  window := window
  addr_ne_nil := h.1
  addr_lt := h.2.1
  seekSpeed_pos := h.2.2.1
  seekSpeed_dvd := h.2.2.2.1
  window_valid := h.2.2.2.2

/-- The requests with their physical addresses, before full stripes are marked. -/
def placed (c : Config) : List Request := c.addr.map c.mapping.request

/-- `request_queue`. -/
def requestQueue (c : Config) : List Request :=
  match c.mapping with
  | .raid4 => (markFullStripes c.placed).1
  | _ => c.placed

/-- `request_count_needed`. -/
def requestCountNeeded (c : Config) : ℤ :=
  let writes : ℤ := c.placed.countP (fun request => request.opType = .write)
  match c.mapping with
  | .striping => c.placed.length
  | .mirroring => c.placed.length + writes
  | .raid4 => c.placed.length + 3 * writes - 8 * (markFullStripes c.placed).2
  | .raid5 => c.placed.length + 3 * writes

/-- The index of a request in the queue. -/
abbrev Index (c : Config) := Fin c.requestQueue.length

/-- The request at an index. -/
def request (c : Config) (i : c.Index) : Request := c.requestQueue[i]

end Config

end Cs537.Graphics
