import Cs537.Lib.ExceptFold
import Cs537.MapReduce.CString

/-!
# The sequential MapReduce

`MR_Run` calls the map function on every input, sorts the list of emitted pairs, and calls the reduce
function at the current position of the list until the list is used up. The getter that the reduce function
receives advances that position. Allocations succeed; every index into the array of pairs is checked
against its allocated size.
-/

namespace Cs537.MapReduce

/-- What a run can fail with: an access outside the allocated array or to a slot that was never
written, or too little fuel for its loops. -/
inductive Fault
  | outOfBounds
  | uninitialised
  | outOfFuel
  deriving DecidableEq, Repr

/-- `struct kv`. -/
structure Kv where
  key : CString
  value : CString
  deriving DecidableEq

/-- `struct kv_list`: the allocated slots, the number of elements and the allocated size. -/
structure KvList where
  elements : List (Option Kv)
  numElements : ℕ
  size : ℕ

/-- `kvl.elements[i]`. -/
def KvList.get (kvl : KvList) (i : ℕ) : Except Fault Kv :=
  match kvl.elements[i]? with
  | none => .error .outOfBounds
  | some none => .error .uninitialised
  | some (some elt) => .ok elt

/-! ## The list of pairs -/

/-- `init_kv_list`. -/
def initKvList (size : ℕ) : KvList where
  elements := List.replicate size none
  numElements := 0
  size := size

/-- `realloc` to `size` slots keeps the slots that fit. -/
def realloc (elements : List (Option Kv)) (size : ℕ) : List (Option Kv) :=
  elements.take size ++ List.replicate (size - elements.length) none

/-- `add_to_list`. -/
def addToList (elt : Kv) (kvl : KvList) : Except Fault KvList :=
  let kvl := if kvl.numElements = kvl.size then
      { kvl with size := kvl.size * 2, elements := realloc kvl.elements (kvl.size * 2) }
    else kvl
  if kvl.numElements < kvl.elements.length then
    .ok { kvl with
      elements := kvl.elements.set kvl.numElements (some elt)
      numElements := kvl.numElements + 1 }
  else .error .outOfBounds

/-- `MR_Emit`. -/
def mrEmit (kvl : KvList) (kv : CString × CString) : Except Fault KvList :=
  addToList ⟨kv.1, kv.2⟩ kvl

/-- `cmp`. -/
def cmp (a b : Kv) : ℤ := strcmp a.key b.key

/-- `qsort` with `cmp`: a permutation of the array, ordered by `cmp`. -/
structure Qsort where
  sort : List Kv → List Kv
  perm : ∀ kvs, (sort kvs).Perm kvs
  ordered : ∀ kvs, (sort kvs).Pairwise fun a b => cmp a b ≤ 0

/-- `qsort(kvl.elements, kvl.num_elements, …)`. -/
def KvList.qsort (kvl : KvList) (Q : Qsort) : Except Fault KvList := do
  let kvs ← (List.range kvl.numElements).mapM kvl.get
  return { kvl with
    elements := (Q.sort kvs).map some ++ kvl.elements.drop kvl.numElements }

/-! ## Map -/

/-- The map function: the pairs that it emits for an input. It may keep a state of its own between the
calls. -/
def Mapper (E : Type) := CString → E → List (CString × CString) × E

/-- The pairs emitted over all inputs, in order. -/
def emitted {E : Type} (map : Mapper E) : List CString → E → List (CString × CString)
  | [], _ => []
  | arg :: args, env => (map arg env).1 ++ emitted map args (map arg env).2

/-- The map stage: `map(argv[i])` for each input. -/
def mapStage {E : Type} (map : Mapper E) : List CString → E → KvList → Except Fault KvList
  | [], _, kvl => .ok kvl
  | arg :: args, env, kvl => do
    let kvl ← (map arg env).1.foldlM mrEmit kvl
    mapStage map args (map arg env).2 kvl

/-! ## Reduce -/

/-- The reduce function: on a key it starts, receives the results of its calls of `get_next` on that key,
and decides after each whether to call again. Its state lives on between invocations. -/
structure Reducer (L : Type) where
  start : CString → L → L
  receive : L → Option CString → L
  more : L → Bool

/-- A reduce function that calls `get_next` until it returns `NULL`. -/
def Reducer.Drains {L : Type} (R : Reducer L) : Prop :=
  ∀ l, (∀ v, R.more (R.receive l (some v)) = true) ∧ R.more (R.receive l none) = false

/-- `get_func` on the list at the position `kvl_counter`: the result and the new position. -/
def getFunc (kvl : KvList) (key : CString) (kvlCounter : ℕ) : Except Fault (Option CString × ℕ) :=
  if kvlCounter = kvl.numElements then .ok (none, kvlCounter)
  else do
    let currElt ← kvl.get kvlCounter
    if strcmp currElt.key key = 0 then
      return (some currElt.value, kvlCounter + 1)
    else return (none, kvlCounter)

/-- What one invocation of the reduce function leaves: the position, its state, and the values that
`get_next` returned. -/
structure Outcome (L : Type) where
  kvlCounter : ℕ
  state : L
  values : List CString

/-- The calls of `get_next` in one invocation. -/
def callReduce {L : Type} (R : Reducer L) (kvl : KvList) (key : CString) :
    ℕ → ℕ → L → Except Fault (Outcome L)
  | 0, _, _ => .error .outOfFuel
  | fuel + 1, kvlCounter, l => do
    let (result, kvlCounter) ← getFunc kvl key kvlCounter
    let l := R.receive l result
    if R.more l then
      let rest ← callReduce R kvl key fuel kvlCounter l
      return { rest with values := result.toList ++ rest.values }
    else return { kvlCounter := kvlCounter, state := l, values := result.toList }

/-- The reduce stage: the invocations of the reduce function, each with its key and its values. One
invocation may call `get_next` at most `calls` times. -/
def reduceStage {L : Type} (R : Reducer L) (kvl : KvList) (calls : ℕ) :
    ℕ → ℕ → L → Except Fault (List (CString × List CString))
  | 0, _, _ => .error .outOfFuel
  | fuel + 1, kvlCounter, l =>
    if kvlCounter < kvl.numElements then do
      let elt ← kvl.get kvlCounter
      let out ← callReduce R kvl elt.key calls kvlCounter (R.start elt.key l)
      let rest ← reduceStage R kvl calls fuel out.kvlCounter out.state
      return (elt.key, out.values) :: rest
    else return []

/-- `MR_Run`: the invocations of the reduce function, in order. -/
def mrRun {E L : Type} (Q : Qsort) (map : Mapper E) (R : Reducer L) (calls fuel : ℕ)
    (argv : List CString) (env : E) (l : L) : Except Fault (List (CString × List CString)) := do
  let kvl ← mapStage map (argv.drop 1) env (initKvList 10)
  let kvl ← kvl.qsort Q
  reduceStage R kvl calls fuel 0 l

end Cs537.MapReduce
