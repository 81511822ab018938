import Mathlib.Algebra.Field.ZMod
import Mathlib.Tactic.Abel
import Cs537.Lib.ExceptFold
import Cs537.Lib.Store
import Cs537.Raid.PartialWrite

/-!
# Parity over whole runs of RAID 4 and RAID 5

The simulator counts accesses and stores no data. Here blocks get values in a type `V` whose addition
is XOR (`v + v = 0`, a module over `ZMod 2`), and a call of `doPartialWrite` is read as a controller
that keeps, for every row, the XOR of what the call has read and of what it has newly written in that
row, and stores this as the new parity of the row. It knows nothing else of the array.

`run_row_sum` shows that one such call leaves every row of the array with XOR zero, and
`parity_maintained` carries this over all requests of a run.
-/

namespace Cs537

variable {V : Type*}

/-- What is stored at each slot of the array. -/
abbrev Contents (V : Type*) := Slot → V

/-- The state of a controller during one call: the array, and the XOR of what the call has read and
newly written in each row so far. -/
structure Controller (V : Type*) where
  contents : Contents V
  acc : ℕ → V

namespace Controller

variable [AddCommGroup V]

/-- A call starts without any knowledge of the array. -/
def start (a : Contents V) : Controller V := ⟨a, fun _ => 0⟩

/-- Carry out one access, where `new b` is the value that the request writes to block `b`. -/
def step (new : ℕ → V) (st : Controller V) (io : Access) : Controller V :=
  match io.op, io.role with
  | .read, _ =>
    { st with acc := Function.update st.acc io.slot.2 (st.acc io.slot.2 + st.contents io.slot) }
  | .write, .data b =>
    { contents := Function.update st.contents io.slot (new b)
      acc := Function.update st.acc io.slot.2 (st.acc io.slot.2 + new b) }
  | .write, .parity =>
    { st with contents := Function.update st.contents io.slot (st.acc io.slot.2) }

/-- Carry out the accesses of a call in order. -/
def run (new : ℕ → V) (st : Controller V) (ios : List Access) : Controller V :=
  ios.foldl (step new) st

/-- Two sequences of accesses, one after the other. -/
theorem run_append (new : ℕ → V) (st : Controller V) (ios ios' : List Access) :
    run new st (ios ++ ios') = run new (run new st ios) ios' := List.foldl_append

/-- One value more in a sum. -/
private theorem update_add_apply (f : ℕ → V) (i o : ℕ) (x y : V) :
    Function.update f i (f i + x) o + y = f o + ((if i = o then x else 0) + y) := by
  by_cases h : i = o
  · subst h
    rw [Function.update_self, if_pos rfl, add_assoc]
  · rw [Function.update_of_ne (Ne.symm h), if_neg h, zero_add]

/-- Reads leave the array alone and collect the values read, row by row. -/
theorem run_reads (new : ℕ → V) {ios : List Access} (h : ∀ io ∈ ios, io.op = .read)
    (st : Controller V) :
    run new st ios = ⟨st.contents, fun o => st.acc o +
      (ios.map fun io => if io.slot.2 = o then st.contents io.slot else 0).sum⟩ := by
  induction ios generalizing st with
  | nil => simp [run]
  | cons io ios ih =>
    have hop : io.op = .read := h io List.mem_cons_self
    have hstep : step new st io = { st with
        acc := Function.update st.acc io.slot.2 (st.acc io.slot.2 + st.contents io.slot) } := by
      simp only [step, hop]
    rw [run, List.foldl_cons, hstep]
    refine (ih (fun io' hio' => h io' (List.mem_cons_of_mem _ hio')) _).trans ?_
    simp only [update_add_apply, List.map_cons, List.sum_cons]

/-- Data writes store the new values and collect them. -/
theorem run_data (new : ℕ → V) (slot : ℕ → Slot) (vs : List ℕ) (st : Controller V) :
    run new st (vs.map fun v => Access.data .write v (slot v))
      = ⟨Store.writeAll st.contents (vs.map fun v => (slot v, new v)), fun o => st.acc o +
          (vs.map fun v => if (slot v).2 = o then new v else 0).sum⟩ := by
  induction vs generalizing st with
  | nil => simp [run]
  | cons v vs ih =>
    rw [List.map_cons, run, List.foldl_cons]
    refine (ih _).trans ?_
    simp only [step, Access.data, update_add_apply, List.map_cons, List.sum_cons,
      Store.writeAll_cons]

/-- Parity writes store what has been collected. -/
theorem run_parity (new : ℕ → V) (p : ℕ) (rows : List ℕ) (st : Controller V) :
    run new st (rows.map (Access.parity .write p))
      = { st with contents := Store.writeAll st.contents (rows.map fun o => ((p, o), st.acc o)) } := by
  induction rows generalizing st with
  | nil => simp [run]
  | cons o rows ih =>
    rw [List.map_cons, run, List.foldl_cons]
    exact ih _

end Controller

/-! ## One call -/

section Call

open ParityAccess Controller

variable [AddCommGroup V] (L : ParityLayout) (new : ℕ → V) (a : Contents V)

/-- The values of the blocks `[b, e)` in row `o`, added up. -/
def rowValue (val : ℕ → V) (o b e : ℕ) : V :=
  ∑ v ∈ Finset.Ico b e, if L.row v = o then val v else 0

/-- The contents of a row: its parity block and the blocks of its stripe. -/
theorem sum_row_eq (o : ℕ) :
    ∑ d ∈ Finset.range L.disks, a (d, o) = a (L.paritySlot o)
      + rowValue L (fun v => a (L.slot v)) o (o / L.chunk * L.blocksInStripe)
          (o / L.chunk * L.blocksInStripe + L.blocksInStripe) :=
  L.sum_row_slots a o

/-- The value of a row in three parts: before the request, in it and behind it. -/
theorem rowValue_split (val : ℕ → V) (o : ℕ) {x b e y : ℕ} (h1 : x ≤ b) (h2 : b ≤ e) (h3 : e ≤ y) :
    rowValue L val o x y = rowValue L val o x b + rowValue L val o b e + rowValue L val o e y := by
  rw [rowValue, rowValue, rowValue, rowValue, Finset.sum_Ico_consecutive _ h1 h2,
    Finset.sum_Ico_consecutive _ (h1.trans h2) h3]

/-- The value of a row depends on its blocks. -/
theorem rowValue_congr {val val' : ℕ → V} {o b e : ℕ}
    (h : ∀ v, b ≤ v → v < e → L.row v = o → val v = val' v) :
    rowValue L val o b e = rowValue L val' o b e := by
  refine Finset.sum_congr rfl fun v hv => ?_
  obtain ⟨h1, h2⟩ := Finset.mem_Ico.mp hv
  split
  · exact h v h1 h2 ‹_›
  · rfl

/-- The parity that a call stores for row `o`: what it reads there and what it writes there. -/
def parityValue (s b e o : ℕ) : V :=
  ((readsOf L s b e).map fun io => if io.slot.2 = o then a io.slot else 0).sum + rowValue L new o b e

/-- The array after a call: the data writes, then the parity writes. -/
theorem run_call (s b e : ℕ) :
    (run new (start a) (readsOf L s b e ++ writesOf L s b e)).contents
      = Store.writeAll a
          (((List.range' b (e - b)).map fun v => (L.slot v, new v))
            ++ (rowsOf L b e).map fun o => ((L.parity s, o), parityValue L new a s b e o)) := by
  rw [run_append, run_reads new fun io => op_of_mem_readsOf L, writesOf, run_append, dataOf, run_data,
    parityOf, run_parity, Store.writeAll_append]
  simp only [start, zero_add]
  rfl

/-- What the data reads `[b, e)` collect for row `o`. -/
theorem sum_dataOf (b e o : ℕ) :
    ((dataOf L .read b e).map fun io => if io.slot.2 = o then a io.slot else 0).sum
      = rowValue L (fun v => a (L.slot v)) o b e := by
  rw [dataOf, List.map_map]
  rfl

/-- What the parity reads collect for a row of the piece: the old parity. -/
theorem sum_parityOf {s b e o : ℕ} (ho : o ∈ rowsOf L b e) :
    ((parityOf L .read s b e).map fun io => if io.slot.2 = o then a io.slot else 0).sum
      = a (L.parity s, o) := by
  have hcount : (rowsOf L b e).count o = 1 :=
    List.count_eq_one_of_mem (nodup_offListOf _) ho
  rw [parityOf, List.map_map]
  show ((rowsOf L b e).map fun x => if x = o then a (L.parity s, x) else 0).sum = _
  rw [List.sum_map_ite_eq, hcount]
  simp

variable {s b e : ℕ} (hb : s * L.blocksInStripe ≤ b) (he : e ≤ s * L.blocksInStripe + L.blocksInStripe)

include hb he

/-- The rows of a call are those of its stripe. -/
theorem div_of_mem_rowsOf {o : ℕ} (ho : o ∈ rowsOf L b e) : o / L.chunk = s := by
  obtain ⟨v, h1, h2, rfl⟩ := (mem_rowsOf L).mp ho
  rw [L.row_div, stripe_of_mem_piece L hb he h1 h2]

/-- After a call a block holds its new value if the call writes it, and its old one otherwise. -/
theorem run_call_slot (v : ℕ) :
    (run new (start a) (readsOf L s b e ++ writesOf L s b e)).contents (L.slot v)
      = if b ≤ v ∧ v < e then new v else a (L.slot v) := by
  have hparity : ∀ w ∈ (rowsOf L b e).map fun o => ((L.parity s, o), parityValue L new a s b e o),
      w.1 ≠ L.slot v := by
    intro w hw heq
    obtain ⟨o, ho, rfl⟩ := List.mem_map.mp hw
    refine L.slot_ne_paritySlot v o (heq.symm.trans ?_)
    rw [ParityLayout.paritySlot, div_of_mem_rowsOf L hb he ho]
  rw [run_call, Store.writeAll_append, Store.writeAll_of_notMem hparity]
  by_cases hv : b ≤ v ∧ v < e
  · rw [if_pos hv]
    refine Store.writeAll_of_forall_eq ?_ (Or.inr ⟨(L.slot v, new v), ?_, rfl⟩)
    · intro w hw heq
      obtain ⟨v', -, rfl⟩ := List.mem_map.mp hw
      rw [L.slot_injective heq]
    · exact List.mem_map.mpr ⟨v, List.mem_range'_1.mpr (by omega), rfl⟩
  · rw [if_neg hv]
    refine Store.writeAll_of_notMem ?_
    intro w hw heq
    obtain ⟨v', hv', rfl⟩ := List.mem_map.mp hw
    rw [List.mem_range'_1] at hv'
    have := L.slot_injective heq
    omega

/-- After a call the parity slot of a row of the piece holds the parity value, and the parity slot of
any other row is unchanged. -/
theorem run_call_paritySlot (o : ℕ) :
    (run new (start a) (readsOf L s b e ++ writesOf L s b e)).contents (L.paritySlot o)
      = if o ∈ rowsOf L b e then parityValue L new a s b e o else a (L.paritySlot o) := by
  have hdata : ∀ w ∈ (List.range' b (e - b)).map fun v => (L.slot v, new v),
      w.1 ≠ L.paritySlot o := by
    intro w hw heq
    obtain ⟨v, -, rfl⟩ := List.mem_map.mp hw
    exact L.slot_ne_paritySlot v o heq
  rw [run_call, Store.writeAll_append]
  by_cases ho : o ∈ rowsOf L b e
  · rw [if_pos ho]
    have hs := div_of_mem_rowsOf L hb he ho
    refine Store.writeAll_of_forall_eq ?_ (Or.inr ⟨_, List.mem_map.mpr ⟨o, ho, rfl⟩, ?_⟩)
    · intro w hw heq
      obtain ⟨o', -, rfl⟩ := List.mem_map.mp hw
      have hrow : o' = o := congrArg Prod.snd heq
      rw [hrow]
    · rw [ParityLayout.paritySlot, hs]
  · rw [if_neg ho, Store.writeAll_of_notMem, Store.writeAll_of_notMem hdata]
    intro w hw heq
    obtain ⟨o', ho', rfl⟩ := List.mem_map.mp hw
    have hrow : o' = o := congrArg Prod.snd heq
    exact ho (hrow ▸ ho')

/-- What a call knows about a row of its piece: in the subtractive case the old parity and the old
contents of the written blocks, in the additive case the contents of the other blocks. -/
theorem parityValue_eq {o : ℕ} (ho : o ∈ rowsOf L b e) :
    parityValue L new a s b e o =
      if (e - b) + 1 ≤ L.blocksInStripe - (e - b) then
        rowValue L (fun v => a (L.slot v)) o b e + a (L.paritySlot o) + rowValue L new o b e
      else
        rowValue L (fun v => a (L.slot v)) o (s * L.blocksInStripe) b
          + rowValue L (fun v => a (L.slot v)) o e (s * L.blocksInStripe + L.blocksInStripe)
          + rowValue L new o b e := by
  have hs := div_of_mem_rowsOf L hb he ho
  rw [parityValue, readsOf]
  split
  · rw [List.map_append, List.sum_append, sum_dataOf, sum_parityOf L a ho, ParityLayout.paritySlot, hs]
  · rw [List.map_append, List.sum_append, sum_dataOf, sum_dataOf]

/-- **A call keeps every row at XOR zero.** -/
theorem run_row_sum [Module (ZMod 2) V] (hbe : b ≤ e) {o : ℕ}
    (hzero : ∑ d ∈ Finset.range L.disks, a (d, o) = 0) :
    ∑ d ∈ Finset.range L.disks,
      (run new (start a) (readsOf L s b e ++ writesOf L s b e)).contents (d, o) = 0 := by
  set a' := (run new (start a) (readsOf L s b e ++ writesOf L s b e)).contents with ha'
  have hslot : ∀ v, a' (L.slot v) = if b ≤ v ∧ v < e then new v else a (L.slot v) :=
    run_call_slot L new a hb he
  by_cases ho : o ∈ rowsOf L b e
  · have hs := div_of_mem_rowsOf L hb he ho
    have hpar : a' (L.paritySlot o) = parityValue L new a s b e o := by
      rw [ha', run_call_paritySlot L new a hb he, if_pos ho]
    -- the three parts of the row: before the piece, the piece, after the piece
    have hbefore : rowValue L (fun v => a' (L.slot v)) o (s * L.blocksInStripe) b
        = rowValue L (fun v => a (L.slot v)) o (s * L.blocksInStripe) b :=
      rowValue_congr L fun v _ h2 _ => by rw [hslot, if_neg (by omega)]
    have hpiece : rowValue L (fun v => a' (L.slot v)) o b e = rowValue L new o b e :=
      rowValue_congr L fun v h1 h2 _ => by rw [hslot, if_pos ⟨h1, h2⟩]
    have hafter : rowValue L (fun v => a' (L.slot v)) o e (s * L.blocksInStripe + L.blocksInStripe)
        = rowValue L (fun v => a (L.slot v)) o e (s * L.blocksInStripe + L.blocksInStripe) :=
      rowValue_congr L fun v h1 _ _ => by rw [hslot, if_neg (by omega)]
    rw [sum_row_eq, hs, rowValue_split L _ o hb hbe he] at hzero
    rw [sum_row_eq, hs, rowValue_split L _ o hb hbe he, hpar, hbefore, hpiece, hafter,
      parityValue_eq L new a hb he ho]
    have hnew := ZModModule.add_self (rowValue L new o b e)
    split
    · calc _ = (a (L.paritySlot o) + (rowValue L (fun v => a (L.slot v)) o (s * L.blocksInStripe) b
            + rowValue L (fun v => a (L.slot v)) o b e
            + rowValue L (fun v => a (L.slot v)) o e (s * L.blocksInStripe + L.blocksInStripe)))
            + (rowValue L new o b e + rowValue L new o b e) := by abel
        _ = 0 := by rw [hzero, hnew, add_zero]
    · have hx := ZModModule.add_self (rowValue L (fun v => a (L.slot v)) o (s * L.blocksInStripe) b)
      have hy := ZModModule.add_self
        (rowValue L (fun v => a (L.slot v)) o e (s * L.blocksInStripe + L.blocksInStripe))
      calc _ = (rowValue L (fun v => a (L.slot v)) o (s * L.blocksInStripe) b
            + rowValue L (fun v => a (L.slot v)) o (s * L.blocksInStripe) b)
            + (rowValue L (fun v => a (L.slot v)) o e (s * L.blocksInStripe + L.blocksInStripe)
            + rowValue L (fun v => a (L.slot v)) o e (s * L.blocksInStripe + L.blocksInStripe))
            + (rowValue L new o b e + rowValue L new o b e) := by abel
        _ = 0 := by rw [hx, hy, hnew, add_zero, add_zero]
  · -- no block of the row is written, and its parity block neither
    have hrow : ∀ v, L.row v = o → ¬ (b ≤ v ∧ v < e) := fun v hv h =>
      ho ((mem_rowsOf L).mpr ⟨v, h.1, h.2, hv⟩)
    have hpar : a' (L.paritySlot o) = a (L.paritySlot o) := by
      rw [ha', run_call_paritySlot L new a hb he, if_neg ho]
    have hrest : rowValue L (fun v => a' (L.slot v)) o (o / L.chunk * L.blocksInStripe)
          (o / L.chunk * L.blocksInStripe + L.blocksInStripe)
        = rowValue L (fun v => a (L.slot v)) o (o / L.chunk * L.blocksInStripe)
          (o / L.chunk * L.blocksInStripe + L.blocksInStripe) :=
      rowValue_congr L fun v _ _ hv => by rw [hslot, if_neg (hrow v hv)]
    rw [sum_row_eq, hpar, hrest, ← sum_row_eq, hzero]

end Call

/-! ## What a call has to know -/

/-- The data writes among some accesses, with the values that the request writes. -/
def dataWrites (new : ℕ → V) (ios : List Access) : List (Slot × V) :=
  ios.filterMap fun io =>
    match io.op, io.role with
    | .write, .data b => some (io.slot, new b)
    | _, _ => none

/-- The parity that row `o` needs on disk `p` among `n` disks: the XOR of the other disks. -/
def neededParity [AddCommGroup V] (n p o : ℕ) (a : Contents V) : V :=
  ∑ d ∈ (Finset.range n).erase p, a (d, o)

section Knowledge

open ParityAccess Controller

variable [AddCommGroup V] (L : ParityLayout) (new : ℕ → V)

omit [AddCommGroup V] in
/-- What a call writes to the data disks. -/
theorem dataWrites_call (s b e : ℕ) :
    dataWrites new (readsOf L s b e ++ writesOf L s b e)
      = (List.range' b (e - b)).map fun v => (L.slot v, new v) := by
  have hreads : dataWrites new (readsOf L s b e) = [] := by
    refine List.filterMap_eq_nil_iff.mpr fun io hio => ?_
    simp only [op_of_mem_readsOf L hio]
  have hparity : dataWrites new (parityOf L .write s b e) = [] := by
    refine List.filterMap_eq_nil_iff.mpr fun io hio => ?_
    obtain ⟨v, -, -, rfl⟩ := (mem_parityOf L).mp hio
    rfl
  have hdata : dataWrites new (dataOf L .write b e)
      = (List.range' b (e - b)).map fun v => (L.slot v, new v) := by
    rw [dataWrites, dataOf, List.filterMap_map, ← List.filterMap_eq_map]
    rfl
  rw [dataWrites, List.filterMap_append, writesOf, List.filterMap_append]
  change dataWrites new _ ++ (dataWrites new _ ++ dataWrites new _) = _
  rw [hreads, hparity, hdata, List.nil_append, List.append_nil]

variable [Module (ZMod 2) V] {s b e : ℕ} (hb : s * L.blocksInStripe ≤ b)
  (he : e ≤ s * L.blocksInStripe + L.blocksInStripe)

include hb he

/-- The needed parity of a row of the piece is the parity value that the call computes. -/
theorem neededParity_eq (hbe : b ≤ e) {a : Contents V}
    {o : ℕ} (hzero : ∑ d ∈ Finset.range L.disks, a (d, o) = 0) (ho : o ∈ rowsOf L b e) :
    neededParity L.disks (L.parity s) o
        (Store.writeAll a (dataWrites new (readsOf L s b e ++ writesOf L s b e)))
      = parityValue L new a s b e o := by
  have hs := div_of_mem_rowsOf L hb he ho
  have hpar := run_call_paritySlot L new a hb he o
  rw [if_pos ho, ParityLayout.paritySlot, hs] at hpar
  have hsum := run_row_sum L new a hb he hbe hzero
  rw [← Finset.add_sum_erase _ _ (Finset.mem_range.mpr (L.parity_lt s)), hpar] at hsum
  -- off the parity disk the call leaves what its data writes leave
  have hoff : ∀ d ∈ (Finset.range L.disks).erase (L.parity s),
      (run new (start a) (readsOf L s b e ++ writesOf L s b e)).contents (d, o)
        = Store.writeAll a (dataWrites new (readsOf L s b e ++ writesOf L s b e)) (d, o) := by
    intro d hd
    rw [run_call, Store.writeAll_append, dataWrites_call, Store.writeAll_of_notMem]
    intro w hw heq
    obtain ⟨o', -, rfl⟩ := List.mem_map.mp hw
    exact (Finset.mem_erase.mp hd).1 (congrArg Prod.fst heq).symm
  rw [neededParity, ← Finset.sum_congr rfl hoff, eq_neg_of_add_eq_zero_right hsum,
    ZModModule.neg_eq_self]

/-- Two arrays in which the row XORs to zero and which agree on what the call reads need the same
parity after the call's data writes. -/
theorem neededParity_congr (hbe : b ≤ e) {a a' : Contents V} {o : ℕ}
    (hzero : ∑ d ∈ Finset.range L.disks, a (d, o) = 0)
    (hzero' : ∑ d ∈ Finset.range L.disks, a' (d, o) = 0)
    (hagree : ∀ io ∈ readsOf L s b e, a io.slot = a' io.slot) (ho : o ∈ rowsOf L b e) :
    neededParity L.disks (L.parity s) o
        (Store.writeAll a (dataWrites new (readsOf L s b e ++ writesOf L s b e)))
      = neededParity L.disks (L.parity s) o
        (Store.writeAll a' (dataWrites new (readsOf L s b e ++ writesOf L s b e))) := by
  rw [neededParity_eq L new hb he hbe hzero ho, neededParity_eq L new hb he hbe hzero' ho,
    parityValue, parityValue]
  congr 2
  refine List.map_congr_left fun io hio => ?_
  rw [hagree io hio]

end Knowledge

/-! ## Runs -/

/-- The disks and what is stored on them. -/
structure ArrayState (V : Type) where
  disks : List Disk
  contents : Contents V

namespace Raid

variable {V : Type} [AddCommGroup V] (r : Raid)

/-- One call of `doPartialWrite`: the disks are charged, and the controller updates the contents. -/
def runCall (new : ℕ → V) (st : ArrayState V) (piece : ℕ × ℕ × ℕ) :
    Except PyError (ArrayState V) := do
  let ios ← r.doPartialWrite piece.1 piece.2.1 piece.2.2
  let disks ← performAll st.disks ios
  return ⟨disks, (Controller.run new (Controller.start st.contents) ios).contents⟩

/-- One logical request, where a write stores `new b` in block `b`. -/
def runRequest (st : ArrayState V) (q : Request × (ℕ → V)) : Except PyError (ArrayState V) :=
  if q.1.isWrite then (r.pieces q.1.addr q.1.size).foldlM (r.runCall q.2) st
  else do
    let ios ← r.enqueue q.1
    let disks ← performAll st.disks ios
    return { st with disks := disks }

/-- A sequence of logical requests. -/
def runRequests (st : ArrayState V) (qs : List (Request × (ℕ → V))) :
    Except PyError (ArrayState V) :=
  qs.foldlM r.runRequest st

/-- All disks of row `o` XOR to zero. -/
def RowZero (a : Contents V) (o : ℕ) : Prop := ∑ d ∈ Finset.range r.numDisks, a (d, o) = 0

variable {r} (h : r.HasParity) [Module (ZMod 2) V]

include h

/-- **A call keeps the parity of a row.** -/
theorem rowZero_runCall {new : ℕ → V} {st st' : ArrayState V} {s b e o : ℕ}
    (hb : s * r.blocksInStripe ≤ b) (hbe : b ≤ e) (he : e ≤ s * r.blocksInStripe + r.blocksInStripe)
    (hrun : r.runCall new st (s, b, e) = .ok st') (hzero : r.RowZero st.contents o) :
    r.RowZero st'.contents o := by
  obtain ⟨ios, hios, hrest⟩ := Except.bind_eq_ok.mp hrun
  obtain ⟨disks, -, hst⟩ := Except.bind_eq_ok.mp hrest
  cases hst
  rw [doPartialWrite_eq h] at hios
  cases hios
  rw [← parityLayout_blocksInStripe h] at hb he
  rw [RowZero, ← parityLayout_disks h] at hzero ⊢
  exact run_row_sum _ new st.contents hb he hbe hzero

/-- A request keeps the parity of a row. -/
theorem rowZero_runRequest {st st' : ArrayState V} {q : Request × (ℕ → V)} {o : ℕ}
    (hsize : 1 ≤ q.1.size) (hrun : r.runRequest st q = .ok st') (hzero : r.RowZero st.contents o) :
    r.RowZero st'.contents o := by
  rw [runRequest] at hrun
  split at hrun
  · refine Except.foldlM_invariant (fun st => r.RowZero st.contents o) ?_ hrun hzero
    rintro ⟨s, b, e⟩ hp t t' hcall ht
    obtain ⟨h1, h2, h3, -, -⟩ := (covers_pieces h hsize).mem hp
    exact rowZero_runCall h h1 h2.le h3 hcall ht
  · obtain ⟨ios, -, hrest⟩ := Except.bind_eq_ok.mp hrun
    obtain ⟨disks, -, hst⟩ := Except.bind_eq_ok.mp hrest
    cases hst
    exact hzero

/-- All requests keep the parity of a row. -/
theorem rowZero_runRequests {st st' : ArrayState V} {qs : List (Request × (ℕ → V))} {o : ℕ}
    (hsize : ∀ q ∈ qs, 1 ≤ q.1.size) (hrun : r.runRequests st qs = .ok st')
    (hzero : r.RowZero st.contents o) : r.RowZero st'.contents o :=
  Except.foldlM_invariant (fun st => r.RowZero st.contents o)
    (fun q hq _ _ hstep ht => rowZero_runRequest h (hsize q hq) hstep ht) hrun hzero

/-- **Parity stays correct over whole runs.** Each call reads before it writes, and what it reads
determines the parity of every row that it rewrites: in the subtractive case it reads the old parity
and every block of the row that it writes, in the additive case every block of the row that it does not
write. Hence a row that XORs to zero does so after any sequence of requests. -/
theorem parity_maintained :
    (∀ q : Request, 1 ≤ q.size → ∀ s b e, (s, b, e) ∈ r.pieces q.addr q.size →
      ∃ reads writes, r.doPartialWrite s b e = .ok (reads ++ writes) ∧
        (∀ io ∈ reads, io.op = .read) ∧ (∀ io ∈ writes, io.op = .write) ∧
        ∀ p o, Access.parity .write p o ∈ writes →
          (r.Subtractive b e → Access.parity .read p o ∈ reads ∧
            ∀ v d, b ≤ v → v < e → r.bmap v = .ok (d, o) → Access.data .read v (d, o) ∈ reads) ∧
          (¬ r.Subtractive b e →
            ∀ v d, ¬ (b ≤ v ∧ v < e) → r.bmap v = .ok (d, o) → Access.data .read v (d, o) ∈ reads) ∧
          (∀ (new : ℕ → V) (a a' : Contents V), r.RowZero a o → r.RowZero a' o →
            (∀ io ∈ reads, a io.slot = a' io.slot) →
            neededParity r.numDisks p o (Store.writeAll a (dataWrites new (reads ++ writes)))
              = neededParity r.numDisks p o (Store.writeAll a' (dataWrites new (reads ++ writes))))) ∧
    (∀ (st st' : ArrayState V) (qs : List (Request × (ℕ → V))), (∀ q ∈ qs, 1 ≤ q.1.size) →
      r.runRequests st qs = .ok st' → ∀ o, r.RowZero st.contents o → r.RowZero st'.contents o) := by
  refine ⟨?_, fun st st' qs hsize hrun o hzero => rowZero_runRequests h hsize hrun hzero⟩
  intro q hsize s b e hp
  obtain ⟨hb, hbe, he, -, -⟩ := (covers_pieces h hsize).mem hp
  set L := r.parityLayout h with hL
  have hB : L.blocksInStripe = r.blocksInStripe := parityLayout_blocksInStripe h
  rw [← hB] at hb he
  refine ⟨ParityAccess.readsOf L s b e, ParityAccess.writesOf L s b e, doPartialWrite_eq h s b e,
    fun io => ParityAccess.op_of_mem_readsOf L, fun io => ParityAccess.op_of_mem_writesOf L, ?_⟩
  intro p o hwrite
  -- the parity writes of the call are those of the rows of its piece
  obtain ⟨rfl, hrow⟩ : p = L.parity s ∧ o ∈ ParityAccess.rowsOf L b e := by
    rcases List.mem_append.mp hwrite with hw | hw
    · obtain ⟨v, -, -, heq⟩ := (ParityAccess.mem_dataOf L).mp hw
      cases heq
    · obtain ⟨v, h1, h2, heq⟩ := (ParityAccess.mem_parityOf L).mp hw
      cases heq
      exact ⟨rfl, (ParityAccess.mem_rowsOf L).mpr ⟨v, h1, h2, rfl⟩⟩
  have hslot : ∀ v d, r.bmap v = .ok (d, o) → L.slot v = (d, o) := fun v d hv => by
    rw [bmap_eq_slot h] at hv
    cases hv
    rfl
  refine ⟨?_, ?_, ?_⟩
  · intro hsub
    rw [Subtractive, ← hB] at hsub
    rw [ParityAccess.readsOf, if_pos hsub]
    refine ⟨List.mem_append_right _ ?_, fun v d h1 h2 hv => List.mem_append_left _ ?_⟩
    · exact List.mem_map.mpr ⟨o, hrow, rfl⟩
    · exact (ParityAccess.mem_dataOf L).mpr ⟨v, h1, h2, by rw [hslot v d hv]⟩
  · intro hsub v d hv hbmap
    rw [Subtractive, ← hB] at hsub
    rw [ParityAccess.readsOf, if_neg hsub]
    -- the block lies in the stripe of the row
    have hstripe : L.stripe v = s := by
      rw [← div_of_mem_rowsOf L hb he hrow, ← L.row_div, ← L.slot_snd, hslot v d hbmap]
    obtain ⟨hlo, hhi⟩ := (L.stripe_eq_iff v s).mp hstripe
    rw [Nat.succ_mul] at hhi
    by_cases hvb : v < b
    · refine List.mem_append_left _ ((ParityAccess.mem_dataOf L).mpr ⟨v, hlo, hvb, ?_⟩)
      rw [hslot v d hbmap]
    · refine List.mem_append_right _ ((ParityAccess.mem_dataOf L).mpr ⟨v, by omega, hhi, ?_⟩)
      rw [hslot v d hbmap]
  · intro new a a' ha ha' hagree
    rw [RowZero, ← parityLayout_disks h] at ha ha'
    rw [← parityLayout_disks h]
    exact neededParity_congr L new hb he hbe.le ha ha' hagree hrow

omit h in
/-- A write over four stripes of the default RAID-5 array of zeros is accepted and keeps its rows. -/
theorem parity_maintained_defaults :
    ∃ st' : ArrayState (ZMod 2), (defaults .five).runRequests
        ⟨List.replicate 4 Disk.fresh, fun _ => 0⟩ [(⟨2, 8, true⟩, Nat.cast)] = .ok st' ∧
      ∀ o, (defaults .five).RowZero st'.contents o := by
  cases hrun : (defaults .five).runRequests (V := ZMod 2)
      ⟨List.replicate 4 Disk.fresh, fun _ => 0⟩ [(⟨2, 8, true⟩, Nat.cast)] with
  | error e =>
    have hok : ((defaults .five).runRequests (V := ZMod 2) ⟨List.replicate 4 Disk.fresh, fun _ => 0⟩
        [(⟨2, 8, true⟩, Nat.cast)]).isOk = true := by decide +kernel
    rw [hrun] at hok
    cases hok
  | ok st' =>
    refine ⟨st', rfl, fun o => ?_⟩
    exact (parity_maintained (r := defaults .five) (Or.inr rfl)).2 _ _ _ (by simp) hrun o
      (Finset.sum_const_zero)

end Raid

end Cs537
