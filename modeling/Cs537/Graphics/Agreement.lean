import Mathlib.Data.List.FinRange
import Mathlib.Tactic.IntervalCases
import Cs537.Lib.Count
import Cs537.Graphics.FullStripe
import Cs537.Raid.Throughput

/-!
# The two simulators agree

`raid-graphics.py` draws the arrays of `raid.py` with four disks and chunks of one block, and it serves requests of one
block. The I/Os that it has performed when it stops are those that `raid.py` issues for the same requests. It schedules
them in another order, and for a read of RAID-1 it takes the mirror that is free.
-/

namespace Cs537.Raid

variable {r : Raid} (h : r.HasParity) (b : ℕ)

include h

/-- A request of one block is one piece. -/
theorem pieces_oneBlock : r.pieces b 1 = [(b / r.blocksInStripe, b, b + 1)] := by
  have hpos := blocksInStripe_pos h
  have hmod := Nat.mod_lt b hpos
  have hdiv := Nat.div_add_mod' b r.blocksInStripe
  have hend : r.pieceEnd (b / r.blocksInStripe) 1 b = b + 1 := by
    rw [pieceEnd_eq r (Nat.div_mul_le_self _ _)]
    omega
  simp [pieces, stripeLoop, hend]

/-- Reading one block. -/
theorem accesses_readOne : r.accesses ⟨b, 1, false⟩ = [Access.data .read b ((r.parityLayout h).slot b)] := by
  refine accesses_of_ok ?_
  rw [enqueue_eq_enqueue45 h, enqueue45_read h _ rfl]
  simp [ParityAccess.dataOf]

/-- Writing one block of a stripe with at least three reads the old data and the old parity. -/
theorem accesses_writeOne (hB : 3 ≤ r.blocksInStripe) : let L := r.parityLayout h
    r.accesses ⟨b, 1, true⟩ = [Access.data .read b (L.slot b), Access.parity .read (L.parity (L.stripe b)) (L.row b),
      Access.data .write b (L.slot b), Access.parity .write (L.parity (L.stripe b)) (L.row b)] := by
  intro L
  have hstripe : b / r.blocksInStripe = L.stripe b := by
    rw [L.stripe_eq_div, ← parityLayout_blocksInStripe h]
  refine accesses_of_ok ?_
  have hreads : ParityAccess.readsOf L (L.stripe b) b (b + 1)
      = ParityAccess.dataOf L .read b (b + 1) ++ ParityAccess.parityOf L .read (L.stripe b) b (b + 1) := by
    refine if_pos ?_
    rw [parityLayout_blocksInStripe h]
    omega
  rw [enqueue_eq_enqueue45 h, enqueue45_write h _ rfl, pieces_oneBlock h b, hstripe, List.flatMap_singleton, hreads]
  simp [ParityAccess.writesOf, ParityAccess.dataOf, ParityAccess.parityOf, ParityAccess.rowsOf, offListOf, L]

end Cs537.Raid

namespace Cs537.Graphics

/-- The array of `raid.py` that a mapping draws. -/
def Mapping.raid (mapping : Mapping) : Raid where
  chunkSize := 1
  numDisks := 4
  raidLevel := match mapping with
    | .striping => .zero
    | .mirroring => .one
    | .raid4 => .four
    | .raid5 => .five
  raid5type := .LA
  chunkSize_pos := Nat.one_pos
  numDisks_pos := Nat.lt_add_left 3 Nat.one_pos
  even_of_mirrored _ := ⟨2, rfl⟩
  two_le _ := Nat.le_add_left 2 2

def OpType.ofOp : Op → OpType
  | .read => .read
  | .write => .write

/-- An I/O. Of a read of a mirrored block, only the pair of disks counts. -/
def Mapping.io (mapping : Mapping) (op : OpType) (disk offset : ℕ) : OpType × ℕ × ℕ :=
  match mapping, op with
  | .mirroring, .read => (.read, disk / 2 * 2, offset)
  | _, op => (op, disk, offset)

/-- The I/O of an access of `raid.py`. -/
def Mapping.ioOf (mapping : Mapping) (access : Access) : OpType × ℕ × ℕ :=
  mapping.io (.ofOp access.op) access.slot.1 access.slot.2

/-! ## The layouts -/

section

variable (b : ℕ)

/-- Where striping puts a block, with four disks and chunks of one block. -/
theorem bmap0_raid : Mapping.striping.raid.bmap0 b = (b % 4, b / 4) := by
  simp [Raid.bmap0, Mapping.raid, Nat.mod_one]

/-- Where mirroring puts a block. -/
theorem bmap1_raid : Mapping.mirroring.raid.bmap1 b = (2 * (b % 2), 2 * (b % 2) + 1, b / 2) := by
  simp [Raid.bmap1, Mapping.raid, Nat.mod_one]

theorem hasParity_raid4 : Mapping.raid4.raid.HasParity := .inl rfl

theorem hasParity_raid5 : Mapping.raid5.raid.HasParity := .inr rfl

/-- The layout of RAID-4. -/
theorem layout_raid4 : let L := Mapping.raid4.raid.parityLayout hasParity_raid4
    L.slot b = (b % 3, b / 3) ∧ L.parity (L.stripe b) = 3 := by
  intro L
  have hL : L = Mapping.raid4.raid.layout4 (by decide) := if_pos rfl
  rw [hL]
  simp [Raid.layout4, Layout.slot, Layout.col, Layout.row, Layout.stripe, Mapping.raid, Raid.pdisk, Nat.mod_one]

theorem layout_raid5 : let L := Mapping.raid5.raid.parityLayout hasParity_raid5
    L.row b = b / 3 ∧ (raid5Disks b).map Fin.val = [(L.slot b).1, L.parity (L.stripe b)] := by
  intro L
  have hL : L = Mapping.raid5.raid.layout5 (by decide) := if_neg (by decide)
  rw [hL]
  refine ⟨by simp [Raid.layout5, Layout.row, Layout.stripe, Mapping.raid, Nat.mod_one], ?_⟩
  simp only [Raid.layout5, Layout.slot, Layout.col, Layout.stripe, Mapping.raid, Raid.place5, Raid.parity5, Nat.div_one,
    raid5Disks]
  have hdisk : b % 3 < 3 := Nat.mod_lt _ (by decide)
  have hcol : b / 3 % 4 < 4 := Nat.mod_lt _ (by decide)
  generalize b % 3 = k at hdisk ⊢
  generalize b / 3 % 4 = t at hcol ⊢
  interval_cases t <;> interval_cases k <;> rfl

end

/-! ## One request -/

section

variable {α : Type*} {request : Request} {d e : Disk} (ops : Fin 2 → List OpType) (f : Disk → OpType → α)

/-- What is done on the only disk of a request. -/
theorem perm_oneDisk (hlist : request.physDiskList = [d]) :
    ((List.finRange 4).flatMap fun x => ((request.diskIndex x).elim [] ops).map (f x)).Perm ((ops 0).map (f d)) := by
  refine ((List.perm_cons_erase (List.mem_finRange d)).flatMap_right _).trans ?_
  have hrest : (((List.finRange 4).erase d).flatMap fun x => ((request.diskIndex x).elim [] ops).map (f x)) = [] := by
    rw [List.flatMap_eq_nil_iff]
    intro x hx
    have hne : d ≠ x := fun h => ((List.nodup_finRange 4).mem_erase_iff.mp hx).1 h.symm
    simp [Request.diskIndex, hlist, hne]
  rw [List.flatMap_cons, hrest]
  simp [Request.diskIndex, hlist]

/-- What is done on the two disks of a request. -/
theorem perm_twoDisks (hlist : request.physDiskList = [d, e]) (hne : d ≠ e) :
    ((List.finRange 4).flatMap fun x => ((request.diskIndex x).elim [] ops).map (f x)).Perm
      ((ops 0).map (f d) ++ (ops 1).map (f e)) := by
  have he : e ∈ (List.finRange 4).erase d :=
    (List.mem_erase_of_ne hne.symm).mpr (List.mem_finRange e)
  refine ((List.perm_cons_erase (List.mem_finRange d)).flatMap_right _).trans ?_
  refine ((List.Perm.cons d (List.perm_cons_erase he)).flatMap_right _).trans ?_
  have hrest : ((((List.finRange 4).erase d).erase e).flatMap fun x =>
      ((request.diskIndex x).elim [] ops).map (f x)) = [] := by
    rw [List.flatMap_eq_nil_iff]
    intro x hx
    obtain ⟨hx, hx'⟩ := ((List.nodup_finRange 4).erase d).mem_erase_iff.mp hx
    have hd : d ≠ x := fun h => ((List.nodup_finRange 4).mem_erase_iff.mp hx').1 h.symm
    simp [Request.diskIndex, hlist, hd, Ne.symm hx]
  rw [List.flatMap_cons, List.flatMap_cons, hrest]
  simp [Request.diskIndex, hlist, hne]

end

/-- The I/Os of a request of one block, in `raid.py`. -/
def Mapping.ios (mapping : Mapping) (a : ℕ × OpType) : List (OpType × ℕ × ℕ) :=
  (mapping.raid.accesses ⟨a.1, 1, a.2 = .write⟩).map mapping.ioOf

section

variable (b : ℕ) {op : OpType}

/-- The I/O of a striped request. -/
theorem ios_striping : Mapping.striping.ios (b, op) = [(op, b % 4, b / 4)] := by
  rw [Mapping.ios, Raid.accesses_zero rfl]
  cases op <;> simp [Raid.enqueue0, Request.blocks, bmap0_raid, Mapping.ioOf, Mapping.io, Access.data, Request.op,
    OpType.ofOp]

theorem ios_mirroring_read : Mapping.mirroring.ios (b, .read) = [(.read, 2 * (b % 2), b / 2)] := by
  rw [Mapping.ios, Raid.accesses_one rfl]
  have hpair : (2 * (b % 2) + 1) / 2 = b % 2 := by omega
  simp only [Raid.enqueue1, Request.blocks, bmap1_raid]
  rcases Nat.mod_two_eq_zero_or_one (b / 2) with hmod | hmod <;>
    simp [hmod, hpair, Mapping.ioOf, Mapping.io, Access.data, OpType.ofOp, Nat.mul_comm]

/-- The I/Os of a mirrored write. -/
theorem ios_mirroring_write : Mapping.mirroring.ios (b, .write)
    = [(.write, 2 * (b % 2), b / 2), (.write, 2 * (b % 2) + 1, b / 2)] := by
  rw [Mapping.ios, Raid.accesses_one rfl]
  simp [Raid.enqueue1, Request.blocks, bmap1_raid, Mapping.ioOf, Mapping.io, Access.data, OpType.ofOp]

variable {mapping : Mapping} (h : mapping.raid.HasParity)

include h

theorem io_of_hasParity (disk offset : ℕ) : mapping.io op disk offset = (op, disk, offset) := by
  cases mapping with
  | mirroring => simp [Raid.HasParity, Mapping.raid] at h
  | striping | raid4 | raid5 => rfl

/-- The I/O of a read with parity. -/
theorem ios_parity_read : mapping.ios (b, .read)
    = [(.read, ((mapping.raid.parityLayout h).slot b).1, (mapping.raid.parityLayout h).row b)] := by
  have hios := Raid.accesses_readOne h b
  simp [Mapping.ios, hios, Mapping.ioOf, io_of_hasParity h, Access.data, OpType.ofOp]

/-- The I/Os of a small write: the block and its parity are read and then written. -/
theorem ios_parity_write : let L := mapping.raid.parityLayout h
    mapping.ios (b, .write) = [(.read, (L.slot b).1, L.row b), (.read, L.parity (L.stripe b), L.row b),
      (.write, (L.slot b).1, L.row b), (.write, L.parity (L.stripe b), L.row b)] := by
  intro L
  have hios := Raid.accesses_writeOne h b le_rfl
  simp [Mapping.ios, hios, Mapping.ioOf, io_of_hasParity h, Access.data, Access.parity, OpType.ofOp, L]

/-- The disks of a request of RAID-4 and RAID-5 are those of its block and its parity. -/
theorem disks_of_hasParity : let L := mapping.raid.parityLayout h
    mapping.physOffset b = L.row b ∧ ∃ d e : Disk, mapping.physDiskList b = [d, e] ∧ d ≠ e
      ∧ (d : ℕ) = (L.slot b).1 ∧ (e : ℕ) = L.parity (L.stripe b) := by
  intro L
  have hne : (L.slot b).1 ≠ L.parity (L.stripe b) := L.place_ne_parity _ _ (L.col_lt b)
  suffices hdisks : mapping.physOffset b = L.row b ∧ ∃ d e : Disk, mapping.physDiskList b = [d, e]
      ∧ (d : ℕ) = (L.slot b).1 ∧ (e : ℕ) = L.parity (L.stripe b) by
    obtain ⟨hoffset, d, e, hlist, hd, he⟩ := hdisks
    exact ⟨hoffset, d, e, hlist, fun heq => hne (by rw [← hd, ← he, heq]), hd, he⟩
  cases mapping with
  | striping | mirroring => simp [Raid.HasParity, Mapping.raid] at h
  | raid4 =>
    obtain ⟨hslot, hparity⟩ := layout_raid4 b
    refine ⟨congrArg Prod.snd hslot.symm, Fin.ofNat 4 (b % 3), 3, rfl, ?_, hparity.symm⟩
    rw [hslot, Fin.val_ofNat]
    omega
  | raid5 =>
    obtain ⟨hrow, hlist⟩ := layout_raid5 b
    obtain ⟨d, _, heq, hd, htail⟩ := List.map_eq_cons_iff.mp hlist
    obtain ⟨e, _, rfl, he, hnil⟩ := List.map_eq_cons_iff.mp htail
    rw [List.map_eq_nil_iff.mp hnil] at heq
    exact ⟨hrow.symm, d, e, heq, hd, he⟩

end

/-! ## What the disks do for a request -/

/-- The I/Os of a request whose disks perform `ops`, disk by disk. -/
def Mapping.performed (mapping : Mapping) (a : ℕ × OpType) (ops : Fin 2 → List OpType) : List (OpType × ℕ × ℕ) :=
  (List.finRange 4).flatMap fun d => (((mapping.request a).diskIndex d).elim [] ops).map fun op =>
    mapping.io op d (mapping.request a).physOffset

section

variable (b : ℕ) {op : OpType} {ops : Fin 2 → List OpType}

/-- A served striped request has performed the I/O of `raid.py`. -/
theorem perm_striping (hops : ops ∈ (Kind.stripe op).outcomes) :
    (Mapping.striping.performed (b, op) ops).Perm (Mapping.striping.ios (b, op)) := by
  refine (perm_oneDisk ops (fun d op => Mapping.striping.io op d (b / 4)) rfl).trans ?_
  rw [ios_striping, List.mem_singleton.mp hops]
  simp [Mapping.io]

/-- A served mirrored request has performed the I/Os of `raid.py`. -/
theorem perm_mirroring (hops : ops ∈ ((Mapping.mirroring.request (b, op)).kind .mirroring).outcomes) :
    (Mapping.mirroring.performed (b, op) ops).Perm (Mapping.mirroring.ios (b, op)) := by
  have hfirst : (Fin.ofNat 4 (2 * (b % 2))).val = 2 * (b % 2) := by
    simp only [Fin.val_ofNat]
    omega
  have hsecond : (Fin.ofNat 4 (2 * (b % 2) + 1)).val = 2 * (b % 2) + 1 := by
    simp only [Fin.val_ofNat]
    omega
  have hne : Fin.ofNat 4 (2 * (b % 2)) ≠ Fin.ofNat 4 (2 * (b % 2) + 1) := fun h => by
    have hval := congrArg Fin.val h
    omega
  refine (perm_twoDisks ops (fun d op => Mapping.mirroring.io op d (b / 2)) rfl hne).trans ?_
  cases op with
  | read =>
    rw [ios_mirroring_read]
    -- either mirror may have served the read
    rcases List.mem_pair.mp hops with rfl | rfl
    · simp only [Mapping.io, hfirst, hsecond, Matrix.cons_val_zero, Matrix.cons_val_one, List.map_cons, List.map_nil,
        List.append_nil]
      rw [Nat.mul_div_cancel_left _ (by decide), Nat.mul_comm]
    · simp only [Mapping.io, hfirst, hsecond, Matrix.cons_val_zero, Matrix.cons_val_one, List.map_cons, List.map_nil,
        List.nil_append]
      rw [show (2 * (b % 2) + 1) / 2 * 2 = 2 * (b % 2) by omega]
  | write =>
    rw [ios_mirroring_write, List.mem_singleton.mp hops]
    simp only [Mapping.io, hfirst, hsecond, Matrix.cons_val_zero, Matrix.cons_val_one, List.map_cons, List.map_nil,
      List.singleton_append]
    exact List.Perm.refl _

/-- A served request with parity has performed the I/Os of `raid.py`. -/
theorem perm_hasParity {mapping : Mapping} (h : mapping.raid.HasParity)
    (hops : ops ∈ ((mapping.request (b, op)).kind mapping).outcomes) :
    (mapping.performed (b, op) ops).Perm (mapping.ios (b, op)) := by
  obtain ⟨hoffset, d, e, hlist, hne, hd, he⟩ := disks_of_hasParity b h
  refine (perm_twoDisks ops (fun d op => mapping.io op d (mapping.physOffset b)) hlist hne).trans ?_
  simp only [io_of_hasParity h, hoffset, hd, he]
  cases op with
  | read =>
    have hkind : (mapping.request (b, .read)).kind mapping = .parityRead := by
      cases mapping <;> first | rfl | simp [Raid.HasParity, Mapping.raid] at h
    rw [hkind] at hops
    rw [ios_parity_read b h, List.mem_singleton.mp hops]
    exact List.Perm.refl _
  | write =>
    have hkind : (mapping.request (b, .write)).kind mapping = .smallWrite := by
      cases mapping <;> first | rfl | simp [Raid.HasParity, Mapping.raid] at h
    rw [hkind] at hops
    rw [ios_parity_write b h, List.mem_singleton.mp hops]
    exact (List.Perm.swap _ _ _).cons _

/-- Whatever the disks do for a request, it is what `raid.py` does for it. -/
theorem performed_perm {mapping : Mapping} (hops : ops ∈ ((mapping.request (b, op)).kind mapping).outcomes) :
    (mapping.performed (b, op) ops).Perm (mapping.ios (b, op)) := by
  cases mapping with
  | striping => exact perm_striping b hops
  | mirroring => exact perm_mirroring b hops
  | raid4 => exact perm_hasParity b hasParity_raid4 hops
  | raid5 => exact perm_hasParity b hasParity_raid5 hops

end

/-! ## The run -/

/-- No three writes of RAID-4 are taken for a full stripe. -/
def Config.Plain (c : Config) : Prop := c.mapping = .raid4 → (markFullStripes c.placed).2 = 0

/-- Where no triple is found, nothing is marked. -/
theorem markFullStripes_eq_self : ∀ {l : List Request}, (markFullStripes l).2 = 0 → (markFullStripes l).1 = l
  | [], _ | [_], _ | [_, _], _ => rfl
  | a :: b :: c :: rest, h => by
    rw [markFullStripes] at h ⊢
    split at h
    next => exact absurd h (Nat.succ_ne_zero _)
    next hnot => rw [if_neg hnot, markFullStripes_eq_self h]

/-- Without a marked triple, there is none to be written. -/
theorem triplesWritten_of_plain : ∀ {l : List (ℕ × OpType)},
    (markFullStripes (l.map Mapping.raid4.request)).2 = 0 → TriplesWritten l
  | [], _ | [_], _ | [_, _], _ => trivial
  | a :: b :: c :: rest, h => by
    simp only [List.map_cons, markFullStripes] at h
    split at h
    next => exact absurd h (Nat.succ_ne_zero _)
    next hnot => exact ⟨fun htriple => absurd htriple hnot, triplesWritten_of_plain h⟩

namespace Config.Plain

variable {c : Config} (h : c.Plain)

include h

/-- The queue is as it was placed. -/
theorem requestQueue_eq : c.requestQueue = c.placed := by
  unfold requestQueue
  split
  next hmapping => exact markFullStripes_eq_self (h hmapping)
  next => rfl

/-- The count is exact. -/
theorem exact : c.Exact := by
  by_cases hmapping : c.mapping = .raid4
  · refine (exact_iff_triplesWritten hmapping).mpr (triplesWritten_of_plain ?_)
    rw [← h hmapping, placed, hmapping]
  · exact exact_of_ne_raid4 hmapping

theorem exists_request (i : c.Index) : ∃ a : ℕ × OpType, c.request i = c.mapping.request a := by
  have hmem : c.request i ∈ c.placed := by
    rw [← h.requestQueue_eq]
    exact List.getElem_mem i.isLt
  obtain ⟨a, -, heq⟩ := List.mem_map.mp hmem
  exact ⟨a, heq.symm⟩

end Config.Plain

/-- The I/O that a served request ends. -/
def Config.io (c : Config) (ev : Event c) : OpType × ℕ × ℕ :=
  c.mapping.io ev.op ev.disk (c.request ev.index).physOffset

/-- The I/Os of a run, request by request and disk by disk. -/
theorem perm_performedOn {c : Config} (s : Core c) :
    ((s.log.filter fun ev => ev.kind = .finish).map c.io).Perm
      ((List.finRange c.requestQueue.length).flatMap fun i => (List.finRange 4).flatMap fun d =>
        (s.performedOn i d).map fun op => c.mapping.io op d (c.request i).physOffset) := by
  have hsplit : (s.log.filter fun ev => ev.kind = .finish).Perm
      ((List.finRange c.requestQueue.length).flatMap fun i => (List.finRange 4).flatMap fun d =>
        ((s.log.filter fun ev => ev.kind = .finish).filter fun ev => ev.index = i).filter fun ev => ev.disk = d) := by
    refine (List.perm_flatMap_filter (List.nodup_finRange _) Event.index fun ev _ => List.mem_finRange _).trans ?_
    exact List.Perm.flatMap_left _ fun i _ =>
      List.perm_flatMap_filter (List.nodup_finRange _) Event.disk fun ev _ => List.mem_finRange _
  refine (hsplit.map c.io).trans (List.Perm.of_eq ?_)
  rw [List.map_flatMap]
  refine List.flatMap_congr fun i _ => ?_
  rw [List.map_flatMap]
  refine List.flatMap_congr fun d _ => ?_
  rw [Core.performedOn, List.map_map, List.filter_filter, List.filter_filter]
  have hfilter : (s.log.filter fun ev => (decide (ev.disk = d) && decide (ev.index = i)) && decide (ev.kind = .finish))
      = s.log.filter fun ev => ev.kind = .finish ∧ ev.disk = d ∧ ev.index = i :=
    List.filter_congr fun ev _ => by rw [Bool.and_comm]; simp
  rw [hfilter]
  refine List.map_congr_left fun ev hev => ?_
  obtain ⟨-, rfl, rfl⟩ := of_decide_eq_true (List.mem_filter.mp hev).2
  rfl

/-- **The two simulators agree.** The animation ends, and then the I/Os that its disks have performed are those that
`raid.py` issues for the same requests, for every queue, window and seek speed. -/
theorem simulation_agrees {c : Config} (h : c.Plain) :
    (∃ n s, run c n = some s ∧ s.isDone = true)
      ∧ ∀ n s, run c n = some s → s.isDone = true →
        ∃ calls, (c.addr.mapM fun a => c.mapping.raid.enqueue ⟨a.1, 1, a.2 = .write⟩) = .ok calls
          ∧ ((s.log.filter fun ev => ev.kind = .finish).map c.io).Perm (calls.flatten.map c.mapping.ioOf) := by
  refine ⟨exists_isDone h.exact, fun n s hrun hdone =>
    ⟨c.addr.map fun a => c.mapping.raid.accesses ⟨a.1, 1, a.2 = .write⟩, ?_, ?_⟩⟩
  · simp only [Raid.enqueue_eq_accesses]
    exact List.mapM_pure
  have hreached := reached_of_run hrun
  have hserved := (hreached.finished ((hreached.isDone_iff h.exact).mp hdone)).served
  have hqueue : c.requestQueue.flatMap (fun r => c.mapping.ios (r.logicalAddress, r.opType))
      = (c.addr.map fun a => c.mapping.raid.accesses ⟨a.1, 1, a.2 = .write⟩).flatten.map c.mapping.ioOf := by
    rw [h.requestQueue_eq, Config.placed, List.flatMap_map, ← List.flatMap_def, List.map_flatMap]
    rfl
  have hindex : c.requestQueue.flatMap (fun r => c.mapping.ios (r.logicalAddress, r.opType))
      = (List.finRange c.requestQueue.length).flatMap fun i =>
        c.mapping.ios ((c.request i).logicalAddress, (c.request i).opType) := by
    have hofFn : (List.finRange c.requestQueue.length).map c.request = c.requestQueue := by
      rw [← List.ofFn_eq_map]
      exact List.ofFn_getElem
    conv_lhs => rw [← hofFn, List.flatMap_map]
  rw [← hqueue, hindex]
  refine (perm_performedOn s.core).trans (List.Perm.flatMap_left _ fun i _ => ?_)
  obtain ⟨ops, hops, hperformed⟩ := hserved i
  obtain ⟨⟨b, op⟩, hrequest⟩ := h.exists_request i
  simp only [hperformed]
  rw [Config.kind, hrequest] at hops
  rw [hrequest]
  exact performed_perm b hops

/-- Two small writes of RAID-4 and a read between them, none of them marked. -/
def smallWrites : Config :=
  .ofArgs .raid4 [(0, .write), (2, .read), (4, .write)] 4 (-1) (by decide)

/-- Their animation agrees with `raid.py`. -/
theorem simulation_agrees_smallWrites :
    (∃ n s, run smallWrites n = some s ∧ s.isDone = true)
      ∧ ∀ n s, run smallWrites n = some s → s.isDone = true →
        ∃ calls, (smallWrites.addr.mapM fun a => smallWrites.mapping.raid.enqueue ⟨a.1, 1, a.2 = .write⟩) = .ok calls
          ∧ ((s.log.filter fun ev => ev.kind = .finish).map smallWrites.io).Perm
            (calls.flatten.map smallWrites.mapping.ioOf) :=
  simulation_agrees (c := smallWrites) (fun _ => by decide)

end Cs537.Graphics
