import Cs537.Raid.PartialWrite

/-!
# Where the accesses of a request go

`slotsOf b` lists the slots that hold copies of block `b`: one slot, or one on each mirror for RAID 1.
`placed_enqueue` collects what the accesses of any request satisfy at any level: data accesses go to
the slots of their block, parity accesses to none of any block, and a write stores every copy of every
block of the request.
-/

namespace Cs537.Raid

variable (r : Raid)

/-- The layout of the mirror pairs of RAID 1. -/
def layout1 (h : 0 < r.numDisks / 2) : Layout where
  width := r.numDisks / 2
  chunk := r.chunkSize
  disks := r.numDisks / 2
  place _ k := k
  width_pos := h
  chunk_pos := r.chunkSize_pos
  place_lt _ _ h := h
  place_inj _ _ _ _ _ h := h

/-- A mirrored configuration has at least one pair. -/
theorem pairs_pos (h : r.raidLevel = .one) : 0 < r.numDisks / 2 := by
  have htwo := r.two_le (by simp [h])
  omega

/-- Mirroring stripes over the pairs. -/
theorem bmap1_eq_slot (h : 0 < r.numDisks / 2) (b : ℕ) :
    r.bmap1 b = (2 * ((r.layout1 h).slot b).1, 2 * ((r.layout1 h).slot b).1 + 1,
      ((r.layout1 h).slot b).2) := rfl

/-- The slots that hold copies of block `b`. -/
def slotsOf (b : ℕ) : List Slot :=
  match r.raidLevel with
  | .zero => [r.bmap0 b]
  | .one => [((r.bmap1 b).1, (r.bmap1 b).2.2), ((r.bmap1 b).2.1, (r.bmap1 b).2.2)]
  | .four => [r.bmap4 b]
  | .five => (r.bmap5 b).toOption.toList

variable {r}

/-- Striping keeps one copy. -/
theorem slotsOf_zero (h : r.raidLevel = .zero) (b : ℕ) : r.slotsOf b = [r.bmap0 b] := by
  simp only [slotsOf, h]

/-- Mirroring keeps two. -/
theorem slotsOf_one (h : r.raidLevel = .one) (b : ℕ) :
    r.slotsOf b = [((r.bmap1 b).1, (r.bmap1 b).2.2), ((r.bmap1 b).2.1, (r.bmap1 b).2.2)] := by
  simp only [slotsOf, h]

/-- With parity, there is one copy of the data. -/
theorem slotsOf_parity (h : r.HasParity) (b : ℕ) : r.slotsOf b = [(r.parityLayout h).slot b] := by
  have hslot := bmap_eq_slot h b
  rcases id h with h4 | h5
  · simp only [bmap, h4, Except.ok.injEq] at hslot
    simp only [slotsOf, h4, hslot]
  · simp only [bmap, h5] at hslot
    simp only [slotsOf, h5, hslot]
    rfl

/-- The copies of a mirrored block are the slots of its pair at its offset. -/
theorem mem_slotsOf_one (h : r.raidLevel = .one) {b : ℕ} {x : Slot} :
    x ∈ r.slotsOf b ↔ (r.layout1 (r.pairs_pos h)).slot b = (x.1 / 2, x.2) := by
  obtain ⟨d, o⟩ := x
  rw [slotsOf_one h, r.bmap1_eq_slot (r.pairs_pos h), List.mem_pair, Prod.mk.injEq, Prod.mk.injEq,
    Prod.ext_iff]
  dsimp only
  omega

/-- No slot holds copies of two blocks. -/
theorem eq_of_mem_slotsOf {b b' : ℕ} {x : Slot} (hx : x ∈ r.slotsOf b) (hx' : x ∈ r.slotsOf b') :
    b = b' := by
  by_cases hp : r.HasParity
  · rw [slotsOf_parity hp, List.mem_singleton] at hx hx'
    exact (r.parityLayout hp).slot_injective (hx.symm.trans hx')
  · cases hlevel : r.raidLevel with
    | zero =>
      rw [slotsOf_zero hlevel, List.mem_singleton] at hx hx'
      exact r.layout0.slot_injective (hx.symm.trans hx')
    | one =>
      rw [mem_slotsOf_one hlevel] at hx hx'
      exact (r.layout1 _).slot_injective (hx.trans hx'.symm)
    | four => exact absurd (Or.inl hlevel) hp
    | five => exact absurd (Or.inr hlevel) hp

/-- What the accesses of a request satisfy. -/
structure Placed (r : Raid) (q : Request) (ios : List Access) : Prop where
  /-- Data accesses go to the slots of their block. -/
  data_slot : ∀ io ∈ ios, ∀ b, io.role = .data b → io.slot ∈ r.slotsOf b
  /-- Parity accesses go to no slot of any block. -/
  parity_slot : ∀ io ∈ ios, io.role = .parity → ∀ b, io.slot ∉ r.slotsOf b
  /-- Only write requests write, and they write data of their own blocks only. -/
  write_block : ∀ io ∈ ios, io.op = .write →
    q.isWrite = true ∧ ∀ b, io.role = .data b → b ∈ q.blocks
  /-- A write request writes every copy of its blocks. -/
  write_all : q.isWrite = true → ∀ b ∈ q.blocks, ∀ x ∈ r.slotsOf b, Access.data .write b x ∈ ios
  /-- A read request only reads, and only its own blocks. -/
  read_block : q.isWrite = false → ∀ io ∈ ios, io.op = .read ∧ ∃ b ∈ q.blocks, io.role = .data b
  /-- A read request reads every one of its blocks. -/
  read_all : q.isWrite = false → ∀ b ∈ q.blocks, ∃ io ∈ ios, io.role = .data b

/-- Striping accesses what is placed. -/
theorem placed_enqueue0 (h : r.raidLevel = .zero) (q : Request) : Placed r q (r.enqueue0 q) := by
  -- all accesses are to data
  have hmem : ∀ io ∈ r.enqueue0 q, ∃ b ∈ q.blocks, io = Access.data q.op b (r.bmap0 b) := by
    intro io hio
    obtain ⟨b, hb, rfl⟩ := List.mem_map.mp hio
    exact ⟨b, hb, rfl⟩
  refine ⟨?_, ?_, ?_, ?_, ?_, ?_⟩
  · intro io hio b hb
    obtain ⟨b', -, rfl⟩ := hmem io hio
    cases hb
    rw [slotsOf_zero h]
    exact List.mem_singleton_self _
  · intro io hio hrole
    obtain ⟨b', -, rfl⟩ := hmem io hio
    cases hrole
  · intro io hio hop
    obtain ⟨b', hb', rfl⟩ := hmem io hio
    refine ⟨?_, fun b hb => ?_⟩
    · cases hw : q.isWrite with
      | true => rfl
      | false => simp [Access.data, Request.op, hw] at hop
    · cases hb
      exact hb'
  · intro hw b hb x hx
    rw [slotsOf_zero h, List.mem_singleton] at hx
    refine List.mem_map.mpr ⟨b, hb, ?_⟩
    rw [hx, Request.op, if_pos hw]
  · intro hw io hio
    obtain ⟨b, hb, rfl⟩ := hmem io hio
    exact ⟨by simp [Access.data, Request.op, hw], b, hb, rfl⟩
  · intro _ b hb
    exact ⟨_, List.mem_map.mpr ⟨b, hb, rfl⟩, rfl⟩

/-- Mirroring accesses what is placed: all copies in a write, one in a read. -/
theorem placed_enqueue1 (h : r.raidLevel = .one) (q : Request) : Placed r q (r.enqueue1 q) := by
  have hmem : ∀ io ∈ r.enqueue1 q, ∃ b ∈ q.blocks, io.role = .data b ∧ io.slot ∈ r.slotsOf b ∧
      io.op = q.op := by
    intro io hio
    obtain ⟨b, hb, hio⟩ := List.mem_flatMap.mp hio
    refine ⟨b, hb, ?_⟩
    rw [slotsOf_one h]
    cases hw : q.isWrite with
    | true =>
      simp only [hw, if_true] at hio
      rcases List.mem_pair.mp hio with rfl | rfl <;> simp [Access.data, Request.op, hw]
    | false =>
      simp only [hw, Bool.false_eq_true, if_false] at hio
      -- the offset selects the mirror that is read
      split at hio <;> rw [List.mem_singleton] at hio <;> subst hio <;>
        simp [Access.data, Request.op, hw]
  refine ⟨?_, ?_, ?_, ?_, ?_, ?_⟩
  · intro io hio b hb
    obtain ⟨b', -, hrole, hslot, -⟩ := hmem io hio
    rw [hrole] at hb
    cases hb
    exact hslot
  · intro io hio hrole
    obtain ⟨b', -, hrole', -, -⟩ := hmem io hio
    rw [hrole'] at hrole
    cases hrole
  · intro io hio hop
    obtain ⟨b', hb', hrole, -, hop'⟩ := hmem io hio
    refine ⟨?_, fun b hb => ?_⟩
    · cases hw : q.isWrite with
      | true => rfl
      | false => simp [hop', Request.op, hw] at hop
    · rw [hrole] at hb
      cases hb
      exact hb'
  · intro hw b hb x hx
    refine List.mem_flatMap.mpr ⟨b, hb, ?_⟩
    rw [slotsOf_one h] at hx
    simp only [hw, if_true]
    rcases List.mem_pair.mp hx with rfl | rfl
    · exact List.mem_cons_self
    · exact List.mem_cons_of_mem _ (List.mem_singleton_self _)
  · intro hw io hio
    obtain ⟨b, hb, hrole, -, hop⟩ := hmem io hio
    exact ⟨by simp [hop, Request.op, hw], b, hb, hrole⟩
  · intro hw b hb
    by_cases hoff : (r.bmap1 b).2.2 % 2 = 0
    · refine ⟨Access.data .read b ((r.bmap1 b).1, (r.bmap1 b).2.2), ?_, rfl⟩
      exact List.mem_flatMap.mpr ⟨b, hb, by simp [hw, hoff]⟩
    · refine ⟨Access.data .read b ((r.bmap1 b).2.1, (r.bmap1 b).2.2), ?_, rfl⟩
      exact List.mem_flatMap.mpr ⟨b, hb, by simp [hw, hoff]⟩

/-- Data accesses over a parity layout go to the slot of their block. -/
theorem mem_slotsOf_of_mem_dataOf (h : r.HasParity) {op : Op} {x y b : ℕ} {io : Access}
    (hio : io ∈ ParityAccess.dataOf (r.parityLayout h) op x y) (hb : io.role = .data b) :
    x ≤ b ∧ b < y ∧ io.slot ∈ r.slotsOf b := by
  obtain ⟨v, h1, h2, rfl⟩ := (ParityAccess.mem_dataOf _).mp hio
  cases hb
  refine ⟨h1, h2, ?_⟩
  rw [slotsOf_parity h]
  exact List.mem_singleton_self _

/-- Parity accesses over a parity layout stay off every block. -/
theorem notMem_slotsOf_of_mem_parityOf (h : r.HasParity) {op : Op} {s b e : ℕ} {io : Access}
    (hb : s * r.blocksInStripe ≤ b) (he : e ≤ s * r.blocksInStripe + r.blocksInStripe)
    (hio : io ∈ ParityAccess.parityOf (r.parityLayout h) op s b e) :
    io.role = .parity ∧ ∀ v, io.slot ∉ r.slotsOf v := by
  obtain ⟨w, h1, h2, rfl⟩ := (ParityAccess.mem_parityOf _).mp hio
  refine ⟨rfl, fun v hv => ?_⟩
  rw [slotsOf_parity h, List.mem_singleton] at hv
  -- the row of the piece belongs to its stripe, so the access is to the row's parity slot
  rw [← parityLayout_blocksInStripe h] at hb he
  have hstripe := ParityAccess.stripe_of_mem_piece _ hb he h1 h2
  refine (r.parityLayout h).slot_ne_paritySlot v ((r.parityLayout h).row w) ?_
  rw [ParityLayout.paritySlot, Layout.row_div, hstripe]
  exact hv.symm

/-- A read with parity accesses what is placed. -/
theorem placed_read45 (h : r.HasParity) {q : Request} (hw : q.isWrite = false) :
    Placed r q (ParityAccess.dataOf (r.parityLayout h) .read q.addr (q.addr + q.size)) := by
  refine ⟨?_, ?_, ?_, ?_, ?_, ?_⟩
  · exact fun io hio b hb => (mem_slotsOf_of_mem_dataOf h hio hb).2.2
  · intro io hio hrole
    obtain ⟨v, -, -, rfl⟩ := (ParityAccess.mem_dataOf _).mp hio
    cases hrole
  · intro io hio hop
    rw [ParityAccess.op_of_mem_dataOf _ hio] at hop
    cases hop
  · intro hw'
    rw [hw] at hw'
    cases hw'
  · intro _ io hio
    obtain ⟨v, h1, h2, rfl⟩ := (ParityAccess.mem_dataOf _).mp hio
    exact ⟨rfl, v, Request.mem_blocks.mpr ⟨h1, h2⟩, rfl⟩
  · intro _ b hb
    obtain ⟨h1, h2⟩ := Request.mem_blocks.mp hb
    exact ⟨_, (ParityAccess.mem_dataOf _).mpr ⟨b, h1, h2, rfl⟩, rfl⟩

/-- A write with parity accesses what is placed, piece by piece. -/
theorem placed_write45 (h : r.HasParity) {q : Request} (hsize : 1 ≤ q.size) (hw : q.isWrite = true) :
    Placed r q ((r.pieces q.addr q.size).flatMap fun p =>
      ParityAccess.readsOf (r.parityLayout h) p.1 p.2.1 p.2.2
        ++ ParityAccess.writesOf (r.parityLayout h) p.1 p.2.1 p.2.2) := by
  have hcov : Covers r.blocksInStripe (r.pieces q.addr q.size) q.addr (q.addr + q.size) :=
    covers_pieces h hsize
  -- an access of the request belongs to one of its pieces
  have hpiece : ∀ io ∈ (r.pieces q.addr q.size).flatMap fun p =>
      ParityAccess.readsOf (r.parityLayout h) p.1 p.2.1 p.2.2
        ++ ParityAccess.writesOf (r.parityLayout h) p.1 p.2.1 p.2.2,
      ∃ s b e, (s, b, e) ∈ r.pieces q.addr q.size ∧
        (io ∈ ParityAccess.readsOf (r.parityLayout h) s b e ∨
          io ∈ ParityAccess.writesOf (r.parityLayout h) s b e) := by
    intro io hio
    obtain ⟨⟨s, b, e⟩, hp, hio⟩ := List.mem_flatMap.mp hio
    exact ⟨s, b, e, hp, List.mem_append.mp hio⟩
  refine ⟨?_, ?_, ?_, ?_, ?_, ?_⟩
  · -- data: the copy of its block
    intro io hio v hv
    obtain ⟨s, b, e, hp, hio⟩ := hpiece io hio
    rcases ParityAccess.mem_call _ hio with ⟨op, x, y, hio⟩ | ⟨op, hio⟩
    · exact (mem_slotsOf_of_mem_dataOf h hio hv).2.2
    · obtain ⟨h1, -, h3, -, -⟩ := hcov.mem hp
      rw [(notMem_slotsOf_of_mem_parityOf h h1 h3 hio).1] at hv
      cases hv
  · -- parity: not on a slot with data
    intro io hio hrole
    obtain ⟨s, b, e, hp, hio⟩ := hpiece io hio
    rcases ParityAccess.mem_call _ hio with ⟨op, x, y, hio⟩ | ⟨op, hio⟩
    · obtain ⟨v, -, -, rfl⟩ := (ParityAccess.mem_dataOf _).mp hio
      cases hrole
    · obtain ⟨h1, -, h3, -, -⟩ := hcov.mem hp
      exact (notMem_slotsOf_of_mem_parityOf h h1 h3 hio).2
  · -- what is written is a block of the request: the reads of a piece do not write
    intro io hio hop
    refine ⟨hw, fun v hv => ?_⟩
    obtain ⟨s, b, e, hp, hio⟩ := hpiece io hio
    obtain ⟨h1, -, h3, h4, h5⟩ := hcov.mem hp
    rcases hio with hio | hio
    · rw [ParityAccess.op_of_mem_readsOf _ hio] at hop
      cases hop
    · rcases List.mem_append.mp hio with hio | hio
      · obtain ⟨h6, h7, -⟩ := mem_slotsOf_of_mem_dataOf h hio hv
        exact Request.mem_blocks.mpr ⟨h4.trans h6, lt_of_lt_of_le h7 h5⟩
      · rw [(notMem_slotsOf_of_mem_parityOf h h1 h3 hio).1] at hv
        cases hv
  · -- every block of the request is in a piece, which writes it
    intro _ v hv x hx
    obtain ⟨h1, h2⟩ := Request.mem_blocks.mp hv
    obtain ⟨s, b, e, hp, h3, h4⟩ := hcov.exists_mem h1 h2
    refine List.mem_flatMap.mpr ⟨(s, b, e), hp, List.mem_append_right _ (List.mem_append_left _ ?_)⟩
    rw [slotsOf_parity h, List.mem_singleton] at hx
    exact (ParityAccess.mem_dataOf _).mpr ⟨v, h3, h4, by rw [hx]⟩
  · -- the last two parts are about reads
    intro hw'
    rw [hw] at hw'
    cases hw'
  · intro hw'
    rw [hw] at hw'
    cases hw'

/-- RAID-4 and RAID-5 access what is placed. -/
theorem placed_enqueue45 (h : r.HasParity) {q : Request} (hsize : 1 ≤ q.size) {ios : List Access}
    (hios : r.enqueue45 q = .ok ios) : Placed r q ios := by
  cases hw : q.isWrite with
  | false =>
    rw [enqueue45_read h q hw] at hios
    cases hios
    exact placed_read45 h hw
  | true =>
    rw [enqueue45_write h q hw] at hios
    cases hios
    exact placed_write45 h hsize hw

/-- **The accesses of a request at any level.** -/
theorem placed_enqueue {q : Request} (hsize : 1 ≤ q.size) {ios : List Access}
    (hios : r.enqueue q = .ok ios) : Placed r q ios := by
  cases h : r.raidLevel with
  | zero =>
    simp only [enqueue, h, Except.ok.injEq] at hios
    exact hios ▸ placed_enqueue0 h q
  | one =>
    simp only [enqueue, h, Except.ok.injEq] at hios
    exact hios ▸ placed_enqueue1 h q
  | four =>
    rw [enqueue_eq_enqueue45 (Or.inl h)] at hios
    exact placed_enqueue45 (Or.inl h) hsize hios
  | five =>
    rw [enqueue_eq_enqueue45 (Or.inr h)] at hios
    exact placed_enqueue45 (Or.inr h) hsize hios

end Cs537.Raid
