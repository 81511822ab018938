import Cs537.Raid.PartialWrite
import Cs537.Raid.Service

/-!
# The pieces of a write and the slots it writes

`pieces_eq` is the closed form of the write loop of `enqueue45`: the piece of stripe `s` is what the request and
the stripe have in common. A piece writes the slots of its blocks and the parity slots of their rows, each once,
and pieces of different stripes write different slots.
-/

namespace Cs537

/-! ## The closed form of the write loop -/

namespace Raid

variable {r : Raid} {addr size : ℕ}

/-- The stripes `initStripe` to `finalStripe` of a request. -/
def stripes (r : Raid) (addr size : ℕ) : List ℕ :=
  List.range' (addr / r.blocksInStripe)
    ((addr + size - 1) / r.blocksInStripe + 1 - addr / r.blocksInStripe)

/-- What the request and stripe `s` have in common. -/
def piece (r : Raid) (addr size s : ℕ) : ℕ × ℕ × ℕ :=
  (s, max addr (s * r.blocksInStripe), min (addr + size) (s * r.blocksInStripe + r.blocksInStripe))

/-- The value of `left` behind the loop: every piece takes its length off. -/
def leftAfter (size : ℕ) (ps : List (ℕ × ℕ × ℕ)) : ℤ :=
  ps.foldl (fun left p => left - ((p.2.2 : ℤ) - p.2.1)) size

/-- There is one piece for every stripe of the loop. -/
theorem map_fst_stripeLoop (r : Raid) (ss : List ℕ) (left b : ℕ) :
    (r.stripeLoop ss left b).map Prod.fst = ss := by
  induction ss generalizing left b with
  | nil => rfl
  | cons s ss ih =>
    rw [stripeLoop, List.map_cons, ih]

/-- The first of several pieces of consecutive stripes ends with its stripe, and a single one with the interval. -/
theorem Covers.head_end {B n s b e a z : ℕ} {ps : List (ℕ × ℕ × ℕ)} (hc : Covers B ((s, b, e) :: ps) a z)
    (hrest : ps.map Prod.fst = List.range' (s + 1) n) : e = if n = 0 then z else s * B + B := by
  obtain ⟨-, -, -, hhi, hc⟩ := hc
  cases n with
  | zero =>
    obtain rfl : ps = [] := List.map_eq_nil_iff.mp hrest
    exact hc
  | succ n =>
    cases ps with
    | nil => cases hrest
    | cons p ps =>
      rw [List.range'_succ, List.map_cons, List.cons.injEq] at hrest
      obtain ⟨rfl, -, hnext, -, -⟩ := hc
      rw [hrest.1, Nat.succ_mul] at hnext
      exact hhi.antisymm hnext

/-- Pieces of consecutive stripes fill every stripe but the first and the last. -/
theorem Covers.eq_map {B n s a z : ℕ} {ps : List (ℕ × ℕ × ℕ)} (hc : Covers B ps a z)
    (hfst : ps.map Prod.fst = List.range' s n) :
    ps = (List.range' s n).map fun t => (t, max a (t * B), min z (t * B + B)) := by
  induction n generalizing s a ps with
  | zero => exact List.map_eq_nil_iff.mp hfst
  | succ n ih =>
    obtain ⟨⟨s', b, e⟩, ps, rfl⟩ : ∃ p ps', ps = p :: ps' := by
      cases ps with
      | nil => cases hfst
      | cons p ps => exact ⟨p, ps, rfl⟩
    rw [List.range'_succ, List.map_cons, List.cons.injEq] at hfst
    obtain ⟨hs, hrest⟩ := hfst
    change s' = s at hs
    subst hs
    have hend := hc.head_end hrest
    obtain ⟨rfl, hlt, hlo, hhi, hc⟩ := hc
    have hez := hc.le
    rw [ih hc hrest, List.range'_succ, List.map_cons]
    refine congrArg₂ List.cons ?_ (List.map_congr_left fun t ht => ?_)
    · rw [Prod.mk.injEq, Prod.mk.injEq]
      split at hend <;> omega
    · have ht := List.mem_range'_1.mp ht
      -- a later stripe begins behind the first piece, so its own start is the maximum
      have hnext : (s' + 1) * B ≤ t * B := Nat.mul_le_mul_right B ht.1
      rw [Nat.succ_mul] at hnext
      rw [if_neg (by omega)] at hend
      rw [Prod.mk.injEq, Prod.mk.injEq]
      omega

/-- **The closed form of the pieces.** -/
theorem pieces_eq (hr : r.HasParity) (hsize : 1 ≤ size) :
    r.pieces addr size = (r.stripes addr size).map (r.piece addr size) :=
  (covers_pieces hr hsize).eq_map (map_fst_stripeLoop r _ _ _)

/-- What is left behind the pieces. -/
theorem Covers.foldl_left {B a z : ℕ} {ps : List (ℕ × ℕ × ℕ)} (hc : Covers B ps a z) (left : ℤ) :
    ps.foldl (fun left p => left - ((p.2.2 : ℤ) - p.2.1)) left = left - ((z : ℤ) - a) := by
  induction ps generalizing a left with
  | nil =>
    obtain rfl : a = z := hc
    simp
  | cons p ps ih =>
    obtain ⟨s, b, e⟩ := p
    obtain ⟨rfl, -, -, -, hrest⟩ := hc
    rw [List.foldl_cons, ih hrest]
    dsimp only
    omega

/-- The pieces use up the request. -/
theorem leftAfter_pieces (hr : r.HasParity) (hsize : 1 ≤ size) :
    leftAfter size (r.pieces addr size) = 0 := by
  rw [leftAfter, (covers_pieces hr hsize).foldl_left]
  omega

end Raid

/-! ## The slots of one piece -/

namespace ParityAccess

variable (L : ParityLayout) {s b e : ℕ}

/-- Data is on a disk of the array. -/
theorem disk_lt_of_mem_dataOf {op : Op} {io : Access} (h : io ∈ dataOf L op b e) :
    io.slot.1 < L.disks := by
  obtain ⟨v, -, -, rfl⟩ := (mem_dataOf L).mp h
  exact L.slot_disk_lt v

theorem disk_lt_of_mem_parityOf {op : Op} {io : Access} (h : io ∈ parityOf L op s b e) :
    io.slot.1 < L.disks := by
  obtain ⟨v, -, -, rfl⟩ := (mem_parityOf L).mp h
  exact L.parity_lt s

/-- A call stays on the array. -/
theorem disk_lt_of_mem_call {io : Access} (h : io ∈ readsOf L s b e ++ writesOf L s b e) :
    io.slot.1 < L.disks := by
  rcases mem_call L (List.mem_append.mp h) with ⟨op, x, y, hio⟩ | ⟨op, hio⟩
  · exact disk_lt_of_mem_dataOf L hio
  · exact disk_lt_of_mem_parityOf L hio

/-- The slots that a piece writes. -/
def writeSlots (s b e : ℕ) : List Slot := (writesOf L s b e).map Access.slot

/-- The slots that a call writes. -/
theorem mem_writeSlots {x : Slot} :
    x ∈ writeSlots L s b e
      ↔ ∃ v, b ≤ v ∧ v < e ∧ (x = L.slot v ∨ x = (L.parity s, L.row v)) := by
  rw [writeSlots, writesOf, List.map_append, List.mem_append, List.mem_map, List.mem_map]
  constructor
  · rintro (⟨io, hio, rfl⟩ | ⟨io, hio, rfl⟩)
    · obtain ⟨v, hb, he, rfl⟩ := (mem_dataOf L).mp hio
      exact ⟨v, hb, he, Or.inl rfl⟩
    · obtain ⟨v, hb, he, rfl⟩ := (mem_parityOf L).mp hio
      exact ⟨v, hb, he, Or.inr rfl⟩
  · rintro ⟨v, hb, he, rfl | rfl⟩
    · exact Or.inl ⟨_, (mem_dataOf L).mpr ⟨v, hb, he, rfl⟩, rfl⟩
    · exact Or.inr ⟨_, (mem_parityOf L).mpr ⟨v, hb, he, rfl⟩, rfl⟩

variable (hb : s * L.blocksInStripe ≤ b) (he : e ≤ s * L.blocksInStripe + L.blocksInStripe)
include hb he

/-- A piece writes in the rows of its stripe. -/
theorem row_div_of_mem_writeSlots {x : Slot} (hx : x ∈ writeSlots L s b e) : x.2 / L.chunk = s := by
  obtain ⟨v, h1, h2, rfl | rfl⟩ := (mem_writeSlots L).mp hx
  · rw [L.slot_snd, L.row_div, stripe_of_mem_piece L hb he h1 h2]
  · rw [L.row_div, stripe_of_mem_piece L hb he h1 h2]

/-- A piece writes no slot twice. -/
theorem nodup_writeSlots : (writeSlots L s b e).Nodup := by
  rw [writeSlots, writesOf, List.map_append]
  refine List.Nodup.append ?_ ?_ ?_
  · rw [dataOf, List.map_map]
    exact (List.nodup_range' 1).map L.slot_injective
  · rw [parityOf, List.map_map]
    exact (nodup_offListOf _).map fun o o' h => congrArg Prod.snd h
  · intro x hdata hparity
    obtain ⟨io, hio, rfl⟩ := List.mem_map.mp hdata
    obtain ⟨io', hio', heq⟩ := List.mem_map.mp hparity
    obtain ⟨v, -, -, rfl⟩ := (mem_dataOf L).mp hio
    obtain ⟨w, h1, h2, rfl⟩ := (mem_parityOf L).mp hio'
    refine L.slot_ne_paritySlot v (L.row w) ?_
    rw [ParityLayout.paritySlot, L.row_div, stripe_of_mem_piece L hb he h1 h2]
    exact heq.symm

end ParityAccess

/-! ## The slots of a request -/

/-- The slots of the writes among the accesses, in order. -/
def writtenSlots (ios : List Access) : List Slot := (ios.filter fun io => io.op = .write).map Access.slot

/-- A call writes these slots and no others. -/
theorem writtenSlots_call (L : ParityLayout) (s b e : ℕ) :
    writtenSlots (ParityAccess.readsOf L s b e ++ ParityAccess.writesOf L s b e)
      = ParityAccess.writeSlots L s b e := by
  have hreads : (ParityAccess.readsOf L s b e).filter (fun io => io.op = .write) = [] := by
    rw [List.filter_eq_nil_iff]
    intro io hio
    simp [ParityAccess.op_of_mem_readsOf L hio]
  have hwrites : (ParityAccess.writesOf L s b e).filter (fun io => io.op = .write)
      = ParityAccess.writesOf L s b e := by
    rw [List.filter_eq_self]
    intro io hio
    simp [ParityAccess.op_of_mem_writesOf L hio]
  rw [writtenSlots, List.filter_append, hreads, hwrites, List.nil_append, ParityAccess.writeSlots]

namespace Raid

variable {r : Raid} {addr size : ℕ} {ios : List Access}

/-- The accesses of a parity level stay on the array. -/
theorem disk_lt_of_mem_enqueue45 (hr : r.HasParity) {q : Request} (hios : r.enqueue45 q = .ok ios) :
    ∀ io ∈ ios, io.slot.1 < r.numDisks := by
  intro io hio
  rw [← parityLayout_disks hr]
  cases hw : q.isWrite with
  | false =>
    rw [enqueue45_read hr q hw] at hios
    cases hios
    exact ParityAccess.disk_lt_of_mem_dataOf _ hio
  | true =>
    rw [enqueue45_write hr q hw] at hios
    cases hios
    obtain ⟨p, -, hp⟩ := List.mem_flatMap.mp hio
    exact ParityAccess.disk_lt_of_mem_call _ hp

/-- A request that fits on the disks is carried out. -/
theorem exists_performAll_enqueue45 (hr : r.HasParity) {q : Request} (hios : r.enqueue45 q = .ok ios)
    {disks : List Disk} (hlen : disks.length = r.numDisks)
    (hcap : ∀ io ∈ ios, ∀ d ∈ disks, io.slot.2 < d.blocksPerDisk) :
    ∃ disks', performAll disks ios = .ok disks' := by
  refine exists_performAll (fun io hio => ?_) hcap
  rw [hlen]
  exact disk_lt_of_mem_enqueue45 hr hios io hio

/-- A write writes the slots of its pieces. -/
theorem writtenSlots_enqueue45 (hr : r.HasParity) (hios : r.enqueue45 ⟨addr, size, true⟩ = .ok ios) :
    writtenSlots ios = (r.pieces addr size).flatMap fun p =>
      ParityAccess.writeSlots (r.parityLayout hr) p.1 p.2.1 p.2.2 := by
  rw [enqueue45_write hr _ rfl] at hios
  cases hios
  rw [writtenSlots, List.filter_flatMap, List.map_flatMap]
  simp only [← writtenSlots_call]
  rfl

/-- The accesses of a write request: a call for every stripe. -/
theorem enqueue45_write_stripes (hr : r.HasParity) (hsize : 1 ≤ size) :
    r.enqueue45 ⟨addr, size, true⟩ = .ok ((r.stripes addr size).flatMap fun s =>
      ParityAccess.readsOf (r.parityLayout hr) s (r.piece addr size s).2.1 (r.piece addr size s).2.2
        ++ ParityAccess.writesOf (r.parityLayout hr) s (r.piece addr size s).2.1
          (r.piece addr size s).2.2) := by
  have hios := enqueue45_write hr ⟨addr, size, true⟩ rfl
  dsimp only at hios
  rw [pieces_eq hr hsize, List.flatMap_map] at hios
  exact hios

/-- The piece of a stripe lies in the request and in the stripe, and is not empty. -/
theorem mem_piece (hr : r.HasParity) (hsize : 1 ≤ size) {s : ℕ} (hs : s ∈ r.stripes addr size) :
    s * r.blocksInStripe ≤ (r.piece addr size s).2.1
      ∧ (r.piece addr size s).2.1 < (r.piece addr size s).2.2
      ∧ (r.piece addr size s).2.2 ≤ s * r.blocksInStripe + r.blocksInStripe
      ∧ addr ≤ (r.piece addr size s).2.1 ∧ (r.piece addr size s).2.2 ≤ addr + size := by
  have hcov : Covers r.blocksInStripe (r.pieces addr size) addr (addr + size) := covers_pieces hr hsize
  rw [pieces_eq hr hsize] at hcov
  exact hcov.mem (List.mem_map_of_mem (f := r.piece addr size) hs)

/-- A write request writes no slot twice. -/
theorem nodup_writtenSlots (hr : r.HasParity) (hsize : 1 ≤ size)
    (hios : r.enqueue45 ⟨addr, size, true⟩ = .ok ios) : (writtenSlots ios).Nodup := by
  have hcov : Covers r.blocksInStripe (r.pieces addr size) addr (addr + size) := covers_pieces hr hsize
  rw [← parityLayout_blocksInStripe hr] at hcov
  rw [writtenSlots_enqueue45 hr hios, List.nodup_flatMap]
  constructor
  · rintro ⟨s, b, e⟩ hp
    obtain ⟨hlo, -, hhi, -, -⟩ := hcov.mem hp
    exact ParityAccess.nodup_writeSlots _ hlo hhi
  · -- the rows tell the stripe, and every stripe has one piece
    have hstripes : ((r.pieces addr size).map Prod.fst).Nodup := by
      rw [pieces, map_fst_stripeLoop]
      exact List.nodup_range' 1
    refine (List.pairwise_map.mp hstripes).imp_of_mem ?_
    rintro ⟨s, b, e⟩ ⟨s', b', e'⟩ hp hp' hne x hx hx'
    obtain ⟨hlo, -, hhi, -, -⟩ := hcov.mem hp
    obtain ⟨hlo', -, hhi', -, -⟩ := hcov.mem hp'
    apply hne
    rw [← ParityAccess.row_div_of_mem_writeSlots _ hlo hhi hx,
      ← ParityAccess.row_div_of_mem_writeSlots _ hlo' hhi' hx']

/-- It writes the slots of its blocks and the parity slots of their rows. -/
theorem mem_writtenSlots (hr : r.HasParity) (hsize : 1 ≤ size)
    (hios : r.enqueue45 ⟨addr, size, true⟩ = .ok ios) {x : Slot} :
    x ∈ writtenSlots ios ↔ ∃ b, (addr ≤ b ∧ b < addr + size) ∧
      (r.bmap b = .ok x
        ∨ ∃ d p o, r.bmap b = .ok (d, o) ∧ r.pmap (b / r.blocksInStripe) = .ok p ∧ x = (p, o)) := by
  have hcov : Covers r.blocksInStripe (r.pieces addr size) addr (addr + size) := covers_pieces hr hsize
  have hslot : ∀ b, (r.bmap b = .ok x
      ∨ ∃ d p o, r.bmap b = .ok (d, o) ∧ r.pmap (b / r.blocksInStripe) = .ok p ∧ x = (p, o))
      ↔ (x = (r.parityLayout hr).slot b
        ∨ x = ((r.parityLayout hr).parity (b / r.blocksInStripe), (r.parityLayout hr).row b)) := by
    intro b
    rw [bmap_eq_slot hr, pmap_eq_parity hr, Except.ok.injEq]
    refine or_congr eq_comm ?_
    constructor
    · rintro ⟨d, p, o, hslot, hp, rfl⟩
      cases hp
      rw [← Layout.slot_snd, Except.ok.inj hslot]
    · rintro rfl
      exact ⟨_, _, _, rfl, rfl, rfl⟩
  simp only [hslot, writtenSlots_enqueue45 hr hios, List.mem_flatMap, ParityAccess.mem_writeSlots]
  -- a block of a piece tells the stripe of the piece
  have hdiv : ∀ s b e v, s * r.blocksInStripe ≤ b → e ≤ s * r.blocksInStripe + r.blocksInStripe → b ≤ v →
      v < e → v / r.blocksInStripe = s := by
    intro s b e v hlo hhi h1 h2
    rw [← parityLayout_blocksInStripe hr] at hlo hhi ⊢
    rw [← Layout.stripe_eq_div, ParityAccess.stripe_of_mem_piece _ hlo hhi h1 h2]
  constructor
  · rintro ⟨⟨s, b, e⟩, hp, v, h1, h2, hx⟩
    obtain ⟨hlo, -, hhi, ha, hz⟩ := hcov.mem hp
    rw [← hdiv s b e v hlo hhi h1 h2] at hx
    exact ⟨v, ⟨ha.trans h1, lt_of_lt_of_le h2 hz⟩, hx⟩
  · rintro ⟨v, ⟨ha, hz⟩, hx⟩
    obtain ⟨s, b, e, hp, h1, h2⟩ := hcov.exists_mem ha hz
    obtain ⟨hlo, -, hhi, -, -⟩ := hcov.mem hp
    rw [hdiv s b e v hlo hhi h1 h2] at hx
    exact ⟨(s, b, e), hp, v, h1, h2, hx⟩

/-- **A write is cut into stripes exactly, and writes every slot once.** The pieces belong to the stripes
`initStripe` to `finalStripe`, are non-empty, follow one another from the start of the request to its end, lie in
their stripes and use up `left`. The request writes the slot of each of its blocks and the parity slot of each row
that one of them is in, none of them twice, and nothing else; and all its accesses are carried out when
they fit on the disks. -/
theorem write_exact (hr : r.HasParity) (hsize : 1 ≤ size) :
    (r.pieces addr size).map Prod.fst
        = List.range' (addr / r.blocksInStripe)
            ((addr + size - 1) / r.blocksInStripe + 1 - addr / r.blocksInStripe)
      ∧ Covers r.blocksInStripe (r.pieces addr size) addr (addr + size)
      ∧ leftAfter size (r.pieces addr size) = 0
      ∧ ∃ ios, r.enqueue45 ⟨addr, size, true⟩ = .ok ios
        ∧ (writtenSlots ios).Nodup
        ∧ (∀ x, x ∈ writtenSlots ios ↔ ∃ b, (addr ≤ b ∧ b < addr + size) ∧
            (r.bmap b = .ok x
              ∨ ∃ d p o, r.bmap b = .ok (d, o) ∧ r.pmap (b / r.blocksInStripe) = .ok p ∧ x = (p, o)))
        ∧ ∀ disks : List Disk, disks.length = r.numDisks →
            (∀ io ∈ ios, ∀ d ∈ disks, io.slot.2 < d.blocksPerDisk) →
            ∃ disks', performAll disks ios = .ok disks' := by
  have hios := enqueue45_write (r := r) hr ⟨addr, size, true⟩ rfl
  refine ⟨map_fst_stripeLoop r _ _ _, covers_pieces hr hsize, leftAfter_pieces hr hsize, _, hios,
    nodup_writtenSlots hr hsize hios, fun x => mem_writtenSlots hr hsize hios, fun disks => ?_⟩
  exact exists_performAll_enqueue45 hr hios

/-- Seven blocks from block `4` on, over the three stripes `1` to `3` of the default RAID 5. -/
theorem write_exact_defaults :
    (defaults .five).pieces 4 7 = [(1, 4, 6), (2, 6, 9), (3, 9, 11)]
      ∧ leftAfter 7 ((defaults .five).pieces 4 7) = 0
      ∧ ∃ ios, (defaults .five).enqueue45 ⟨4, 7, true⟩ = .ok ios ∧ (writtenSlots ios).Nodup := by
  obtain ⟨-, -, hleft, ios, hios, hnodup, -⟩ :=
    @write_exact (defaults .five) 4 7 (Or.inr rfl) (by decide)
  exact ⟨by decide, hleft, ios, hios, hnodup⟩

end Raid

end Cs537
