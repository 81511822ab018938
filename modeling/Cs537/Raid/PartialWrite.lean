import Cs537.Raid.Enqueue

/-!
# The write path of RAID 4 and RAID 5

Both parity levels run the same code over a parity layout. `doPartialWrite_eq` gives the accesses of
one call in terms of the layout, and `covers_pieces` says how `enqueue45` cuts a request: the pieces
are non-empty, consecutive, inside one stripe each, and they cover the request.
-/

namespace Cs537

/-! ## Distinct offsets -/

/-- What the loop that builds `offList` keeps: no offset twice, and all that it has seen. -/
theorem foldl_offList (offs acc : List ℕ) (hacc : acc.Nodup) :
    let offList := offs.foldl (fun l off => if off ∈ l then l else l ++ [off]) acc
    offList.Nodup ∧ ∀ o, o ∈ offList ↔ o ∈ acc ∨ o ∈ offs := by
  induction offs generalizing acc with
  | nil => simpa using hacc
  | cons off offs ih =>
    simp only [List.foldl_cons]
    by_cases hmem : off ∈ acc
    · rw [if_pos hmem]
      obtain ⟨hnodup, hiff⟩ := ih acc hacc
      refine ⟨hnodup, fun o => (hiff o).trans ?_⟩
      rw [List.mem_cons]
      constructor
      · rintro (h | h)
        · exact Or.inl h
        · exact Or.inr (Or.inr h)
      · rintro (h | rfl | h)
        · exact Or.inl h
        · exact Or.inl hmem
        · exact Or.inr h
    · rw [if_neg hmem]
      obtain ⟨hnodup, hiff⟩ := ih (acc ++ [off])
        (List.nodup_append.mpr ⟨hacc, List.nodup_singleton off, by
          rintro x hx y hy rfl
          exact hmem (List.mem_singleton.mp hy ▸ hx)⟩)
      refine ⟨hnodup, fun o => (hiff o).trans ?_⟩
      rw [List.mem_append, List.mem_singleton, List.mem_cons, or_assoc]

/-- No offset is in `offList` twice. -/
theorem nodup_offListOf (offs : List ℕ) : (offListOf offs).Nodup :=
  (foldl_offList offs [] List.nodup_nil).1

/-- `offList` has the offsets of the blocks. -/
@[simp] theorem mem_offListOf {offs : List ℕ} {o : ℕ} : o ∈ offListOf offs ↔ o ∈ offs := by
  have h := (foldl_offList offs [] List.nodup_nil).2 o
  rwa [List.mem_nil_iff, false_or] at h

/-! ## One call over a parity layout -/

namespace ParityAccess

variable (L : ParityLayout)

/-- One access to each of the blocks `[b, e)`. -/
def dataOf (op : Op) (b e : ℕ) : List Access :=
  (List.range' b (e - b)).map fun v => Access.data op v (L.slot v)

/-- The rows of the blocks `[b, e)`, each once. -/
def rowsOf (b e : ℕ) : List ℕ := offListOf ((List.range' b (e - b)).map L.row)

/-- One access to the parity block of each row of `[b, e)`. -/
def parityOf (op : Op) (s b e : ℕ) : List Access :=
  (rowsOf L b e).map (Access.parity op (L.parity s))

/-- The reads of a call. -/
def readsOf (s b e : ℕ) : List Access :=
  if (e - b) + 1 ≤ L.blocksInStripe - (e - b) then dataOf L .read b e ++ parityOf L .read s b e
  else dataOf L .read (s * L.blocksInStripe) b
    ++ dataOf L .read e (s * L.blocksInStripe + L.blocksInStripe)

/-- The writes of a call. -/
def writesOf (s b e : ℕ) : List Access := dataOf L .write b e ++ parityOf L .write s b e

/-- The accesses to data are those of the blocks. -/
theorem mem_dataOf {op : Op} {b e : ℕ} {a : Access} :
    a ∈ dataOf L op b e ↔ ∃ v, b ≤ v ∧ v < e ∧ a = Access.data op v (L.slot v) := by
  simp only [dataOf, List.mem_map, List.mem_range'_1]
  constructor
  · rintro ⟨v, ⟨h1, h2⟩, rfl⟩
    exact ⟨v, h1, by omega, rfl⟩
  · rintro ⟨v, h1, h2, rfl⟩
    exact ⟨v, ⟨h1, by omega⟩, rfl⟩

theorem mem_rowsOf {b e o : ℕ} : o ∈ rowsOf L b e ↔ ∃ v, b ≤ v ∧ v < e ∧ L.row v = o := by
  simp only [rowsOf, mem_offListOf, List.mem_map, List.mem_range'_1]
  constructor
  · rintro ⟨v, ⟨h1, h2⟩, hv⟩
    exact ⟨v, h1, by omega, hv⟩
  · rintro ⟨v, h1, h2, hv⟩
    exact ⟨v, ⟨h1, by omega⟩, hv⟩

/-- The accesses to parity are those of the rows. -/
theorem mem_parityOf {op : Op} {s b e : ℕ} {a : Access} :
    a ∈ parityOf L op s b e ↔
      ∃ v, b ≤ v ∧ v < e ∧ a = Access.parity op (L.parity s) (L.row v) := by
  simp only [parityOf, List.mem_map, mem_rowsOf]
  constructor
  · rintro ⟨o, ⟨v, h1, h2, rfl⟩, rfl⟩
    exact ⟨v, h1, h2, rfl⟩
  · rintro ⟨v, h1, h2, rfl⟩
    exact ⟨L.row v, ⟨v, h1, h2, rfl⟩, rfl⟩

theorem op_of_mem_dataOf {op : Op} {b e : ℕ} {a : Access} (h : a ∈ dataOf L op b e) : a.op = op := by
  obtain ⟨v, -, -, rfl⟩ := (mem_dataOf L).mp h
  rfl

theorem op_of_mem_parityOf {op : Op} {s b e : ℕ} {a : Access} (h : a ∈ parityOf L op s b e) :
    a.op = op := by
  obtain ⟨v, -, -, rfl⟩ := (mem_parityOf L).mp h
  rfl

theorem op_of_mem_readsOf {s b e : ℕ} {a : Access} (h : a ∈ readsOf L s b e) : a.op = .read := by
  rw [readsOf] at h
  split at h <;> rcases List.mem_append.mp h with h | h
  · exact op_of_mem_dataOf L h
  · exact op_of_mem_parityOf L h
  · exact op_of_mem_dataOf L h
  · exact op_of_mem_dataOf L h

theorem op_of_mem_writesOf {s b e : ℕ} {a : Access} (h : a ∈ writesOf L s b e) : a.op = .write := by
  rcases List.mem_append.mp h with h | h
  · exact op_of_mem_dataOf L h
  · exact op_of_mem_parityOf L h

/-- The accesses of a call are data accesses, or parity accesses of its piece. -/
theorem mem_call {s b e : ℕ} {io : Access} (h : io ∈ readsOf L s b e ∨ io ∈ writesOf L s b e) :
    (∃ op x y, io ∈ dataOf L op x y) ∨ ∃ op, io ∈ parityOf L op s b e := by
  rcases h with hio | hio
  · rw [readsOf] at hio
    split at hio <;> rcases List.mem_append.mp hio with hio | hio
    · exact Or.inl ⟨_, _, _, hio⟩
    · exact Or.inr ⟨_, hio⟩
    · exact Or.inl ⟨_, _, _, hio⟩
    · exact Or.inl ⟨_, _, _, hio⟩
  · rcases List.mem_append.mp hio with hio | hio
    · exact Or.inl ⟨_, _, _, hio⟩
    · exact Or.inr ⟨_, hio⟩

/-- The blocks of a piece lie in its stripe. -/
theorem stripe_of_mem_piece {s b e v : ℕ} (hb : s * L.blocksInStripe ≤ b)
    (he : e ≤ s * L.blocksInStripe + L.blocksInStripe) (h1 : b ≤ v) (h2 : v < e) : L.stripe v = s :=
  (L.stripe_eq_iff v s).mpr ⟨by omega, by rw [Nat.succ_mul]; omega⟩

end ParityAccess

/-! ## The configurations with parity -/

namespace Raid

variable {r : Raid}

/-- RAID 4 and RAID 5. -/
def HasParity (r : Raid) : Prop := r.raidLevel = .four ∨ r.raidLevel = .five

/-- A level with parity has at least two disks. -/
theorem HasParity.two_le (h : r.HasParity) : 2 ≤ r.numDisks :=
  r.two_le (by rcases h with h | h <;> simp [h])

/-- The levels with parity are served by `enqueue45`. -/
theorem enqueue_eq_enqueue45 (h : r.HasParity) (q : Request) : r.enqueue q = r.enqueue45 q := by
  rcases h with h | h <;> rw [enqueue, h]

/-- The layout of a configuration with parity. -/
def parityLayout (r : Raid) (h : r.HasParity) : ParityLayout :=
  if r.raidLevel = .four then r.layout4 h.two_le else r.layout5 h.two_le

variable (h : r.HasParity)

/-- Where a block is. -/
theorem bmap_eq_slot (b : ℕ) : r.bmap b = .ok ((r.parityLayout h).slot b) := by
  rcases h with h4 | h5
  · simp only [bmap, parityLayout, h4, if_true]
    rfl
  · simp only [bmap, parityLayout, h5, reduceCtorEq, if_false]
    exact r.bmap5_eq_slot _ b

/-- Where the parity of a stripe is. -/
theorem pmap_eq_parity (s : ℕ) : r.pmap s = .ok ((r.parityLayout h).parity s) := by
  rcases h with h4 | h5
  · simp only [pmap, parityLayout, h4, if_true]
    rfl
  · simp only [pmap, parityLayout, h5, reduceCtorEq, if_false]
    exact r.pmap5_eq_parity _ s

@[simp] theorem parityLayout_disks : (r.parityLayout h).disks = r.numDisks := by
  rw [parityLayout]
  split <;> rfl

@[simp] theorem parityLayout_chunk : (r.parityLayout h).chunk = r.chunkSize := by
  rw [parityLayout]
  split <;> rfl

theorem parityLayout_blocksInStripe : (r.parityLayout h).blocksInStripe = r.blocksInStripe := by
  rw [parityLayout]
  split <;> rfl

/-- The accesses to data that `doPartialWrite` makes. -/
theorem dataAccesses_eq (op : Op) (b e : ℕ) :
    r.dataAccesses op b e = .ok (ParityAccess.dataOf (r.parityLayout h) op b e) := by
  simp only [dataAccesses, bmap_eq_slot h]
  exact List.mapM_pure

theorem dataAndParity_eq (op : Op) (s b e : ℕ) :
    r.dataAndParity op ((r.parityLayout h).parity s) b e
      = .ok (ParityAccess.dataOf (r.parityLayout h) op b e
          ++ ParityAccess.parityOf (r.parityLayout h) op s b e) := by
  have hrows : (ParityAccess.dataOf (r.parityLayout h) op b e).map (fun io => io.slot.2)
      = (List.range' b (e - b)).map (r.parityLayout h).row := by
    simp only [ParityAccess.dataOf, List.map_map]
    rfl
  simp only [dataAndParity, dataAccesses_eq h]
  show Except.ok _ = _
  rw [hrows]
  rfl

/-- The blocks that additive parity reads: those of the stripe that are not written. -/
theorem additiveReads_eq (s b e : ℕ) :
    r.additiveReads s b e = .ok
      (ParityAccess.dataOf (r.parityLayout h) .read (s * (r.parityLayout h).blocksInStripe) b
        ++ ParityAccess.dataOf (r.parityLayout h) .read e
          (s * (r.parityLayout h).blocksInStripe + (r.parityLayout h).blocksInStripe)) := by
  simp only [additiveReads, dataAccesses_eq h, parityLayout_blocksInStripe h]
  rfl

/-- One call of `doPartialWrite` never fails and reads before it writes. -/
theorem doPartialWrite_eq (s b e : ℕ) :
    r.doPartialWrite s b e = .ok (ParityAccess.readsOf (r.parityLayout h) s b e
      ++ ParityAccess.writesOf (r.parityLayout h) s b e) := by
  have hsub : r.Subtractive b e ↔ (e - b) + 1 ≤ (r.parityLayout h).blocksInStripe - (e - b) := by
    rw [Subtractive, parityLayout_blocksInStripe h]
  rw [ParityAccess.readsOf, doPartialWrite, pmap_eq_parity h]
  by_cases hs : r.Subtractive b e
  · rw [if_pos (hsub.mp hs)]
    simp only [bind, Except.bind, if_pos hs, dataAndParity_eq h]
    rfl
  · rw [if_neg fun hs' => hs (hsub.mpr hs')]
    simp only [bind, Except.bind, if_neg hs, dataAndParity_eq h, additiveReads_eq h]
    rfl

/-! ## The pieces of a request -/

/-- `Covers B ps a z`: the pieces `ps`, with their stripe numbers, are non-empty, follow one another
from `a` up to `z`, and lie in their stripes of `B` blocks. -/
def Covers (B : ℕ) : List (ℕ × ℕ × ℕ) → ℕ → ℕ → Prop
  | [], a, z => a = z
  | (s, b, e) :: ps, a, z => b = a ∧ b < e ∧ s * B ≤ b ∧ e ≤ s * B + B ∧ Covers B ps e z

/-- A piece that starts in its stripe ends with the request or with the stripe. -/
theorem pieceEnd_eq (r : Raid) {s left b : ℕ} (hb : s * r.blocksInStripe ≤ b) :
    r.pieceEnd s left b = min (b + left) (s * r.blocksInStripe + r.blocksInStripe) := by
  simp only [pieceEnd]
  split <;> split <;> omega

/-- What is covered does not end before it begins. -/
theorem Covers.le {B : ℕ} {ps : List (ℕ × ℕ × ℕ)} {a z : ℕ} (hc : Covers B ps a z) : a ≤ z := by
  induction ps generalizing a with
  | nil => exact Nat.le_of_eq hc
  | cons p ps ih =>
    obtain ⟨rfl, hlt, -, -, hrest⟩ := hc
    have := ih hrest
    omega

/-- **The loop over the stripes** covers the request, piece by piece. -/
theorem covers_stripeLoop (r : Raid) {n s left b : ℕ} (hleft : 0 < left)
    (hb : s * r.blocksInStripe ≤ b) (hb' : b < s * r.blocksInStripe + r.blocksInStripe)
    (hz : (s + n) * r.blocksInStripe ≤ b + left - 1)
    (hz' : b + left - 1 < (s + n) * r.blocksInStripe + r.blocksInStripe) :
    Covers r.blocksInStripe (r.stripeLoop (List.range' s (n + 1)) left b) b (b + left) := by
  induction n generalizing s left b with
  | zero =>
    -- the last stripe: what is left fits in it
    rw [Nat.add_zero] at hz'
    have hend : r.pieceEnd s left b = b + left := by
      rw [pieceEnd_eq r hb]
      omega
    show Covers _ [(s, b, r.pieceEnd s left b)] _ _
    rw [hend]
    exact ⟨rfl, by omega, hb, by omega, rfl⟩
  | succ n ih =>
    -- more stripes follow: this one is filled up to its end
    have hnext : (s + 1) * r.blocksInStripe ≤ (s + (n + 1)) * r.blocksInStripe :=
      Nat.mul_le_mul_right _ (by omega)
    have hsucc : (s + 1) * r.blocksInStripe = s * r.blocksInStripe + r.blocksInStripe :=
      Nat.succ_mul _ _
    have hend : r.pieceEnd s left b = s * r.blocksInStripe + r.blocksInStripe := by
      rw [pieceEnd_eq r hb]
      omega
    have hsum : s * r.blocksInStripe + r.blocksInStripe
        + (left - (s * r.blocksInStripe + r.blocksInStripe - b)) = b + left := by omega
    have hshift : s + 1 + n = s + (n + 1) := by omega
    have hcov : Covers r.blocksInStripe
        (r.stripeLoop (List.range' (s + 1) (n + 1))
          (left - (s * r.blocksInStripe + r.blocksInStripe - b))
          (s * r.blocksInStripe + r.blocksInStripe))
        (s * r.blocksInStripe + r.blocksInStripe)
        (s * r.blocksInStripe + r.blocksInStripe
          + (left - (s * r.blocksInStripe + r.blocksInStripe - b))) :=
      ih (by omega) hsucc.le (by rw [hsucc]; omega) (by rw [hshift, hsum]; exact hz)
        (by rw [hshift, hsum]; exact hz')
    rw [hsum] at hcov
    rw [List.range'_succ, stripeLoop, hend]
    exact ⟨rfl, hb', hb, le_rfl, hcov⟩

theorem blocksInStripe_pos (hr : r.HasParity) : 0 < r.blocksInStripe := by
  rw [← parityLayout_blocksInStripe hr]
  exact (r.parityLayout hr).blocksInStripe_pos

/-- **A write request is cut into stripes exactly.** -/
theorem covers_pieces (hr : r.HasParity) {addr size : ℕ} (hsize : 1 ≤ size) :
    Covers r.blocksInStripe (r.pieces addr size) addr (addr + size) := by
  have hpos := blocksInStripe_pos hr
  have hle : addr / r.blocksInStripe ≤ (addr + size - 1) / r.blocksInStripe :=
    Nat.div_le_div_right (by omega)
  have hcount : (addr + size - 1) / r.blocksInStripe + 1 - addr / r.blocksInStripe
      = ((addr + size - 1) / r.blocksInStripe - addr / r.blocksInStripe) + 1 := by omega
  have hlast : addr / r.blocksInStripe
      + ((addr + size - 1) / r.blocksInStripe - addr / r.blocksInStripe)
      = (addr + size - 1) / r.blocksInStripe := by omega
  have hbounds : ∀ x, x / r.blocksInStripe * r.blocksInStripe ≤ x ∧
      x < x / r.blocksInStripe * r.blocksInStripe + r.blocksInStripe := fun x =>
    ⟨Nat.div_mul_le_self x _, Nat.lt_div_mul_add hpos⟩
  simp only [pieces, hcount]
  refine covers_stripeLoop r (by omega) (hbounds addr).1 (hbounds addr).2 ?_ ?_
  · rw [hlast]
    exact (hbounds _).1
  · rw [hlast]
    exact (hbounds _).2

/-- A piece of a covering lies in its stripe and in the covered interval. -/
theorem Covers.mem {B : ℕ} {ps : List (ℕ × ℕ × ℕ)} {a z s b e : ℕ} (hc : Covers B ps a z)
    (hmem : (s, b, e) ∈ ps) : s * B ≤ b ∧ b < e ∧ e ≤ s * B + B ∧ a ≤ b ∧ e ≤ z := by
  induction ps generalizing a with
  | nil => cases hmem
  | cons p ps ih =>
    obtain ⟨s', b', e'⟩ := p
    obtain ⟨rfl, hlt, hlo, hhi, hrest⟩ := hc
    rcases List.mem_cons.mp hmem with heq | hmem'
    · obtain ⟨rfl, rfl, rfl⟩ := by simpa using heq
      refine ⟨hlo, hlt, hhi, le_rfl, hrest.le⟩
    · obtain ⟨h1, h2, h3, h4, h5⟩ := ih hrest hmem'
      exact ⟨h1, h2, h3, by omega, h5⟩

/-- Every block of the covered interval lies in a piece. -/
theorem Covers.exists_mem {B : ℕ} {ps : List (ℕ × ℕ × ℕ)} {a z v : ℕ} (hc : Covers B ps a z)
    (h1 : a ≤ v) (h2 : v < z) : ∃ s b e, (s, b, e) ∈ ps ∧ b ≤ v ∧ v < e := by
  induction ps generalizing a with
  | nil =>
    have := Nat.le_of_eq hc.symm
    omega
  | cons p ps ih =>
    obtain ⟨s, b, e⟩ := p
    obtain ⟨rfl, hlt, -, -, hrest⟩ := hc
    by_cases hv : v < e
    · exact ⟨s, b, e, List.mem_cons_self, h1, hv⟩
    · obtain ⟨s', b', e', hmem, hv'⟩ := ih hrest (by omega)
      exact ⟨s', b', e', List.mem_cons_of_mem _ hmem, hv'⟩

/-- The accesses of a write request: those of its pieces. -/
theorem enqueue45_write (q : Request) (hw : q.isWrite = true) :
    r.enqueue45 q = .ok ((r.pieces q.addr q.size).flatMap fun p =>
      ParityAccess.readsOf (r.parityLayout h) p.1 p.2.1 p.2.2
        ++ ParityAccess.writesOf (r.parityLayout h) p.1 p.2.1 p.2.2) := by
  have hcalls : ((r.pieces q.addr q.size).mapM fun p => r.doPartialWrite p.1 p.2.1 p.2.2)
      = .ok ((r.pieces q.addr q.size).map fun p =>
        ParityAccess.readsOf (r.parityLayout h) p.1 p.2.1 p.2.2
          ++ ParityAccess.writesOf (r.parityLayout h) p.1 p.2.1 p.2.2) := by
    simp only [doPartialWrite_eq h]
    exact List.mapM_pure
  rw [enqueue45, if_pos hw, hcalls]
  rfl

/-- The accesses of a read request: one per block. -/
theorem enqueue45_read (q : Request) (hw : q.isWrite = false) :
    r.enqueue45 q = .ok
      (ParityAccess.dataOf (r.parityLayout h) .read q.addr (q.addr + q.size)) := by
  rw [enqueue45, if_neg (by simp [hw]), dataAccesses_eq h]

end Raid

end Cs537
