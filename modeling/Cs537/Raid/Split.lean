import Cs537.Raid.Pieces

/-!
# Splitting a request

A request that is split in two makes the same accesses in the same order, so that it leaves the disks in the same
state. For the writes of a parity level the split has to be between two stripes: inside one the two halves would each
bring the parity up to date.
-/

namespace Cs537

/-- `raid.enqueue` on the disks: serve the accesses of the request. -/
def Raid.serve (r : Raid) (disks : List Disk) (q : Request) : Except PyError (List Disk) := do
  let ios ← r.enqueue q
  performAll disks ios

namespace Request

/-- The blocks of a request are those of its two parts. -/
theorem blocks_split (addr k m : ℕ) (w : Bool) :
    (Request.mk addr (k + m) w).blocks
      = (Request.mk addr k w).blocks ++ (Request.mk (addr + k) m w).blocks :=
  List.range'_append_1.symm

end Request

namespace ParityAccess

/-- The accesses to blocks in two parts. -/
theorem dataOf_append (L : ParityLayout) (op : Op) {a b c : ℕ} (hab : a ≤ b) (hbc : b ≤ c) :
    dataOf L op a c = dataOf L op a b ++ dataOf L op b c := by
  have hlen : c - a = (b - a) + (c - b) := by omega
  have hmid : a + (b - a) = b := by omega
  have hrange : List.range' a (c - a) = List.range' a (b - a) ++ List.range' b (c - b) := by
    rw [hlen, ← List.range'_append_1, hmid]
  rw [dataOf, hrange, List.map_append]
  rfl

end ParityAccess

namespace Raid

variable {r : Raid} {addr k m : ℕ}

/-- What is covered in two parts is covered. -/
theorem Covers.append {B a y z : ℕ} {ps qs : List (ℕ × ℕ × ℕ)} (hps : Covers B ps a y)
    (hqs : Covers B qs y z) : Covers B (ps ++ qs) a z := by
  induction ps generalizing a with
  | nil =>
    obtain rfl : a = y := hps
    exact hqs
  | cons p ps ih =>
    obtain ⟨hstart, hlt, hlo, hhi, hrest⟩ := hps
    exact ⟨hstart, hlt, hlo, hhi, ih hrest⟩

/-- Where a request is cut between two stripes, its stripes are those of the first part and then those of the
second one. -/
theorem stripes_split (hr : r.HasParity) (hk : 1 ≤ k) (hm : 1 ≤ m) (hsplit : r.blocksInStripe ∣ addr + k) :
    r.stripes addr (k + m) = r.stripes addr k ++ r.stripes (addr + k) m := by
  have hpos := blocksInStripe_pos hr
  obtain ⟨j, hj⟩ := hsplit
  have hmid : (addr + k) / r.blocksInStripe = j := by
    rw [hj, Nat.mul_div_cancel_left j hpos]
  -- the first part ends with the last block of stripe `j - 1`
  have hlast : (addr + k - 1) / r.blocksInStripe + 1 = j := by
    obtain ⟨i, rfl⟩ : ∃ i, j = i + 1 := by
      refine ⟨j - 1, (Nat.sub_add_cancel (Nat.pos_of_ne_zero ?_)).symm⟩
      rintro rfl
      omega
    have heq : addr + k - 1 = r.blocksInStripe * i + (r.blocksInStripe - 1) := by
      rw [hj, Nat.mul_succ]
      omega
    rw [heq, Nat.mul_add_div hpos, Nat.div_eq_of_lt (by omega), Nat.add_zero]
  have hfirst : addr / r.blocksInStripe ≤ j := by
    rw [← hmid]
    exact Nat.div_le_div_right (by omega)
  have hend : j ≤ (addr + k + m - 1) / r.blocksInStripe := by
    rw [← hmid]
    exact Nat.div_le_div_right (by omega)
  unfold stripes
  rw [hlast, hmid, ← Nat.add_assoc]
  have hstart : addr / r.blocksInStripe + (j - addr / r.blocksInStripe) = j := by omega
  have hcount : (addr + k + m - 1) / r.blocksInStripe + 1 - addr / r.blocksInStripe
      = (j - addr / r.blocksInStripe) + ((addr + k + m - 1) / r.blocksInStripe + 1 - j) := by omega
  rw [hcount, ← List.range'_append_1, hstart]

/-- And so are its pieces. -/
theorem pieces_split (hr : r.HasParity) (hk : 1 ≤ k) (hm : 1 ≤ m) (hsplit : r.blocksInStripe ∣ addr + k) :
    r.pieces addr (k + m) = r.pieces addr k ++ r.pieces (addr + k) m := by
  have hcov : Covers r.blocksInStripe (r.pieces addr k ++ r.pieces (addr + k) m) addr (addr + (k + m)) := by
    rw [← Nat.add_assoc]
    exact Covers.append (covers_pieces hr hk) (covers_pieces hr hm)
  have hfst : (r.pieces addr k ++ r.pieces (addr + k) m).map Prod.fst = r.stripes addr (k + m) := by
    rw [List.map_append, stripes_split hr hk hm hsplit]
    exact congrArg₂ _ (map_fst_stripeLoop r _ _ _) (map_fst_stripeLoop r _ _ _)
  rw [hcov.eq_map hfst]
  exact pieces_eq hr (by omega)

/-- The accesses of a split request. -/
theorem enqueue_split (r : Raid) {addr k m : ℕ} {w : Bool} (hk : 1 ≤ k) (hm : 1 ≤ m)
    (hsplit : r.HasParity → w = true → r.blocksInStripe ∣ addr + k) :
    ∃ ios ios', r.enqueue ⟨addr, k, w⟩ = .ok ios ∧ r.enqueue ⟨addr + k, m, w⟩ = .ok ios'
      ∧ r.enqueue ⟨addr, k + m, w⟩ = .ok (ios ++ ios') := by
  -- with parity a write is split between two stripes, everything else between two blocks
  by_cases hr : r.HasParity
  · simp only [enqueue_eq_enqueue45 hr]
    cases w with
    | true =>
      refine ⟨_, _, enqueue45_write hr _ rfl, enqueue45_write hr _ rfl, ?_⟩
      rw [enqueue45_write hr _ rfl]
      dsimp only
      rw [pieces_split hr hk hm (hsplit hr rfl), List.flatMap_append]
    | false =>
      refine ⟨_, _, enqueue45_read hr _ rfl, enqueue45_read hr _ rfl, ?_⟩
      rw [enqueue45_read hr _ rfl]
      dsimp only
      rw [← Nat.add_assoc, ParityAccess.dataOf_append _ _ (Nat.le_add_right addr k) (Nat.le_add_right _ m)]
  · cases hlevel : r.raidLevel with
    | zero =>
      simp only [enqueue, hlevel]
      refine ⟨_, _, rfl, rfl, ?_⟩
      rw [enqueue0, Request.blocks_split, List.map_append]
      rfl
    | one =>
      simp only [enqueue, hlevel]
      refine ⟨_, _, rfl, rfl, ?_⟩
      rw [enqueue1, Request.blocks_split, List.flatMap_append]
      rfl
    | four => exact absurd (Or.inl hlevel) hr
    | five => exact absurd (Or.inr hlevel) hr

/-- **Splitting a request leaves the disks in the same state**, at any block for RAID 0, RAID 1 and for reads, and
between two stripes for the writes of RAID 4 and RAID 5. -/
theorem serve_split (r : Raid) (disks : List Disk) {addr k m : ℕ} {w : Bool} (hk : 1 ≤ k) (hm : 1 ≤ m)
    (hsplit : r.HasParity → w = true → r.blocksInStripe ∣ addr + k) :
    r.serve disks ⟨addr, k + m, w⟩
      = (r.serve disks ⟨addr, k, w⟩).bind fun disks' => r.serve disks' ⟨addr + k, m, w⟩ := by
  obtain ⟨ios, ios', hfirst, hsecond, hwhole⟩ := enqueue_split r hk hm hsplit
  have hserve : ∀ (disks : List Disk) (q : Request) (ios : List Access), r.enqueue q = .ok ios →
      r.serve disks q = performAll disks ios := by
    intro disks q ios hios
    rw [serve, hios]
    rfl
  simp only [hserve _ _ _ hfirst, hserve _ _ _ hsecond, hserve _ _ _ hwhole]
  exact performAll_append disks ios ios'

/-- Two stripes of the default RAID 5 written at once or one after the other. -/
theorem serve_split_defaults :
    (defaults .five).serve (List.replicate 4 Disk.fresh) ⟨1, 5, true⟩
      = ((defaults .five).serve (List.replicate 4 Disk.fresh) ⟨1, 2, true⟩).bind fun disks' =>
        (defaults .five).serve disks' ⟨3, 3, true⟩ := by
  refine serve_split (k := 2) (m := 3) (defaults .five) _ (by decide) (by decide) fun _ _ => ?_
  decide

/-- Inside a stripe the split shows: two blocks take four accesses at once, and eight one by one. -/
example : ((defaults .five).enqueue ⟨0, 2, true⟩).toOption.map List.length = some 4
    ∧ ((defaults .five).enqueue ⟨0, 1, true⟩).toOption.map List.length = some 4
    ∧ ((defaults .five).enqueue ⟨1, 1, true⟩).toOption.map List.length = some 4 := by decide

end Raid

end Cs537
