import Cs537.Lib.Ranges
import Cs537.Raid.Placement
import Cs537.Raid.Service

/-!
# Mirrored reads

A read of consecutive blocks visits the offsets of a pair of mirrors in order. The one disk serves the even offsets
and the other one the odd offsets, so that the two share the work evenly, but neither of them ever reads two
consecutive offsets.
-/

namespace Cs537

/-- A disk that skips every other offset has one random access, the first one, and no sequential one. -/
theorem Disk.served_alternating {seekTime xferTime : ℚ} (o : ℕ) {k : ℕ} (hk : 1 ≤ k) :
    (served seekTime xferTime 2 o k).countRand = 1 ∧ (served seekTime xferTime 2 o k).countSeq = 0
      ∧ (served seekTime xferTime 2 o k).countNseq = k - 1
      ∧ (served seekTime xferTime 2 o k).utilTime
        = seekTime + xferTime + 2 * ((k : ℚ) - 1) * xferTime := by
  obtain ⟨n, rfl⟩ : ∃ n, k = n + 1 := ⟨k - 1, by omega⟩
  refine ⟨rfl, rfl, rfl, ?_⟩
  show seekTime + xferTime + n * ((2 : ℕ) * xferTime) = _
  push_cast
  ring

namespace Raid

variable (r : Raid)

/-- The mirror that a read of block `b` goes to. -/
def mirror (b : ℕ) : ℕ := if (r.bmap1 b).2.2 % 2 = 0 then (r.bmap1 b).1 else (r.bmap1 b).2.1

/-- The mirror that a read goes to alternates with the row. -/
theorem mirror_eq (b : ℕ) : r.mirror b = (r.bmap1 b).1 + (r.bmap1 b).2.2 % 2 := by
  have hsecond : (r.bmap1 b).2.1 = (r.bmap1 b).1 + 1 := rfl
  unfold mirror
  rw [hsecond]
  split <;> omega

/-- The accesses of a read, one for each block. -/
theorem enqueue1_read {q : Request} (hread : q.isWrite = false) :
    r.enqueue1 q = q.blocks.map fun b => Access.data .read b (r.mirror b, (r.bmap1 b).2.2) := by
  rw [enqueue1, hread, ← List.flatMap_singleton' (q.blocks.map _), List.flatMap_map]
  refine List.flatMap_congr fun b _ => ?_
  rw [mirror]
  dsimp only
  rw [if_neg Bool.false_ne_true]
  split <;> rfl

section

variable (h : r.raidLevel = .one) {i : ℕ}
include h

/-- Disk `i` serves the offsets of its pair that have the parity of `i`. -/
theorem mirror_eq_iff (b : ℕ) : r.mirror b = i
    ↔ (r.layout1 (r.pairs_pos h)).col b = i / 2 ∧ (r.layout1 (r.pairs_pos h)).row b % 2 = i % 2 := by
  have hpair : (r.bmap1 b).1 = 2 * (r.layout1 (r.pairs_pos h)).col b := rfl
  have hoff : (r.bmap1 b).2.2 = (r.layout1 (r.pairs_pos h)).row b := rfl
  rw [mirror_eq, hpair, hoff]
  omega

/-- The offsets of a read on disk `i` are two apart. -/
theorem offsetsOn_enqueue1_read {q : Request} (hread : q.isWrite = false) (hi : i / 2 < r.numDisks / 2) :
    let L := r.layout1 (r.pairs_pos h)
    let lo := L.rankOf (i / 2) q.addr
    let n := L.rankOf (i / 2) (q.addr + q.size) - lo
    offsetsOn i (r.enqueue1 q) = List.range' (lo + (lo + i % 2) % 2) ((n + 1 - (lo + i % 2) % 2) / 2) 2 := by
  intro L lo n
  have hpair : ((List.range' q.addr q.size).filter fun v => L.col v = i / 2).map L.row = List.range' lo n := by
    refine (Ranges.map_filter_range' (L.rankOf (i / 2)) (fun v _ _ hcol => ?_) fun v _ _ => ?_).2
    · rw [← hcol]
      exact L.row_eq_rankOf v
    · exact L.rankOf_succ hi v
  have hmirror : ((List.range' q.addr q.size).filter fun v => r.mirror v = i)
      = ((List.range' q.addr q.size).filter fun v => L.col v = i / 2).filter fun v => L.row v % 2 = i % 2 := by
    rw [List.filter_filter]
    refine List.filter_congr fun v _ => ?_
    rw [← Bool.decide_and, decide_eq_decide, r.mirror_eq_iff h, and_comm]
  rw [r.enqueue1_read hread, offsetsOn_data, Request.blocks, hmirror,
    ← Ranges.filter_mod_two lo n (Nat.mod_lt i two_pos), ← hpair, List.filter_map]
  rfl

end

/-- **Mirrored sequential reads alternate evenly but are never sequential.** -/
theorem mirrored_reads (h : r.raidLevel = .one) {q : Request} (hread : q.isWrite = false)
    (seekTime xferTime : ℚ)
    (hcap : ∀ io ∈ r.enqueue1 q, io.slot.2 < (Disk.init seekTime xferTime).blocksPerDisk) :
    (r.enqueue q = .ok (r.enqueue1 q)
        ∧ r.enqueue1 q = q.blocks.map (fun b => Access.data .read b (r.mirror b, (r.bmap1 b).2.2))
        ∧ ∀ b, r.mirror b = (r.bmap1 b).1 ∨ r.mirror b = (r.bmap1 b).2.1)
      ∧ ∃ disks, performAll (List.replicate r.numDisks (Disk.init seekTime xferTime)) (r.enqueue1 q) = .ok disks
        ∧ disks.length = r.numDisks
        ∧ (∀ (k : ℕ) (d e : Disk), disks[2 * k]? = some d → disks[2 * k + 1]? = some e →
            d.countIO ≤ e.countIO + 1 ∧ e.countIO ≤ d.countIO + 1)
        ∧ ∀ (i : ℕ) (d : Disk), disks[i]? = some d → d.countIO = (offsetsOn i (r.enqueue1 q)).length
          ∧ (1 ≤ d.countIO → d.countRand = 1 ∧ d.countSeq = 0 ∧ d.countNseq = d.countIO - 1
            ∧ d.utilTime = seekTime + xferTime + 2 * ((d.countIO : ℚ) - 1) * xferTime) := by
  have heven := r.even_of_mirrored h
  have hhalf : ∀ i < r.numDisks, i / 2 < r.numDisks / 2 := by omega
  have hdisk : ∀ io ∈ r.enqueue1 q, io.slot.1 < r.numDisks := by
    intro io hio
    rw [r.enqueue1_read hread] at hio
    obtain ⟨b, -, rfl⟩ := List.mem_map.mp hio
    have hcol := (r.layout1 (r.pairs_pos h)).col_lt b
    change _ < r.numDisks / 2 at hcol
    have hmirror := (r.mirror_eq_iff h b).mp rfl
    show r.mirror b < r.numDisks
    omega
  have hrun := performAll_streams two_pos (by omega) hdisk hcap fun i hi =>
    r.offsetsOn_enqueue1_read h hread (hhalf i hi)
  refine ⟨⟨?_, r.enqueue1_read hread, fun b => ?_⟩, _, hrun, ?_, fun k d e hd he => ?_, fun i d hd => ?_⟩
  · simp only [enqueue, h]
  · unfold mirror
    split
    · exact Or.inl rfl
    · exact Or.inr rfl
  · rw [List.length_map, List.length_range]
  · -- the rows of a pair go to its two disks in turn
    obtain ⟨-, rfl⟩ := getElem?_map_range hd
    obtain ⟨-, rfl⟩ := getElem?_map_range he
    have hfirst : 2 * k / 2 = k := by omega
    have hsecond : (2 * k + 1) / 2 = k := by omega
    rw [Disk.countIO_served, Disk.countIO_served, hfirst, hsecond]
    omega
  · obtain ⟨hi, rfl⟩ := getElem?_map_range hd
    rw [r.offsetsOn_enqueue1_read h hread (hhalf i hi), Disk.countIO_served, List.length_range']
    exact ⟨rfl, fun hpos => Disk.served_alternating _ hpos⟩

/-- Seven blocks from block `2` on over two pairs. -/
theorem mirrored_reads_defaults :
    ∃ disks, performAll (List.replicate 4 Disk.fresh) ((defaults .one).enqueue1 ⟨2, 7, false⟩) = .ok disks
      ∧ ∀ (k : ℕ) (d e : Disk), disks[2 * k]? = some d → disks[2 * k + 1]? = some e →
        d.countIO ≤ e.countIO + 1 ∧ e.countIO ≤ d.countIO + 1 := by
  have hcap : ∀ io ∈ (defaults .one).enqueue1 ⟨2, 7, false⟩,
      io.slot.2 < (Disk.init 10 (1 / 10)).blocksPerDisk := by
    rw [Disk.blocksPerDisk_init]
    decide
  obtain ⟨-, disks, hrun, -, hbalance, -⟩ := (defaults .one).mirrored_reads rfl rfl 10 (1 / 10) hcap
  exact ⟨disks, hrun, hbalance⟩

end Raid

end Cs537
