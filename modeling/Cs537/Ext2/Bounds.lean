import Cs537.Ext2.Records

/-!
# Reads behind the directory

After the last record, the body of the loop reads one more length, behind the directory, and adds it to `size`.
Where the directory fills its block, that length lies outside the block. Where it does not, the length decides
whether the loop takes what follows the directory for one more entry.
-/

namespace Cs537.Ext2.Call

variable {c : Call} {a j k n : ℕ} {s : Walk}

/-- All reads are in the block, and only records are printed. -/
structure StaysInside (c : Call) (n : ℕ) : Prop where
  accessed : ∀ k s, c.visit k = some s → ∀ a ∈ c.accessed s, a < c.blockSize.toNat
  printed : ∀ k s, c.visit k = some s → c.Continues s → ∃ j < n, s.entry = c.offset j

/-- What is read at an entry. -/
theorem mem_accessed : a ∈ c.accessed s ↔ s.size < c.inode.iSize ∧ ((s.entry ≤ a ∧ a < s.entry + 4)
    ∨ (Ext2.inode c.memory s.entry ≠ 0 ∧ ((s.entry + 4 ≤ a ∧ a < s.entry + 7)
      ∨ (s.entry + 8 ≤ a ∧ a < s.entry + 8 + (nameLen c.memory s.entry).toNat)
      ∨ ((c.next s).entry + 4 ≤ a ∧ a < (c.next s).entry + 6)))) := by
  unfold accessed
  by_cases hsize : s.size < c.inode.iSize
  · by_cases hinode : Ext2.inode c.memory s.entry ≠ 0
    · rw [if_pos hsize, if_pos hinode]
      simp only [List.mem_append, List.mem_range'_1, List.mem_singleton, hsize, hinode, true_and, ne_eq,
        not_false_eq_true]
      omega
    · rw [if_pos hsize, if_neg hinode]
      simp only [List.append_nil, List.mem_range'_1, hsize, hinode, true_and, false_and, or_false]
  · rw [if_neg hsize]
    simp [hsize]

/-- With the record, its fields are in the directory; so is the length of the next one, unless it is the last. -/
theorem Records.accessed_lt (h : c.Records n) (hj : j < n) (ha : a ∈ c.accessed (c.walkAt j)) :
    a < c.inode.iSize.toNat
      ∨ (j + 1 = n ∧ Ext2.inode c.memory (c.offset j) ≠ 0 ∧ a < c.inode.iSize.toNat + 6) := by
  obtain ⟨-, ha⟩ := mem_accessed.mp ha
  have hname := h.name_end_le hj
  change (c.offset j ≤ a ∧ a < c.offset j + 4) ∨ (_ ∧ ((c.offset j + 4 ≤ a ∧ a < c.offset j + 7)
    ∨ (c.offset j + 8 ≤ a ∧ a < c.offset j + 8 + (nameLen c.memory (c.offset j)).toNat)
    ∨ (c.offset (j + 1) + 4 ≤ a ∧ a < c.offset (j + 1) + 6))) at ha
  rcases ha with hinode | ⟨hlive, hfields | hbytes | hlength⟩
  · omega
  · omega
  · omega
  · rcases Nat.lt_or_ge (j + 1) n with hlt | hge
    · have hnext := h.name_end_le hlt
      omega
    · obtain rfl : j + 1 = n := by omega
      rw [h.offset_eq] at hlength
      exact .inr ⟨rfl, hlive, hlength.2⟩

/-- Behind the last record, `size` is the size of the directory, with the length of the first record taken off and
the one found there put on. -/
theorem Records.continues_end_iff (h : c.Records n) : c.Continues (c.walkAt n)
    ↔ c.inode.iSize + (recLen c.memory c.inode.iSize.toNat).toUInt32 - (recLen c.memory 0).toUInt32 < c.inode.iSize
      ∧ Ext2.inode c.memory c.inode.iSize.toNat ≠ 0 := by
  unfold Continues walkAt
  rw [h.offset_eq, UInt32.ofNat_toNat]

/-- Where the loop is, it has gone on at every entry before. -/
theorem eq_walkAt (hdir : sIsdir c.inode.iMode) (hvisit : c.visit k = some s) :
    s = c.walkAt k ∧ ∀ j < k, c.Continues (c.walkAt j) :=
  ((visit_eq_some_iff hdir).mp hvisit).symm

/-- An empty directory is not looked into. -/
theorem staysInside_of_empty (hsize : c.inode.iSize = 0) : c.StaysInside n where
  accessed k s _ a ha := by
    have hlt := (mem_accessed.mp ha).1
    rw [hsize, UInt32.lt_iff_toNat_lt] at hlt
    exact absurd hlt (Nat.not_lt_zero _)
  printed k s _ hcont := by
    have hlt := hcont.1
    rw [hsize, UInt32.lt_iff_toNat_lt] at hlt
    exact absurd hlt (Nat.not_lt_zero _)

/-- A record with inode 0 ends the loop before its pointer leaves the records. -/
theorem Records.staysInside_of_null (h : c.Records n) (hdir : sIsdir c.inode.iMode)
    (hle : c.inode.iSize ≤ c.blockSize) (hj : j < n) (hnull : Ext2.inode c.memory (c.offset j) = 0) :
    c.StaysInside n := by
  rw [UInt32.le_iff_toNat_le] at hle
  have hvisited : ∀ k s, c.visit k = some s → s = c.walkAt k ∧ k ≤ j := by
    intro k s hvisit
    obtain ⟨rfl, hall⟩ := eq_walkAt hdir hvisit
    refine ⟨rfl, ?_⟩
    by_contra hlt
    exact (hall j (by omega)).2 hnull
  refine ⟨fun k s hvisit a ha => ?_, fun k s hvisit _ => ?_⟩
  · obtain ⟨rfl, hk⟩ := hvisited k s hvisit
    rcases h.accessed_lt (by omega) ha with hlt | ⟨hlast, hlive, -⟩
    · omega
    · -- only the record with inode 0 itself is the last one that the loop gets to
      obtain rfl : k = j := by omega
      exact absurd hnull hlive
  · obtain ⟨rfl, hk⟩ := hvisited k s hvisit
    exact ⟨k, by omega, rfl⟩

/-- With room for a length behind the directory, the loop may get there, as long as it stops. -/
theorem Records.staysInside_of_stop (h : c.Records n) (hdir : sIsdir c.inode.iMode)
    (hroom : c.inode.iSize.toNat + 6 ≤ c.blockSize.toNat) (hstop : ¬ c.Continues (c.walkAt n)) : c.StaysInside n := by
  have hvisited : ∀ k s, c.visit k = some s → s = c.walkAt k ∧ k ≤ n := by
    intro k s hvisit
    obtain ⟨rfl, hall⟩ := eq_walkAt hdir hvisit
    refine ⟨rfl, ?_⟩
    by_contra hlt
    exact hstop (hall n (by omega))
  refine ⟨fun k s hvisit a ha => ?_, fun k s hvisit hcont => ?_⟩
  · obtain ⟨rfl, hk⟩ := hvisited k s hvisit
    rcases Nat.lt_or_eq_of_le hk with hlt | rfl
    · rcases h.accessed_lt hlt ha with hin | ⟨-, -, hend⟩
      · omega
      · omega
    · -- at the end, only the inode is read
      obtain ⟨hsize, hinode | ⟨hlive, -⟩⟩ := mem_accessed.mp ha
      · have hentry : (c.walkAt k).entry = c.inode.iSize.toNat := h.offset_eq
        omega
      · exact absurd ⟨hsize, hlive⟩ hstop
  · obtain ⟨rfl, hk⟩ := hvisited k s hvisit
    rcases Nat.lt_or_eq_of_le hk with hlt | rfl
    · exact ⟨k, hlt, rfl⟩
    · exact absurd hcont hstop

/-- With records all in use, the loop reads the length behind the last one, and gets there. -/
theorem StaysInside.stop_of_live (hinside : c.StaysInside n) (h : c.Records n) (hdir : sIsdir c.inode.iMode)
    (hn : 0 < n) (hlive : ∀ j < n, Ext2.inode c.memory (c.offset j) ≠ 0) :
    c.inode.iSize.toNat + 6 ≤ c.blockSize.toNat ∧ ¬ c.Continues (c.walkAt n) := by
  constructor
  · have hvisit := h.visit_of_live hdir (show n - 1 ≤ n by omega) fun j hj => hlive j (by omega)
    have hread : c.inode.iSize.toNat + 5 ∈ c.accessed (c.walkAt (n - 1)) := by
      refine mem_accessed.mpr ⟨h.size_lt (by omega), .inr ⟨hlive (n - 1) (by omega), .inr (.inr ?_)⟩⟩
      show c.offset (n - 1 + 1) + 4 ≤ _ ∧ _ < c.offset (n - 1 + 1) + 6
      rw [Nat.sub_add_cancel hn, h.offset_eq]
      omega
    have hlt := hinside.accessed (n - 1) _ hvisit _ hread
    omega
  · intro hcont
    have hvisit := h.visit_of_live hdir le_rfl hlive
    obtain ⟨j, hj, hentry⟩ := hinside.printed n _ hvisit hcont
    change c.offset n = c.offset j at hentry
    have hlt := h.offset_lt hj
    rw [h.offset_eq] at hentry
    omega

/-- **When `read_dir` stays inside.** On a well-formed block, the reads stay in the block and only records are
printed exactly when the directory is empty, or some record has inode 0, or what follows the directory in its
block has room for a length, and stops the loop. -/
theorem staysInside_iff (c : Call) (hdir : sIsdir c.inode.iMode) (hle : c.inode.iSize ≤ c.blockSize) {n : ℕ}
    (h : c.Records n) : c.StaysInside n ↔ c.inode.iSize = 0 ∨ (∃ j < n, Ext2.inode c.memory (c.offset j) = 0)
      ∨ (c.inode.iSize.toNat + 6 ≤ c.blockSize.toNat ∧ (c.inode.iSize
          ≤ c.inode.iSize + (recLen c.memory c.inode.iSize.toNat).toUInt32 - (recLen c.memory 0).toUInt32
        ∨ Ext2.inode c.memory c.inode.iSize.toNat = 0)) := by
  have hstop := not_congr h.continues_end_iff
  rw [not_and_or, UInt32.not_lt, not_not] at hstop
  rw [← hstop]
  constructor
  · intro hinside
    by_cases hempty : c.inode.iSize = 0
    · exact .inl hempty
    · by_cases hnull : ∃ j < n, Ext2.inode c.memory (c.offset j) = 0
      · exact .inr (.inl hnull)
      · have hn : 0 < n := by
          refine Nat.pos_of_ne_zero fun hzero => hempty (UInt32.toNat_inj.mp ?_)
          rw [← h.offset_eq, hzero]
          rfl
        exact .inr (.inr (hinside.stop_of_live h hdir hn fun j hj heq => hnull ⟨j, hj, heq⟩))
  · rintro (hempty | ⟨j, hj, hnull⟩ | ⟨hroom, hends⟩)
    · exact staysInside_of_empty hempty
    · exact h.staysInside_of_null hdir hle hj hnull
    · exact h.staysInside_of_stop hdir hroom hends

/-- The same block, for a directory of the first two records only. What follows is long enough to stop the loop. -/
def twoEntries : Call := { rootDirectory with inode := { rootDirectory.inode with iSize := 24 } }

/-- The two entries of an empty directory stay inside their block. -/
theorem staysInside_iff_twoEntries : twoEntries.StaysInside 2 := by
  have hrecords : twoEntries.Records 2 := ⟨by decide, by decide⟩
  exact (staysInside_iff twoEntries (by decide) (by decide) hrecords).mpr (.inr (.inr (by decide)))

/-- The last record of a full block makes the loop read a length behind the block. -/
theorem not_staysInside_rootDirectory : sIsdir rootDirectory.inode.iMode
    ∧ rootDirectory.inode.iSize ≤ rootDirectory.blockSize ∧ rootDirectory.Records 3
    ∧ rootDirectory.visit 2 = some ⟨24, 1012⟩ ∧ 1028 ∈ rootDirectory.accessed ⟨24, 1012⟩
    ∧ ¬ rootDirectory.StaysInside 3 := by
  have hvisit : rootDirectory.visit 2 = some ⟨24, 1012⟩ := by decide
  have hread : 1028 ∈ rootDirectory.accessed ⟨24, 1012⟩ := by decide
  refine ⟨by decide, by decide, rootDirectory_records, hvisit, hread, fun hinside => ?_⟩
  exact absurd (hinside.accessed 2 _ hvisit 1028 hread) (by decide)

end Cs537.Ext2.Call
