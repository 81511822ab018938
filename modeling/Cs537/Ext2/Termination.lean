import Cs537.Lib.Iteration
import Cs537.Ext2.Records

/-!
# When the walk ends

Nothing checks the lengths that are found on the disk. An entry in use whose length is 0 leads back to itself, and
the loop stays there. Otherwise `size` grows in every iteration and reaches the size of the directory, unless that
is so large that a step of `size` can wrap around.
-/

namespace Cs537.Ext2.Call

variable {c : Call} {k m n : ℕ} {s : Walk}

/-- A visit more is a step of the walk, as long as it continues. -/
theorem visit_succ (n : ℕ) :
    c.visit (n + 1) = (c.visit n).bind fun s => if c.Continues s then some (c.next s) else none := rfl

/-- At an entry of length 0 nothing moves. -/
theorem next_of_empty (hempty : recLen c.memory s.entry = 0) : c.next s = s := by
  have hentry : s.entry + (recLen c.memory s.entry).toNat = s.entry := by
    rw [hempty]
    rfl
  have hsize : s.size + (recLen c.memory s.entry).toUInt32 = s.size := by
    rw [hempty]
    exact UInt32.add_zero s.size
  unfold next
  dsimp only
  rw [hentry, hsize]

/-- An entry of length 0 is never left. -/
theorem visit_of_empty (hvisit : c.visit n = some s) (hcont : c.Continues s)
    (hempty : recLen c.memory s.entry = 0) (k : ℕ) : c.visit (n + k) = some s := by
  have hstay : ∀ t, t = s → ∃ t', (if c.Continues t then some (c.next t) else none) = some t' ∧ t' = s := by
    rintro t rfl
    exact ⟨t, by rw [if_pos hcont, next_of_empty hempty], rfl⟩
  obtain ⟨t, ht, heq⟩ := Iteration.exists_of_invariant (r := fun k => c.visit (n + k)) (I := fun t => t = s)
    (fun k => visit_succ (n + k)) ⟨s, hvisit, rfl⟩ hstay k
  exact ht.trans (congrArg some heq)

/-- A loop that has ended does not go on. -/
theorem visit_eq_none_of_le (hnone : c.visit n = none) (h : n ≤ k) : c.visit k = none := by
  induction k, h using Nat.le_induction with
  | base => exact hnone
  | succ k _ ih =>
    rw [visit_succ, ih]
    rfl

/-- The entries that the loop prints are not empty. -/
def Advances (c : Call) : Prop :=
  ∀ n s, c.visit n = some s → c.Continues s → recLen c.memory s.entry ≠ 0

/-- Where `size` cannot wrap around, each iteration adds to it. -/
theorem Advances.le_size (h : c.Advances) (hsize : c.inode.iSize.toNat ≤ 2 ^ 32 - 65535) (hvisit : c.visit n = some s)
    (hcont : c.Continues s) : n ≤ s.size.toNat := by
  induction n generalizing s with
  | zero => exact Nat.zero_le _
  | succ n ih =>
    have hpos : 0 < (recLen c.memory s.entry).toNat :=
      Nat.pos_of_ne_zero fun hzero => h (n + 1) s hvisit hcont (UInt16.toNat_inj.mp hzero)
    rw [visit_succ, Option.bind_eq_some_iff] at hvisit
    obtain ⟨t, ht, hnext⟩ := hvisit
    split at hnext
    · rename_i hcont'
      have hle := ih ht hcont'
      have hlt := UInt32.lt_iff_toNat_lt.mp hcont'.1
      have hlen := (recLen c.memory s.entry).toNat_lt
      have hadd : s.size.toNat = t.size.toNat + (recLen c.memory s.entry).toNat := by
        cases hnext
        show (t.size + (recLen c.memory (c.next t).entry).toUInt32).toNat = _
        rw [UInt32.toNat_add, UInt16.toNat_toUInt32, Nat.mod_eq_of_lt (by omega)]
      omega
    · cases hnext

/-- **When `read_dir` ends.** For sizes up to `2 ^ 32 - 65535`, the loop ends exactly when it prints no entry of
length 0, and then after at most `i_size` iterations. -/
theorem ends_iff (c : Call) (hsize : c.inode.iSize.toNat ≤ 2 ^ 32 - 65535) :
    ((∃ n, c.visit n = none) ↔ c.Advances) ∧ (c.Advances → c.visit (c.inode.iSize.toNat + 1) = none) := by
  have hends : c.Advances → c.visit (c.inode.iSize.toNat + 1) = none := by
    intro h
    rw [visit_succ]
    cases hvisit : c.visit c.inode.iSize.toNat with
    | none => rfl
    | some s =>
      refine if_neg fun hcont => ?_
      have hle := h.le_size hsize hvisit hcont
      have hlt := UInt32.lt_iff_toNat_lt.mp hcont.1
      omega
  refine ⟨⟨?_, fun h => ⟨_, hends h⟩⟩, hends⟩
  rintro ⟨m, hnone⟩ n s hvisit hcont hempty
  have hstays := visit_of_empty hvisit hcont hempty m
  rw [visit_eq_none_of_le hnone (Nat.le_add_left m n)] at hstays
  cases hstays

/-- The walk of the directory ends. -/
theorem ends_iff_rootDirectory : rootDirectory.Advances ∧ rootDirectory.visit 1025 = none := by
  obtain ⟨hiff, hends⟩ := ends_iff rootDirectory (by decide)
  have hadvances : rootDirectory.Advances := hiff.mp ⟨4, by decide⟩
  exact ⟨hadvances, hends hadvances⟩

/-- A block whose first entry is in use and has length 0. -/
def emptyEntry : Call where
  blockSize := 1024
  inode := { iMode := 0x41ED, iSize := 1024, iBlock := 5 }
  device a := [2].getD (a - 5120) 0
  heap _ := 0

/-- Entries of length 2 without end, in a directory of the largest size. -/
def evenEntries : Call where
  blockSize := 1024
  inode := { iMode := 0x41ED, iSize := 0xFFFFFFFF, iBlock := 5 }
  device a := if a % 2 = 0 then 2 else 0
  heap a := if a % 2 = 0 then 2 else 0

/-- What the memory holds: the number 2 at every even address. -/
theorem evenEntries_memory (a : ℕ) : evenEntries.memory a = if a % 2 = 0 then 2 else 0 := by
  have hoffset : (blockOffset evenEntries.blockSize evenEntries.inode.iBlock).toNat = 5120 := by decide
  have hparity : (5120 + a) % 2 = a % 2 := by omega
  unfold memory
  rw [hoffset]
  unfold evenEntries
  dsimp only
  rw [hparity, ite_self]

/-- At an even address there is an entry of length 2. -/
theorem evenEntries_entry {a : ℕ} (ha : a % 2 = 0) :
    Ext2.inode evenEntries.memory a ≠ 0 ∧ recLen evenEntries.memory a = 2 := by
  have heven : ∀ j, evenEntries.memory (a + 2 * j) = 2 := fun j => by
    rw [evenEntries_memory, if_pos (by omega)]
  have hodd : ∀ j, evenEntries.memory (a + 2 * j + 1) = 0 := fun j => by
    rw [evenEntries_memory, if_neg (by omega)]
  constructor
  · unfold Ext2.inode
    simp only [littleEndian]
    rw [show evenEntries.memory a = 2 from heven 0, show evenEntries.memory (a + 1) = 0 from hodd 0,
      show evenEntries.memory (a + 1 + 1) = 2 from heven 1, show evenEntries.memory (a + 1 + 1 + 1) = 0 from hodd 1]
    decide
  · unfold recLen
    simp only [littleEndian]
    rw [show evenEntries.memory (a + 4) = 2 from heven 2, show evenEntries.memory (a + 4 + 1) = 0 from hodd 2]
    decide

/-- With an even pointer and an even `size`, the loop goes on: `size` is never the largest number, which is odd. -/
theorem evenEntries_next (hentry : s.entry % 2 = 0) (hsize : s.size.toNat % 2 = 0) : evenEntries.Continues s
    ∧ (evenEntries.next s).entry % 2 = 0 ∧ (evenEntries.next s).size.toNat % 2 = 0 := by
  obtain ⟨hinode, hlen⟩ := evenEntries_entry hentry
  have hnext : (s.entry + (recLen evenEntries.memory s.entry).toNat) % 2 = 0 := by
    rw [hlen]
    show (s.entry + 2) % 2 = 0
    omega
  refine ⟨⟨UInt32.lt_iff_toNat_lt.mpr ?_, hinode⟩, hnext, ?_⟩
  · show s.size.toNat < 4294967295
    have hlt := s.size.toNat_lt
    omega
  · show (s.size + (recLen evenEntries.memory _).toUInt32).toNat % 2 = 0
    rw [(evenEntries_entry hnext).2, UInt32.toNat_add]
    show (s.size.toNat + 2) % 2 ^ 32 % 2 = 0
    omega

/-- Neither of the two ends: in one the pointer stays where it is, in the other `size` wraps around. -/
theorem not_ends : (∀ n, emptyEntry.visit n ≠ none) ∧ ∀ n, evenEntries.visit n ≠ none := by
  constructor
  · intro n
    have hstays := visit_of_empty (c := emptyEntry) (n := 0) (s := ⟨0, 0⟩) (by decide) (by decide) (by decide) n
    rw [Nat.zero_add] at hstays
    rw [hstays]
    exact Option.some_ne_none _
  · intro n
    have hstep : ∀ s : Walk, s.entry % 2 = 0 ∧ s.size.toNat % 2 = 0 →
        ∃ s', (if evenEntries.Continues s then some (evenEntries.next s) else none) = some s'
          ∧ s'.entry % 2 = 0 ∧ s'.size.toNat % 2 = 0 := by
      rintro s ⟨hentry, hsize⟩
      obtain ⟨hcont, hnext⟩ := evenEntries_next hentry hsize
      exact ⟨_, if_pos hcont, hnext⟩
    obtain ⟨s, hs, -⟩ := Iteration.exists_of_invariant visit_succ ⟨⟨0, 0⟩, by decide, rfl, rfl⟩ hstep n
    rw [hs]
    exact Option.some_ne_none _

end Cs537.Ext2.Call
