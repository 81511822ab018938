import Mathlib.Algebra.Order.BigOperators.Group.List
import Mathlib.Algebra.Order.Ring.Nat
import Mathlib.Data.List.TakeWhile
import Cs537.Lib.Bytes
import Cs537.Ext2.Addressing
import Cs537.Ext2.Bounds

/-!
# Listing an image

The bytes of a directory are its entries, one behind the other. On a device that holds a file system with blocks of
1024 bytes, `main` finds the root directory and prints the entries that were encoded. The listing ends with them
exactly if one of them is unused or the memory behind the block looks like the end of a list.
-/

namespace Cs537.Ext2

open Bytes (Holds)

/-! ## Encoding -/

/-- A directory entry. -/
structure DirEntry where
  inode : UInt32
  fileType : UInt8
  name : List UInt8
  /-- The bytes between the name and the next entry. -/
  slack : List UInt8
  name_length : name.length < 256

namespace DirEntry

variable (e : DirEntry)

def recLen : ℕ := 8 + e.name.length + e.slack.length

/-- `struct ext2_dir_entry_2`, up to the next entry. -/
def encode : List UInt8 :=
  Bytes.ofNat e.inode.toNat 4
    ++ (Bytes.ofNat e.recLen 2 ++ (UInt8.ofNat e.name.length :: e.fileType :: (e.name ++ e.slack)))

/-- An encoded entry takes the bytes that its record length says. -/
@[simp] theorem length_encode : e.encode.length = e.recLen := by
  simp only [encode, recLen, List.length_append, Bytes.length_ofNat, List.length_cons]
  omega

/-- What `read_dir` prints for the entry. -/
def line : Line where
  inode := e.inode
  fileName := e.name.takeWhile fun b => b ≠ 0

end DirEntry

/-- What is read back from the bytes of a number. -/
theorem littleEndian_of_holds {m : Memory} {a v n : ℕ} (h : Holds m a (Bytes.ofNat v n)) :
    littleEndian m a n = v % 256 ^ n := by
  induction n generalizing a v with
  | zero => simp [littleEndian, Nat.mod_one]
  | succ n ih =>
    obtain ⟨hbyte, hrest⟩ := Bytes.holds_cons.mp h
    have hlow : (m a).toNat = v % 256 := by
      rw [hbyte, UInt8.toNat_ofNat', Nat.mod_mod_of_dvd _ (by decide)]
    rw [littleEndian, hlow, ih hrest, pow_succ']
    exact Nat.mod_mul.symm

section

variable {m : Memory} {a : ℕ} {e : DirEntry} (h : Holds m a e.encode)

include h

/-- **Decoding an entry** gives back what was encoded. -/
theorem inode_of_holds : inode m a = e.inode := by
  have hinode := littleEndian_of_holds (Bytes.holds_append.mp h).1
  rw [inode, hinode, Nat.mod_eq_of_lt (show e.inode.toNat < 256 ^ 4 from e.inode.toNat_lt), UInt32.ofNat_toNat]

/-- The record length that is read from an encoded entry. -/
theorem recLen_of_holds (hlen : e.recLen < 65536) : (recLen m a).toNat = e.recLen := by
  obtain ⟨-, htail⟩ := Bytes.holds_append.mp h
  have hlength := littleEndian_of_holds (Bytes.holds_append.mp htail).1
  rw [Bytes.length_ofNat] at hlength
  rw [recLen, hlength, UInt16.toNat_ofNat']
  omega

theorem nameLen_of_holds : (nameLen m a).toNat = e.name.length := by
  obtain ⟨-, htail⟩ := Bytes.holds_append.mp h
  obtain ⟨hlength, -⟩ := Bytes.holds_cons.mp (Bytes.holds_append.mp htail).2
  simp only [Bytes.length_ofNat] at hlength
  rw [nameLen, hlength, UInt8.toNat_ofNat', Nat.mod_eq_of_lt e.name_length]

/-- The line that is printed for an encoded entry. -/
theorem line_of_holds : line m a = e.line := by
  obtain ⟨-, htail⟩ := Bytes.holds_append.mp h
  obtain ⟨-, -, hname⟩ := (Bytes.holds_append.mp htail).2
  simp only [Bytes.length_ofNat, Nat.add_assoc] at hname
  have hbytes : name m a = e.name := by
    rw [name, nameLen_of_holds h]
    exact (Bytes.holds_append.mp hname).1.map_range
  have hinode : (line m a).inode = e.inode := inode_of_holds h
  have hfile : (line m a).fileName = e.name.takeWhile fun b => b ≠ 0 := by rw [Call.line_fileName, hbytes]
  calc line m a = ⟨(line m a).inode, (line m a).fileName⟩ := rfl
    _ = e.line := by rw [hinode, hfile, DirEntry.line]

end

/-! ## The directory -/

/-- A directory whose entries fill one block of 1024 bytes. -/
structure Directory where
  entries : List DirEntry
  total : (entries.map DirEntry.recLen).sum = 1024

namespace Directory

variable (d : Directory)

/-- The bytes of the block. -/
def block : List UInt8 := d.entries.flatMap DirEntry.encode

/-- The entries before the first one that is not used. -/
def live : List DirEntry := d.entries.takeWhile fun e => e.inode ≠ 0

def listing : List Line := d.live.map DirEntry.line

variable {d}

/-- No entry is longer than the block. -/
theorem recLen_le {e : DirEntry} (he : e ∈ d.entries) : e.recLen ≤ 1024 := by
  rw [← d.total]
  exact List.single_le_sum (fun _ _ => Nat.zero_le _) _ (List.mem_map_of_mem he)

theorem length_block : d.block.length = 1024 := by
  rw [block, List.length_flatMap, ← d.total]
  simp only [DirEntry.length_encode]

/-- The entries before the first unused one are some of the entries. -/
theorem length_live_le : d.live.length ≤ d.entries.length := (List.takeWhile_prefix _).length_le

/-- An entry before the first unused one is an entry in use. -/
theorem getElem?_live {k : ℕ} {e : DirEntry} (he : d.live[k]? = some e) : d.entries[k]? = some e ∧ e.inode ≠ 0 := by
  refine ⟨?_, by simpa using List.mem_takeWhile_imp (List.mem_of_getElem? he)⟩
  obtain ⟨rest, hrest⟩ := List.takeWhile_prefix (p := fun e : DirEntry => decide (e.inode ≠ 0)) (l := d.entries)
  rw [← hrest]
  exact (List.getElem?_append_left (List.getElem?_eq_some_iff.mp he).1).trans he

end Directory

namespace Call

variable {c : Call} {d : Directory} {k : ℕ} {e : DirEntry}

section

variable (hblock : Holds c.memory 0 d.block)

include hblock

/-- From the `k`-th offset on, the memory holds the entries from the `k`-th one on. -/
theorem holds_drop (k : ℕ) : Holds c.memory (c.offset k) ((d.entries.drop k).flatMap DirEntry.encode) := by
  induction k with
  | zero => exact hblock
  | succ k ih =>
    cases hdrop : d.entries.drop k with
    | nil => simp [← List.drop_drop, hdrop]
    | cons e rest =>
      rw [hdrop, List.flatMap_cons, Bytes.holds_append, DirEntry.length_encode] at ih
      have hmem : e ∈ d.entries := List.mem_of_mem_drop (by rw [hdrop]; exact List.mem_cons_self)
      have hlen := recLen_of_holds ih.1 (lt_of_le_of_lt (Directory.recLen_le hmem) (by decide))
      rw [← List.drop_drop, hdrop, offset_succ, hlen]
      exact ih.2

/-- The `k`-th entry is at the `k`-th offset. -/
theorem holds_entry (he : d.entries[k]? = some e) : Holds c.memory (c.offset k) e.encode := by
  have hdrop := holds_drop hblock k
  obtain ⟨hk, rfl⟩ := List.getElem?_eq_some_iff.mp he
  rw [List.drop_eq_getElem_cons hk, List.flatMap_cons] at hdrop
  exact (Bytes.holds_append.mp hdrop).1

/-- The record length at the `k`-th offset is that of the `k`-th entry. -/
theorem recLen_entry (he : d.entries[k]? = some e) : (recLen c.memory (c.offset k)).toNat = e.recLen :=
  recLen_of_holds (holds_entry hblock he)
    (lt_of_le_of_lt (Directory.recLen_le (List.mem_of_getElem? he)) (by decide))

/-- What is in front of the `k`-th offset and what is behind it make up the block. -/
theorem offset_add_sum (hk : k ≤ d.entries.length) :
    c.offset k + ((d.entries.drop k).map DirEntry.recLen).sum = 1024 := by
  induction k with
  | zero => exact (Nat.zero_add _).trans d.total
  | succ k ih =>
    have hlast := ih (by omega)
    rw [List.drop_eq_getElem_cons hk, List.map_cons, List.sum_cons] at hlast
    rw [offset_succ, recLen_entry hblock (List.getElem?_eq_getElem hk)]
    omega

/-- The block of a directory consists of records. -/
theorem records_of_block (hsize : c.inode.iSize = 1024) : c.Records d.entries.length where
  fits j hj := by
    have he := List.getElem?_eq_getElem hj
    rw [recLen_entry hblock he, nameLen_of_holds (holds_entry hblock he), DirEntry.recLen]
    omega
  total := by
    have hend := offset_add_sum hblock le_rfl
    rw [List.drop_length, List.map_nil, List.sum_nil, offset, Strides.offset_eq_sum] at hend
    rw [hsize]
    simpa [offset] using hend

variable (hdir : sIsdir c.inode.iMode) (hsize : c.inode.iSize = 1024)

include hdir hsize

/-- The walk goes through the entries before the first unused one. -/
theorem visit_live (hk : k ≤ d.live.length) : c.visit k = some (c.walkAt k) := by
  refine (records_of_block hblock hsize).visit_of_live hdir (hk.trans Directory.length_live_le) fun j hj => ?_
  obtain ⟨he, hne⟩ := Directory.getElem?_live (List.getElem?_eq_getElem (lt_of_lt_of_le hj hk))
  rwa [inode_of_holds (holds_entry hblock he)]

/-- **The loop prints the listing.** -/
theorem printed_live (hk : k ≤ d.live.length) : c.printed k = (d.live.take k).map DirEntry.line := by
  induction k with
  | zero => rfl
  | succ k ih =>
    have hlive := List.getElem?_eq_getElem (Nat.lt_of_succ_le hk)
    obtain ⟨he, hne⟩ := Directory.getElem?_live hlive
    have hentry := holds_entry hblock he
    have hcont : c.Continues (c.walkAt k) := by
      refine ((records_of_block hblock hsize).continues_iff (List.getElem?_eq_some_iff.mp he).1).mpr ?_
      rwa [inode_of_holds hentry]
    have hline : line c.memory (c.walkAt k).entry = d.live[k].line := line_of_holds hentry
    rw [printed_succ, ih (by omega), visit_live hblock hdir hsize (by omega), Option.bind_some, if_pos hcont, hline,
      List.take_add_one, hlive, List.map_append]
    rfl

end

/-- Nothing more is printed once the loop has stopped. -/
theorem printed_of_stop (hdir : sIsdir c.inode.iMode) (hstop : ¬ c.Continues (c.walkAt k)) {m : ℕ} (hm : k ≤ m) :
    c.printed m = c.printed k := by
  induction m, hm using Nat.le_induction with
  | base => rfl
  | succ m hm ih =>
    have hnone : ((c.visit m).bind fun s => if c.Continues s then some (line c.memory s.entry) else none) = none := by
      rw [Option.bind_eq_none_iff]
      intro s hs
      obtain ⟨hall, rfl⟩ := (visit_eq_some_iff hdir).mp hs
      rcases hm.lt_or_eq with hlt | rfl
      · exact absurd (hall k hlt) hstop
      · exact if_neg hstop
    rw [printed_succ, ih, hnone, Option.toList_none, List.append_nil]

/-- Behind a block that is full of used entries, the loop looks at the memory there. -/
theorem continues_full_iff (hblock : Holds c.memory 0 d.block) (hsize : c.inode.iSize = 1024)
    (hfirst : d.entries.head? = some e) : c.Continues (c.walkAt d.entries.length)
      ↔ (recLen c.memory 1024).toNat < e.recLen ∧ Ext2.inode c.memory 1024 ≠ 0 := by
  rw [(records_of_block hblock hsize).continues_end_iff, hsize]
  refine and_congr_left' ?_
  have hlen : (recLen c.memory 0).toNat = e.recLen :=
    recLen_entry (k := 0) hblock (by rw [← List.head?_eq_getElem?, hfirst])
  have hle : e.recLen ≤ 1024 := Directory.recLen_le (List.mem_of_head? hfirst)
  have hbehind := (recLen c.memory 1024).toNat_lt
  have hadd : (1024 + (recLen c.memory 1024).toUInt32 : UInt32).toNat = 1024 + (recLen c.memory 1024).toNat := by
    rw [UInt32.toNat_add, UInt16.toNat_toUInt32]
    exact Nat.mod_eq_of_lt (by change 1024 + _ < _; omega)
  change 1024 + (recLen c.memory 1024).toUInt32 - (recLen c.memory 0).toUInt32 < 1024 ↔ _
  rw [UInt32.lt_iff_toNat_lt, UInt32.toNat_sub_of_le _ _ (by
    rw [UInt32.le_iff_toNat_le, hadd, UInt16.toNat_toUInt32, hlen]; omega), hadd, UInt16.toNat_toUInt32, hlen]
  change 1024 + _ - _ < 1024 ↔ _
  omega

/-- When the loop stops behind the listing. -/
theorem stops_iff (hblock : Holds c.memory 0 d.block) (hsize : c.inode.iSize = 1024) :
    ¬ c.Continues (c.walkAt d.live.length) ↔ (∃ e ∈ d.entries, e.inode = 0) ∨ Ext2.inode c.memory 1024 = 0
      ∨ ∃ e, d.entries.head? = some e ∧ e.recLen ≤ (recLen c.memory 1024).toNat := by
  have hsplit : d.live ++ d.entries.dropWhile (fun e => e.inode ≠ 0) = d.entries := List.takeWhile_append_dropWhile
  cases hrest : d.entries.dropWhile (fun e => e.inode ≠ 0) with
  | nil =>
    -- all entries are in use, and what is behind the block decides
    have hlive : d.live = d.entries := by rw [hrest, List.append_nil] at hsplit; exact hsplit
    have hused : ¬ ∃ e ∈ d.entries, e.inode = 0 := by
      rintro ⟨e, he, hzero⟩
      rw [← hlive] at he
      exact absurd hzero (by simpa using List.mem_takeWhile_imp he)
    cases hentries : d.entries with
    | nil =>
      have htotal := d.total
      rw [hentries] at htotal
      cases htotal
    | cons e rest =>
      have hfirst : d.entries.head? = some e := by rw [hentries]; rfl
      rw [hlive, continues_full_iff hblock hsize hfirst, ← hentries]
      simp only [hused, hfirst, false_or, Option.some.injEq, exists_eq_left']
      rw [not_and_or, not_lt, not_not, or_comm]
  | cons e rest =>
    -- the walk stops at the first unused entry
    have hzero : e.inode = 0 := by
      have hnot := List.head?_dropWhile_not (fun e : DirEntry => decide (e.inode ≠ 0)) d.entries
      rw [hrest] at hnot
      simpa using hnot
    have he : d.entries[d.live.length]? = some e := by
      rw [← hsplit, hrest]
      simp
    have hmem : ∃ e ∈ d.entries, e.inode = 0 := ⟨e, List.mem_of_getElem? he, hzero⟩
    refine iff_of_true (fun hcont => ?_) (.inl hmem)
    have hne := hcont.2
    exact hne ((inode_of_holds (holds_entry hblock he)).trans hzero)

end Call

/-! ## The image -/

/-- A file system with blocks of 1024 bytes, as far as `main` reads it. -/
structure Image where
  directory : Directory
  /-- The mode of the root directory. -/
  iMode : UInt16
  /-- The block of the inode table. -/
  bgInodeTable : UInt32
  /-- The block of the root directory. -/
  iBlock : UInt32
  isDirectory : sIsdir iMode
  table_pos : 1 ≤ bgInodeTable
  table_lt : bgInodeTable.toNat < 2 ^ 22
  block_pos : 1 ≤ iBlock
  block_lt : iBlock.toNat < 2 ^ 22

namespace Image

variable (image : Image)

/-- The inode of the root directory, which is the second one. -/
def inodePosition : ℕ := image.bgInodeTable.toNat * 1024 + 128

/-- The device holds the file system. -/
structure OnDevice (device : ℕ → UInt8) : Prop where
  logBlockSize : Holds device (1024 + 24) (Bytes.ofNat 0 4)
  magic : Holds device (1024 + 56) (Bytes.ofNat 0xEF53 2)
  table : Holds device (2048 + 8) (Bytes.ofNat image.bgInodeTable.toNat 4)
  mode : Holds device image.inodePosition (Bytes.ofNat image.iMode.toNat 2)
  size : Holds device (image.inodePosition + 4) (Bytes.ofNat 1024 4)
  block : Holds device (image.inodePosition + 40) (Bytes.ofNat image.iBlock.toNat 4)
  entries : Holds device (image.iBlock.toNat * 1024) image.directory.block

end Image

theorem uInt32_of_holds {m : Memory} {a : ℕ} {v : UInt32} (h : Holds m a (Bytes.ofNat v.toNat 4)) :
    UInt32.ofNat (littleEndian m a 4) = v := by
  rw [littleEndian_of_holds h, Nat.mod_eq_of_lt (show v.toNat < 256 ^ 4 from v.toNat_lt), UInt32.ofNat_toNat]

theorem uInt16_of_holds {m : Memory} {a : ℕ} {v : UInt16} (h : Holds m a (Bytes.ofNat v.toNat 2)) :
    UInt16.ofNat (littleEndian m a 2) = v := by
  rw [littleEndian_of_holds h, Nat.mod_eq_of_lt (show v.toNat < 256 ^ 2 from v.toNat_lt), UInt16.ofNat_toNat]

/-- `main` finds the root directory of the image. -/
theorem Image.OnDevice.main_eq {image : Image} {device : ℕ → UInt8} (h : image.OnDevice device) (heap : Memory) :
    main device heap = some
      { blockSize := 1024
        inode := { iMode := image.iMode, iSize := 1024, iBlock := image.iBlock }
        device := device
        heap := heap } := by
  have hmagic : (superBlock device 1024).sMagic = 0xEF53 := uInt16_of_holds h.magic
  have hlog : (superBlock device 1024).sLogBlockSize = 0 := uInt32_of_holds h.logBlockSize
  have hsize : (superBlock device 1024).blockSize = 1024 := by rw [SuperBlock.blockSize, hlog]; rfl
  have htable : groupDesc device 2048 = ⟨image.bgInodeTable⟩ := congrArg GroupDesc.mk (uInt32_of_holds h.table)
  have hposition : inodeOffset 1024 2 ⟨image.bgInodeTable⟩ = image.inodePosition := by
    have hoffset := (blockOffset_eq_iff image.table_pos).mpr ⟨rfl, image.table_lt⟩
    rw [inodeOffset, hoffset]
    rfl
  have hinode : inodeAt device image.inodePosition = ⟨image.iMode, 1024, image.iBlock⟩ := by
    rw [inodeAt, uInt16_of_holds h.mode, uInt32_of_holds h.block]
    exact congrArg₂ (Inode.mk image.iMode) (uInt32_of_holds h.size) rfl
  change (if (superBlock device 1024).sMagic ≠ 0xEF53 then none else _) = _
  rw [hmagic, if_neg (not_not.mpr rfl), SuperBlock.groupOffset, show baseOffset.toNat = 1024 from rfl, hsize]
  change some (Call.mk 1024 (inodeAt device (inodeOffset 1024 2 (groupDesc device 2048))) device heap) = _
  rw [htable, hposition, hinode]

/-- **Listing an image.** `main` prints the entries that the image was made of, up to the first unused one, in order.
It prints nothing else exactly if there is an unused entry, or the memory behind the block has a zero where the next
inode would be or a length there that is not below the one of the first entry. -/
theorem lists_image {image : Image} {device : ℕ → UInt8} (h : image.OnDevice device) (heap : Memory) :
    ∃ c, main device heap = some c
      ∧ c.printed image.directory.listing.length = image.directory.listing
      ∧ (∀ m ≥ image.directory.listing.length, image.directory.listing <+: c.printed m)
      ∧ ((∀ m ≥ image.directory.listing.length, c.printed m = image.directory.listing)
        ↔ (∃ e ∈ image.directory.entries, e.inode = 0) ∨ inode heap 1024 = 0
          ∨ ∃ e, image.directory.entries.head? = some e ∧ e.recLen ≤ (recLen heap 1024).toNat) := by
  refine ⟨_, h.main_eq heap, ?_⟩
  set c : Call := ⟨1024, ⟨image.iMode, 1024, image.iBlock⟩, device, heap⟩ with hc
  set d := image.directory
  have hoffset : (blockOffset 1024 image.iBlock).toNat = image.iBlock.toNat * 1024 :=
    (blockOffset_eq_iff image.block_pos).mpr ⟨rfl, image.block_lt⟩
  have hblock : Holds c.memory 0 d.block := by
    refine h.entries.congr fun i hi => ?_
    rw [Directory.length_block] at hi
    rw [Nat.zero_add, ← hoffset]
    exact if_pos hi
  have hbehind : ∀ a, 1024 ≤ a → c.memory a = heap a := fun a ha => if_neg (not_lt.mpr ha)
  have hinode : Ext2.inode c.memory 1024 = inode heap 1024 := by
    simp [Ext2.inode, littleEndian, hbehind]
  have hlen : recLen c.memory 1024 = recLen heap 1024 := by
    simp [recLen, littleEndian, hbehind]
  have hlength : d.listing.length = d.live.length := List.length_map _
  have hlisting : c.printed d.listing.length = d.listing := by
    rw [hlength, Call.printed_live hblock image.isDirectory rfl le_rfl, List.take_length, Directory.listing]
  refine ⟨hlisting, fun m hm => hlisting ▸ Call.printed_prefix hm, ?_⟩
  rw [← hinode, ← hlen, ← Call.stops_iff hblock rfl]
  constructor
  · intro hall hcont
    -- one more line would be printed
    have hmore := hall (d.listing.length + 1) (Nat.le_succ _)
    rw [Call.printed_succ, hlisting, hlength, Call.visit_live hblock image.isDirectory rfl le_rfl, Option.bind_some,
      if_pos hcont, Option.toList_some] at hmore
    exact absurd (congrArg List.length hmore) (by simp)
  · intro hstop m hm
    rw [Call.printed_of_stop image.isDirectory (hlength ▸ hstop) hm, hlisting]

/-- The root directory of a new file system: `.`, `..` and `lost+found`. -/
def newFileSystem : Image where
  directory :=
    { entries := [⟨2, 2, [46], List.replicate 3 0, by decide⟩, ⟨2, 2, [46, 46], List.replicate 2 0, by decide⟩,
        ⟨11, 2, [108, 111, 115, 116, 43, 102, 111, 117, 110, 100], List.replicate 982 0, by decide⟩]
      total := by
        simp only [List.map_cons, List.map_nil, DirEntry.recLen, List.length_replicate, List.length_cons,
          List.length_nil, List.sum_cons, List.sum_nil]
        rfl }
  iMode := 0x41ED
  bgInodeTable := 5
  iBlock := 6
  isDirectory := by decide
  table_pos := by decide
  table_lt := by decide
  block_pos := by decide
  block_lt := by decide

/-- A floppy disk with it. -/
def newFloppy (a : ℕ) : UInt8 :=
  if 6144 ≤ a then newFileSystem.directory.block.getD (a - 6144) 0
  else if a = 1080 then 0x53
  else if a = 1081 then 0xEF
  else if a = 2056 then 5
  else if a = 5248 then 0xED
  else if a = 5249 then 0x41
  else if a = 5253 then 4
  else if a = 5288 then 6
  else 0

/-- The device that is written for the new file system. -/
theorem newFloppy_onDevice : newFileSystem.OnDevice newFloppy where
  logBlockSize := by decide
  magic := by decide
  table := by decide
  mode := by decide
  size := by decide
  block := by decide
  entries := Bytes.holds_of_forall fun i b hb => by
    have hposition : newFileSystem.iBlock.toNat * 1024 = 6144 := rfl
    rw [hposition, newFloppy, if_pos (Nat.le_add_right _ _), Nat.add_sub_cancel_left, List.getD_eq_getElem?_getD, hb]
    rfl

/-- The directory of the new file system is listed. -/
theorem lists_image_newFloppy : ∃ c, main newFloppy (fun _ => 0) = some c ∧ ∀ m ≥ 3, c.printed m
    = [⟨2, [46]⟩, ⟨2, [46, 46]⟩, ⟨11, [108, 111, 115, 116, 43, 102, 111, 117, 110, 100]⟩] := by
  obtain ⟨c, hmain, -, -, hall⟩ := lists_image newFloppy_onDevice fun _ => 0
  exact ⟨c, hmain, hall.mpr (.inr (.inl (by decide)))⟩

end Cs537.Ext2
