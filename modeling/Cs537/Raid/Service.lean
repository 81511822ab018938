import Mathlib.Algebra.BigOperators.Fin
import Mathlib.Tactic.FieldSimp
import Mathlib.Tactic.Ring
import Mathlib.Tactic.SplitIfs
import Cs537.Lib.Components
import Cs537.Raid.Enqueue

/-!
# What the accesses do to one disk

The disks do not see each other: `performAll` serves, on every disk, the offsets of the accesses that are addressed
to it. A fresh disk that serves offsets at equal distances seeks once, for the first of them.
-/

namespace Cs537

/-! ## One disk -/

namespace Disk

variable {d d' : Disk} {seekTime xferTime : ℚ}

/-- Serve the offsets in order. -/
def enqueueAll (d : Disk) (offs : List ℕ) : Except PyError Disk := offs.foldlM enqueue d

/-- An access keeps the geometry and counts itself. -/
theorem enqueue_eq_ok {addr : ℕ} (h : d.enqueue addr = .ok d') :
    addr < d.blocksPerDisk ∧ d'.blocksPerDisk = d.blocksPerDisk ∧ d'.countIO = d.countIO + 1 := by
  have haddr := (enqueue_isOk_iff d addr).mp ⟨d', h⟩
  unfold enqueue at h
  dsimp only at h
  rw [if_pos haddr] at h
  refine ⟨haddr, ?_, ?_⟩ <;> split_ifs at h <;> cases h <;> rfl

/-- A disk serves what lies within its capacity. -/
theorem exists_enqueueAll {offs : List ℕ} (h : ∀ o ∈ offs, o < d.blocksPerDisk) :
    ∃ d', d.enqueueAll offs = .ok d' := by
  induction offs generalizing d with
  | nil => exact ⟨d, rfl⟩
  | cons addr offs ih =>
    obtain ⟨t, ht⟩ := (enqueue_isOk_iff d addr).mpr (h addr List.mem_cons_self)
    obtain ⟨d', hd'⟩ := ih (d := t) fun o ho => by
      rw [(enqueue_eq_ok ht).2.1]
      exact h o (List.mem_cons_of_mem _ ho)
    exact ⟨d', Except.foldlM_cons_eq_ok.mpr ⟨t, ht, hd'⟩⟩

/-- A new disk after `k + 1` accesses, `δ` apart, the last of them at `addr`. -/
def streamed (seekTime xferTime : ℚ) (δ k addr : ℕ) : Disk :=
  { init seekTime xferTime with
    currAddr := addr
    countIO := k + 1
    countSeq := if δ = 1 then k else 0
    countNseq := if δ = 1 then 0 else k
    countRand := 1
    utilTime := seekTime + xferTime + k * (δ * xferTime) }

/-- A disk has 10000 blocks. -/
@[simp] theorem blocksPerDisk_init : (init seekTime xferTime).blocksPerDisk = 10000 :=
  calc (init seekTime xferTime).blocksPerDisk = 100 * 100 := rfl
    _ = 10000 := by norm_num

@[simp] theorem blocksPerDisk_streamed {δ k addr : ℕ} :
    (streamed seekTime xferTime δ k addr).blocksPerDisk = 10000 :=
  @blocksPerDisk_init seekTime xferTime

/-- The first access of a new disk seeks. -/
theorem enqueue_init {δ addr : ℕ} (h : addr < 10000) :
    (init seekTime xferTime).enqueue addr = .ok (streamed seekTime xferTime δ 0 addr) := by
  have htrack : ¬ ((-10000 : ℤ).tdiv (100 : ℕ) = (addr : ℤ).tdiv (100 : ℕ)) := by
    rw [Int.tdiv_eq_ediv_of_nonneg (by omega : (0 : ℤ) ≤ addr)]
    have hneg : (-10000 : ℤ).tdiv (100 : ℕ) = -100 := by decide
    omega
  have hdiff : ¬ ((addr : ℤ) - -10000 < (100 : ℕ)) := by omega
  have hsign : ¬ ((addr : ℤ) - -10000 < 0) := by omega
  unfold enqueue
  rw [if_pos (by rw [blocksPerDisk_init]; exact h)]
  simp only [init, hsign, if_false, htrack, hdiff, or_self]
  simp [streamed, init]

/-- An access close behind the last one does not seek. -/
theorem enqueue_streamed {δ k addr : ℕ} (hpos : 0 < δ) (hδ : δ < 100) (h : addr + δ < 10000) :
    (streamed seekTime xferTime δ k addr).enqueue (addr + δ)
      = .ok (streamed seekTime xferTime δ (k + 1) (addr + δ)) := by
  have hdiff : ((addr + δ : ℕ) : ℤ) - addr = δ := by omega
  have hsign : ¬ ((δ : ℤ) < 0) := by omega
  have hclose : (δ : ℤ) < (100 : ℕ) := by omega
  have hone : (δ : ℤ) = 1 ↔ δ = 1 := by omega
  unfold enqueue
  rw [if_pos (by rw [blocksPerDisk_streamed]; exact h)]
  simp only [streamed, init, hdiff, hsign, if_false, hclose, or_true, if_true, hone]
  by_cases h1 : δ = 1
  · simp only [h1, if_true, Except.ok.injEq, Disk.mk.injEq, true_and]
    push_cast
    ring
  · simp only [h1, if_false, Except.ok.injEq, Disk.mk.injEq, true_and]
    push_cast
    ring

/-- Serving offsets at equal distances. -/
theorem enqueueAll_streamed {δ k n addr : ℕ} (hpos : 0 < δ) (hδ : δ < 100) (h : addr + δ * n < 10000) :
    (streamed seekTime xferTime δ k addr).enqueueAll (List.range' (addr + δ) n δ)
      = .ok (streamed seekTime xferTime δ (k + n) (addr + δ * n)) := by
  induction n generalizing k addr with
  | zero => rfl
  | succ n ih =>
    rw [Nat.mul_succ] at h ⊢
    have hnext := @ih (k + 1) (addr + δ) (by omega)
    rw [List.range'_succ]
    refine Except.foldlM_cons_eq_ok.mpr ⟨_, enqueue_streamed hpos hδ (by omega), ?_⟩
    rw [show addr + (δ * n + δ) = addr + δ + δ * n by omega, show k + (n + 1) = k + 1 + n by omega]
    exact hnext

/-- **A stream on a new disk**: one seek, and then transfers only. -/
theorem enqueueAll_init {δ n addr : ℕ} (hpos : 0 < δ) (hδ : δ < 100) (h : addr + δ * n < 10000) :
    (init seekTime xferTime).enqueueAll (List.range' addr (n + 1) δ)
      = .ok (streamed seekTime xferTime δ n (addr + δ * n)) := by
  rw [List.range'_succ]
  refine Except.foldlM_cons_eq_ok.mpr ⟨_, enqueue_init (δ := δ) (by omega), ?_⟩
  have hrest := @enqueueAll_streamed seekTime xferTime δ 0 n addr hpos hδ h
  rw [Nat.zero_add] at hrest
  exact hrest

/-- A new disk after `k` accesses, `δ` apart, the first of them at `o`. -/
def served (seekTime xferTime : ℚ) (δ o : ℕ) : ℕ → Disk
  | 0 => init seekTime xferTime
  | n + 1 => streamed seekTime xferTime δ n (o + δ * n)

/-- Accesses at a constant distance, from a fresh disk. -/
theorem enqueueAll_served {δ o k : ℕ} (hpos : 0 < δ) (hδ : δ < 100)
    (h : ∀ addr ∈ List.range' o k δ, addr < 10000) :
    (init seekTime xferTime).enqueueAll (List.range' o k δ) = .ok (served seekTime xferTime δ o k) := by
  cases k with
  | zero => rfl
  | succ n => exact enqueueAll_init hpos hδ (h _ (List.mem_range'.mpr ⟨n, Nat.lt_succ_self n, rfl⟩))

/-- Every access is counted. -/
@[simp] theorem countIO_served (δ o k : ℕ) : countIO (served seekTime xferTime δ o k) = k := by
  cases k <;> rfl

/-- A disk that reads on has one random access, the first one, and pays one seek. -/
theorem served_sequential (o : ℕ) {k : ℕ} (hk : 1 ≤ k) :
    (served seekTime xferTime 1 o k).countRand = 1 ∧ (served seekTime xferTime 1 o k).countSeq = k - 1
      ∧ (served seekTime xferTime 1 o k).countNseq = 0
      ∧ (served seekTime xferTime 1 o k).utilTime = seekTime + k * xferTime := by
  obtain ⟨n, rfl⟩ : ∃ n, k = n + 1 := ⟨k - 1, by omega⟩
  refine ⟨rfl, rfl, rfl, ?_⟩
  show seekTime + xferTime + n * ((1 : ℕ) * xferTime) = seekTime + ((n + 1 : ℕ) : ℚ) * xferTime
  push_cast
  ring

end Disk

/-! ## The array -/

/-- The offsets of the accesses on disk `i`, in order. -/
def offsetsOn (i : ℕ) (ios : List Access) : List ℕ := Components.opsAt i (ios.map Access.slot)

theorem offsetsOn_append (i : ℕ) (ios ios' : List Access) :
    offsetsOn i (ios ++ ios') = offsetsOn i ios ++ offsetsOn i ios' := by
  rw [offsetsOn, List.map_append, Components.opsAt_append]
  rfl

theorem performAll_append (disks : List Disk) (ios ios' : List Access) :
    performAll disks (ios ++ ios') = (performAll disks ios).bind fun disks' => performAll disks' ios' :=
  List.foldlM_append

/-- An access is a step of one disk. -/
theorem perform_eq_stepAt (disks : List Disk) (io : Access) :
    perform disks io = Components.stepAt .indexError Disk.enqueue disks io.slot := by
  unfold perform Components.stepAt
  split <;> rename_i hdisk <;> rw [hdisk]

/-- A sequence of accesses is a sequence of such steps. -/
theorem performAll_eq_foldlM (disks : List Disk) (ios : List Access) :
    performAll disks ios
      = (ios.map Access.slot).foldlM (Components.stepAt .indexError Disk.enqueue) disks := by
  rw [List.foldlM_map, performAll, funext₂ perform_eq_stepAt]

/-- **Every disk serves its own accesses.** -/
theorem performAll_eq_ok {disks disks' : List Disk} {ios : List Access} :
    performAll disks ios = .ok disks'
      ↔ (∀ io ∈ ios, io.slot.1 < disks.length) ∧ disks'.length = disks.length
        ∧ ∀ (i : ℕ) (d : Disk), disks[i]? = some d →
          ∃ d', disks'[i]? = some d' ∧ d.enqueueAll (offsetsOn i ios) = .ok d' := by
  rw [performAll_eq_foldlM, Components.run_eq_ok, List.forall_mem_map]
  rfl

/-- Every access is counted once. -/
theorem countIO_performAll {disks disks' : List Disk} {ios : List Access}
    (h : performAll disks ios = .ok disks') :
    (disks'.map Disk.countIO).sum = (disks.map Disk.countIO).sum + ios.length := by
  induction ios generalizing disks with
  | nil =>
    cases h
    rfl
  | cons io ios ih =>
    obtain ⟨t, hfirst, hrest⟩ := Except.foldlM_cons_eq_ok.mp h
    rw [perform_eq_stepAt] at hfirst
    obtain ⟨d, d', hd, hserve, rfl⟩ := Components.stepAt_eq_ok.mp hfirst
    have hset := Components.sum_map_set Disk.countIO d' hd
    rw [(Disk.enqueue_eq_ok hserve).2.2] at hset
    rw [ih hrest, List.length_cons]
    omega

/-- The accesses within the array and its capacity are all carried out. -/
theorem exists_performAll {disks : List Disk} {ios : List Access}
    (hdisk : ∀ io ∈ ios, io.slot.1 < disks.length)
    (hcap : ∀ io ∈ ios, ∀ d ∈ disks, io.slot.2 < d.blocksPerDisk) :
    ∃ disks', performAll disks ios = .ok disks' := by
  have hserve : ∀ d ∈ disks, ∀ i, ∃ d', d.enqueueAll (offsetsOn i ios) = .ok d' := by
    refine fun d hd i => Disk.exists_enqueueAll fun o ho => ?_
    obtain ⟨io, hio, heq⟩ := List.mem_map.mp (Components.mem_opsAt.mp ho)
    have hlt := hcap io hio d hd
    rw [heq] at hlt
    exact hlt
  choose! f hf using hserve
  refine ⟨disks.mapIdx fun i d => f d i, performAll_eq_ok.mpr ⟨hdisk, List.length_mapIdx, fun i d hd => ?_⟩⟩
  refine ⟨f d i, ?_, hf d (List.mem_of_getElem? hd) i⟩
  rw [List.getElem?_mapIdx, hd]
  rfl

/-- The entries of a list made of a function. -/
theorem getElem?_map_range {α : Type*} {N i : ℕ} {f : ℕ → α} {x : α} (h : ((List.range N).map f)[i]? = some x) :
    i < N ∧ x = f i := by
  rw [List.getElem?_map] at h
  obtain ⟨j, hj, rfl⟩ := Option.map_eq_some_iff.mp h
  obtain ⟨hi, heq⟩ := List.getElem?_eq_some_iff.mp hj
  rw [List.getElem_range] at heq
  rw [List.length_range] at hi
  exact ⟨hi, by rw [heq]⟩

/-- New disks that are all accessed in streams. -/
theorem performAll_streams {N δ : ℕ} {o k : ℕ → ℕ} {ios : List Access} {seekTime xferTime : ℚ} (hpos : 0 < δ)
    (hδ : δ < 100) (hdisk : ∀ io ∈ ios, io.slot.1 < N)
    (hcap : ∀ io ∈ ios, io.slot.2 < (Disk.init seekTime xferTime).blocksPerDisk)
    (hoffs : ∀ i < N, offsetsOn i ios = List.range' (o i) (k i) δ) :
    performAll (List.replicate N (Disk.init seekTime xferTime)) ios
      = .ok ((List.range N).map fun i => Disk.served seekTime xferTime δ (o i) (k i)) := by
  rw [performAll_eq_ok, List.length_replicate, List.length_map, List.length_range]
  refine ⟨hdisk, rfl, fun i d hd => ?_⟩
  obtain ⟨hi, heq⟩ := List.getElem?_eq_some_iff.mp hd
  rw [List.getElem_replicate] at heq
  rw [List.length_replicate] at hi
  subst heq
  refine ⟨Disk.served seekTime xferTime δ (o i) (k i), ?_, ?_⟩
  · rw [List.getElem?_map, List.getElem?_range hi]
    rfl
  · rw [hoffs i hi]
    refine Disk.enqueueAll_served hpos hδ fun addr haddr => ?_
    rw [← hoffs i hi] at haddr
    obtain ⟨io, hio, heq⟩ := List.mem_map.mp (Components.mem_opsAt.mp haddr)
    have hlt := hcap io hio
    rw [heq, Disk.blocksPerDisk_init] at hlt
    exact hlt

/-- The offsets that a run of data accesses touches on disk `i`. -/
theorem offsetsOn_data (i : ℕ) (op : Op) (slot : ℕ → Slot) (vs : List ℕ) :
    offsetsOn i (vs.map fun v => Access.data op v (slot v))
      = (vs.filter fun v => (slot v).1 = i).map fun v => (slot v).2 := by
  rw [offsetsOn, Components.opsAt, List.map_map, List.filter_map, List.map_map]
  rfl

end Cs537
