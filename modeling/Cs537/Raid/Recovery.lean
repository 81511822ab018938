import Mathlib.Algebra.Order.BigOperators.Group.Finset
import Mathlib.Data.ZMod.Basic
import Cs537.Raid.Refinement
import Cs537.Raid.Completion

/-!
# Which disks an array can lose

The requests of a run leave blocks behind, and a level tolerates the loss of a set of disks if the other disks
still determine them. RAID 0 tolerates no loss, RAID 1 the loss of any disks that are not both disks of a pair, and
RAID 4 and RAID 5 the loss of one disk, whose rows are the sums of the others (`eq_sum_erase`). For a larger set there
are two runs that the other disks cannot tell apart.
-/

namespace Cs537

/-- A copy of a block holds the last value written to it. -/
theorem Run.contents_eq {V : Type} {r : Raid} {st st' : ArrayState V} {qs : List (Request × (ℕ → V))}
    (h : Run r st qs st') (hsize : ∀ q ∈ qs, 1 ≤ q.1.size) {b : ℕ} {x : Slot} (hx : x ∈ r.slotsOf b) :
    st'.contents x = (lastWrite b qs).getD (st.contents x) := by
  induction h with
  | nil => rfl
  | @snoc st' qs q new ios disks res a hrun hios hdisks hexec ih =>
    have hp := Raid.placed_enqueue (hsize (q, new) (by simp)) hios
    have hstep : a x = if q.isWrite ∧ b ∈ q.blocks then new b else st'.contents x := hp.contents_eq hexec hx
    rw [ih fun q' hq' => hsize q' (List.mem_append_left _ hq')] at hstep
    change a x = _
    rw [lastWrite_snoc, hstep]
    split <;> rfl

namespace Raid

variable {V : Type} [AddCommGroup V] (r : Raid)

/-- One logical request. RAID 0 and RAID 1 write what they are given, RAID 4 and RAID 5 the parity as well. -/
def serveRequest (st : ArrayState V) (q : Request × (ℕ → V)) : Except PyError (ArrayState V) :=
  match r.raidLevel with
  | .zero | .one => do
    let ios ← r.enqueue q.1
    let disks ← performAll st.disks ios
    return ⟨disks, (Controller.run q.2 (Controller.start st.contents) ios).contents⟩
  | .four | .five => r.runRequest st q

/-- A sequence of logical requests. -/
def serveRequests (st : ArrayState V) (qs : List (Request × (ℕ → V))) : Except PyError (ArrayState V) :=
  qs.foldlM r.serveRequest st

/-- The array that `main` makes, with nothing but zeros. -/
def blank : ArrayState V := ⟨List.replicate r.numDisks Disk.fresh, fun _ => 0⟩

variable (V) in
/-- The disks that are not `failed` determine every block, whatever was written. -/
def Tolerates (failed : Finset ℕ) : Prop :=
  ∀ (qs qs' : List (Request × (ℕ → V))) (st st' : ArrayState V),
    (∀ q ∈ qs, 1 ≤ q.1.size) → (∀ q ∈ qs', 1 ≤ q.1.size) →
    r.serveRequests r.blank qs = .ok st → r.serveRequests r.blank qs' = .ok st' →
    (∀ d < r.numDisks, d ∉ failed → ∀ o, st.contents (d, o) = st'.contents (d, o)) →
    ∀ b, (lastWrite b qs).getD 0 = (lastWrite b qs').getD 0

/-- The sets of disks that a level can lose. -/
def Survivable (failed : Finset ℕ) : Prop :=
  match r.raidLevel with
  | .zero => failed = ∅
  | .one => ∀ k, ¬ (2 * k ∈ failed ∧ 2 * k + 1 ∈ failed)
  | .four | .five => failed.card ≤ 1

variable {r}

/-- With parity, requests are served as in the proof of the parity. -/
theorem serveRequests_eq_runRequests (h : r.HasParity) (st : ArrayState V) (qs : List (Request × (ℕ → V))) :
    r.serveRequests st qs = r.runRequests st qs := by
  have hstep : r.serveRequest (V := V) = r.runRequest := by
    funext st q
    rcases h with h | h <;> simp only [serveRequest, h]
  rw [serveRequests, runRequests, hstep]

/-! ## What a run leaves on the disks -/

/-- Whatever is served is a run. -/
theorem run_serveRequests {st st' : ArrayState V} {qs : List (Request × (ℕ → V))}
    (hrun : r.serveRequests st qs = .ok st') : Run r st qs st' := by
  by_cases h : r.HasParity
  · exact run_runRequests h (serveRequests_eq_runRequests h st qs ▸ hrun)
  · induction qs using List.reverseRecOn generalizing st' with
    | nil =>
      cases hrun
      exact Run.nil st
    | append_singleton qs q ih =>
      obtain ⟨t, hinit, hlast⟩ := Except.foldlM_append_eq_ok.mp hrun
      obtain ⟨t', hstep, ht'⟩ := Except.foldlM_cons_eq_ok.mp hlast
      cases ht'
      obtain ⟨q, new⟩ := q
      have hstep : ((r.enqueue q).bind fun ios => (performAll t.disks ios).bind fun disks =>
          .ok ⟨disks, (Controller.run new (Controller.start t.contents) ios).contents⟩) = .ok st' := by
        simp only [HasParity, not_or] at h
        simp only [serveRequest] at hstep
        split at hstep <;> first | exact hstep | simp_all
      obtain ⟨ios, hios, hrest⟩ := Except.bind_eq_ok.mp hstep
      obtain ⟨disks, hdisks, hst⟩ := Except.bind_eq_ok.mp hrest
      cases hst
      obtain ⟨res, hexec⟩ := Controller.exec_run new ios (Controller.start t.contents)
      exact Run.snoc (ih hinit) hios hdisks hexec

section

variable {st : ArrayState V} {qs : List (Request × (ℕ → V))} (hsize : ∀ q ∈ qs, 1 ≤ q.1.size)
  (hrun : r.serveRequests r.blank qs = .ok st)

include hsize hrun

/-- Every copy of a block holds what was last written to it. -/
theorem contents_eq_lastWrite {b : ℕ} {x : Slot} (hx : x ∈ r.slotsOf b) :
    st.contents x = (lastWrite b qs).getD 0 :=
  (run_serveRequests hrun).contents_eq hsize hx

variable [Module (ZMod 2) V] (h : r.HasParity)

include h

/-- Every row of an array of zeros keeps its parity. -/
theorem rowZero_serveRequests (o : ℕ) : r.RowZero st.contents o := by
  rw [serveRequests_eq_runRequests h] at hrun
  exact rowZero_runRequests h hsize hrun Finset.sum_const_zero

/-- Every block of RAID 4 and RAID 5 is the sum of the others in its row. -/
theorem eq_sum_erase {d : ℕ} (hd : d < r.numDisks) (o : ℕ) :
    st.contents (d, o) = ∑ e ∈ (Finset.range r.numDisks).erase d, st.contents (e, o) := by
  have hzero := rowZero_serveRequests hsize hrun h o
  rw [RowZero, ← Finset.add_sum_erase _ _ (Finset.mem_range.mpr hd)] at hzero
  rw [eq_neg_of_add_eq_zero_left hzero, ZModModule.neg_eq_self]

/-- The parity of a row is the sum of its data. -/
theorem paritySlot_eq_sum (o : ℕ) : let L := r.parityLayout h
    st.contents (L.paritySlot o) = ∑ b ∈ Finset.Ico (o / L.chunk * L.blocksInStripe)
      (o / L.chunk * L.blocksInStripe + L.blocksInStripe), if L.row b = o then (lastWrite b qs).getD 0 else 0 := by
  intro L
  have hzero := rowZero_serveRequests hsize hrun h o
  rw [RowZero, ← parityLayout_disks h, L.sum_row_slots] at hzero
  rw [eq_neg_of_add_eq_zero_left hzero, ZModModule.neg_eq_self]
  refine Finset.sum_congr rfl fun b _ => if_congr Iff.rfl ?_ rfl
  exact contents_eq_lastWrite hsize hrun (by rw [slotsOf_parity h]; exact List.mem_singleton_self _)

end

/-! ## A loss that is tolerated -/

/-- **What can be survived is survived.** -/
theorem Survivable.tolerates [Module (ZMod 2) V] {failed : Finset ℕ} (h : r.Survivable failed) :
    r.Tolerates V failed := by
  intro qs qs' st st' hsize hsize' hrun hrun' hagree b
  -- a copy of the block that both arrays hold
  suffices hx : ∃ x ∈ r.slotsOf b, st.contents x = st'.contents x by
    obtain ⟨x, hx, heq⟩ := hx
    rw [← contents_eq_lastWrite hsize hrun hx, ← contents_eq_lastWrite hsize' hrun' hx, heq]
  cases hlevel : r.raidLevel with
  | zero =>
    simp only [Survivable, hlevel] at h
    refine ⟨r.bmap0 b, by simp [slotsOf_zero hlevel], hagree _ ?_ (by simp [h]) _⟩
    exact r.layout0.slot_disk_lt b
  | one =>
    simp only [Survivable, hlevel] at h
    have hpairs := r.pairs_pos hlevel
    have hlt : ((r.layout1 hpairs).slot b).1 < r.numDisks / 2 := (r.layout1 hpairs).slot_disk_lt b
    have hcopy : ∀ d, d / 2 = ((r.layout1 hpairs).slot b).1 → d ∉ failed →
        ∃ x ∈ r.slotsOf b, st.contents x = st'.contents x := fun d hd hnot =>
      ⟨(d, ((r.layout1 hpairs).slot b).2), (mem_slotsOf_one hlevel).mpr (Prod.ext hd.symm rfl),
        hagree d (by omega) hnot _⟩
    by_cases hfirst : 2 * ((r.layout1 hpairs).slot b).1 ∈ failed
    · exact hcopy _ (by omega) fun hsecond => h _ ⟨hfirst, hsecond⟩
    · exact hcopy _ (by omega) hfirst
  | four | five =>
    have hr : r.HasParity := by simp [HasParity, hlevel]
    simp only [Survivable, hlevel] at h
    have hlt : ((r.parityLayout hr).slot b).1 < r.numDisks :=
      parityLayout_disks hr ▸ (r.parityLayout hr).slot_disk_lt b
    refine ⟨_, (slotsOf_parity hr b).symm ▸ List.mem_singleton_self _, ?_⟩
    generalize (r.parityLayout hr).slot b = x at hlt ⊢
    obtain ⟨d, o⟩ := x
    by_cases hd : d ∈ failed
    · rw [eq_sum_erase hsize hrun hr hlt, eq_sum_erase hsize' hrun' hr hlt]
      refine Finset.sum_congr rfl fun e he => ?_
      obtain ⟨hne, he⟩ := Finset.mem_erase.mp he
      exact hagree e (Finset.mem_range.mp he) (fun hfail => hne (Finset.card_le_one.mp h e hfail d hd)) o
    · exact hagree d hlt hd o

/-! ## Two runs that the other disks cannot tell apart -/

/-- Writes of one block each, all of them of the value `v`. -/
def writesOf (v : V) (bs : List ℕ) : List (Request × (ℕ → V)) := bs.map fun b => (⟨b, 1, true⟩, fun _ => v)

/-- Where a list of blocks has been written. -/
theorem lastWrite_writesOf (v : V) (bs : List ℕ) (b : ℕ) :
    (lastWrite b (writesOf v bs)).getD 0 = if b ∈ bs then v else 0 := by
  induction bs using List.reverseRecOn with
  | nil => rfl
  | append_singleton bs b' ih =>
    have hsnoc : writesOf v (bs ++ [b']) = writesOf v bs ++ [(⟨b', 1, true⟩, fun _ => v)] := by simp [writesOf]
    have hmem : b ∈ (⟨b', 1, true⟩ : Request).blocks ↔ b = b' := by simp [Request.blocks]
    rw [hsnoc, lastWrite_snoc]
    simp only [hmem, true_and, List.mem_append, List.mem_singleton]
    by_cases heq : b = b'
    · simp [heq]
    · simp [heq, ih]

/-- The array has all its disks, with their capacity. -/
structure Sized (r : Raid) (disks : List Disk) : Prop where
  length : disks.length = r.numDisks
  capacity : ∀ d ∈ disks, d.blocksPerDisk = 10000

/-- Accesses within the disks succeed, and the disks keep their sizes. -/
theorem Sized.exists_performAll {disks : List Disk} (h : r.Sized disks) {ios : List Access}
    (hdisk : ∀ io ∈ ios, io.slot.1 < r.numDisks) (hcap : ∀ io ∈ ios, io.slot.2 < 10000) :
    ∃ disks', performAll disks ios = .ok disks' ∧ r.Sized disks' := by
  have hdisk' : ∀ io ∈ ios, io.slot.1 < disks.length := fun io hio => h.length ▸ hdisk io hio
  obtain ⟨disks', hperf⟩ := Cs537.exists_performAll hdisk' fun io hio d hd => h.capacity d hd ▸ hcap io hio
  obtain ⟨-, hlength, hdisks⟩ := performAll_eq_ok.mp hperf
  refine ⟨disks', hperf, hlength.trans h.length, fun d' hd' => ?_⟩
  obtain ⟨i, hi, rfl⟩ := List.getElem_of_mem hd'
  obtain ⟨d'', hd'', henq⟩ := hdisks i _ (List.getElem?_eq_getElem (hlength ▸ hi))
  rw [List.getElem?_eq_getElem hi] at hd''
  cases hd''
  refine Except.foldlM_invariant (fun d => d.blocksPerDisk = 10000)
    (fun addr _ d d' hstep hd => (Disk.enqueue_eq_ok hstep).2.1.trans hd) henq ?_
  exact h.capacity _ (List.getElem_mem _)

/-- Calls of `doPartialWrite` whose offsets are on the disks succeed. -/
theorem exists_runCalls {ps : List (ℕ × ℕ × ℕ)} {calls : List (List Access)} {st : ArrayState V} (new : ℕ → V)
    (hst : r.Sized st.disks) (hcalls : (ps.mapM fun p => r.doPartialWrite p.1 p.2.1 p.2.2) = .ok calls)
    (hdisk : ∀ ios ∈ calls, ∀ io ∈ ios, io.slot.1 < r.numDisks) (hcap : ∀ ios ∈ calls, ∀ io ∈ ios, io.slot.2 < 10000) :
    ∃ st', ps.foldlM (r.runCall new) st = .ok st' ∧ r.Sized st'.disks := by
  induction ps generalizing st calls with
  | nil => exact ⟨st, rfl, hst⟩
  | cons p ps ih =>
    rw [List.mapM_cons] at hcalls
    obtain ⟨ios, hios, hrest⟩ := Except.bind_eq_ok.mp hcalls
    obtain ⟨calls', hcalls', heq⟩ := Except.bind_eq_ok.mp hrest
    cases heq
    obtain ⟨disks, hperf, hdisks⟩ := hst.exists_performAll (hdisk ios (by simp)) (hcap ios (by simp))
    have hnext : r.Sized (ArrayState.mk disks (Controller.run new (Controller.start st.contents) ios).contents).disks :=
      hdisks
    obtain ⟨st', hrun, hst'⟩ := ih hnext hcalls' (fun ios' h => hdisk ios' (List.mem_cons_of_mem _ h))
      fun ios' h => hcap ios' (List.mem_cons_of_mem _ h)
    refine ⟨st', Except.foldlM_cons_eq_ok.mpr ⟨_, ?_, hrun⟩, hst'⟩
    exact Except.bind_eq_ok.mpr ⟨ios, hios, Except.bind_eq_ok.mpr ⟨disks, hperf, rfl⟩⟩

/-- A request within the disks succeeds. -/
theorem exists_serveRequest {st : ArrayState V} (hst : r.Sized st.disks) (q : Request × (ℕ → V))
    (hcap : ∀ io ∈ r.accesses q.1, io.slot.2 < 10000) :
    ∃ st', r.serveRequest st q = .ok st' ∧ r.Sized st'.disks := by
  obtain ⟨disks, hperf, hdisks⟩ := hst.exists_performAll (r.disk_lt_of_mem_accesses q.1) hcap
  have hios := r.enqueue_eq_accesses q.1
  cases hlevel : r.raidLevel with
  | zero | one =>
    simp only [serveRequest, hlevel]
    exact ⟨_, Except.bind_eq_ok.mpr ⟨_, hios, Except.bind_eq_ok.mpr ⟨disks, hperf, rfl⟩⟩, hdisks⟩
  | four | five =>
    have hr : r.HasParity := by simp [HasParity, hlevel]
    simp only [serveRequest, hlevel, runRequest]
    split
    next hwrite =>
      rw [enqueue_eq_enqueue45 hr, enqueue45, if_pos hwrite] at hios
      obtain ⟨calls, hcalls, heq⟩ := Except.bind_eq_ok.mp hios
      have heq : calls.flatten = r.accesses q.1 := Except.ok.inj heq
      have hmem : ∀ ios ∈ calls, ∀ io ∈ ios, io ∈ r.accesses q.1 := fun ios h io hio =>
        heq ▸ List.mem_flatten_of_mem h hio
      exact exists_runCalls q.2 hst hcalls (fun ios h io hio => r.disk_lt_of_mem_accesses q.1 io (hmem ios h io hio))
        fun ios h io hio => hcap io (hmem ios h io hio)
    next =>
      exact ⟨_, Except.bind_eq_ok.mpr ⟨_, hios, Except.bind_eq_ok.mpr ⟨disks, hperf, rfl⟩⟩, hdisks⟩

/-- Requests within the disks succeed. -/
theorem exists_serveRequests {st : ArrayState V} (hst : r.Sized st.disks) {qs : List (Request × (ℕ → V))}
    (hcap : ∀ q ∈ qs, ∀ io ∈ r.accesses q.1, io.slot.2 < 10000) : ∃ st', r.serveRequests st qs = .ok st' := by
  induction qs generalizing st with
  | nil => exact ⟨st, rfl⟩
  | cons q qs ih =>
    obtain ⟨t, hstep, ht⟩ := exists_serveRequest hst q (hcap q (by simp))
    obtain ⟨st', hrun⟩ := ih ht fun q' hq' => hcap q' (List.mem_cons_of_mem _ hq')
    exact ⟨st', Except.foldlM_cons_eq_ok.mpr ⟨t, hstep, hrun⟩⟩

/-- The blank array has disks of the default size. -/
theorem sized_blank : r.Sized (r.blank (V := V)).disks where
  length := List.length_replicate
  capacity d hd := by rw [List.eq_of_mem_replicate hd]; rfl

/-- A write of a block in the first row only uses offsets that are on the disks. -/
theorem fits_of_first_row {b : ℕ} (hrow : ∀ x ∈ r.slotsOf b, x.2 = 0) :
    ∀ io ∈ r.accesses ⟨b, 1, true⟩, io.slot.2 < 10000 := by
  refine (fits_iff le_rfl).mp ⟨fun b' hb' x hx => ?_, fun _ hr hbehind => ?_⟩
  · obtain ⟨h1, h2⟩ := Request.mem_blocks.mp hb'
    obtain rfl : b' = b := le_antisymm (Nat.le_of_lt_succ h2) h1
    rw [hrow x hx]
    omega
  · obtain ⟨htwo, hchunk, hlong⟩ := hbehind
    have hrow0 : (r.parityLayout hr).row b = 0 := hrow _ (by rw [slotsOf_parity hr]; exact List.mem_singleton_self _)
    have hb : b = 0 := by rw [← row_eq_self hr htwo b, hrow0]
    simp only [hb] at hchunk hlong
    simp at hchunk hlong
    omega

section

variable {v : V} {bs : List ℕ} {st : ArrayState V} (hrun : r.serveRequests r.blank (writesOf v bs) = .ok st)

include hrun

/-- What the disks hold when one value has been written to some blocks. -/
theorem contents_writesOf {b : ℕ} {x : Slot} (hx : x ∈ r.slotsOf b) : st.contents x = if b ∈ bs then v else 0 := by
  rw [contents_eq_lastWrite (by simp [writesOf]) hrun hx, lastWrite_writesOf]

/-- The disks that hold none of the blocks do not show the writes, if the parity of the first row does not. -/
theorem hidden_of_hasParity [Module (ZMod 2) V] (hr : r.HasParity) {failed : Finset ℕ}
    (hdata : ∀ b ∈ bs, ∃ d ∈ failed, (r.parityLayout hr).slot b = (d, 0))
    (hparity : (r.parityLayout hr).parity 0 ∉ failed →
      ∑ b ∈ Finset.Ico 0 (r.parityLayout hr).blocksInStripe,
        (if (r.parityLayout hr).row b = 0 then if b ∈ bs then v else 0 else 0) = 0) :
    ∀ d < r.numDisks, d ∉ failed → ∀ o, st.contents (d, o) = 0 := by
  intro d hd hnot o
  set L := r.parityLayout hr with hL
  by_cases hp : d = L.parity (o / L.chunk)
  · -- a parity disk that is left holds the sum of its row
    have hsum := paritySlot_eq_sum (by simp [writesOf]) hrun hr o
    simp only [lastWrite_writesOf, ← hL, ParityLayout.paritySlot, ← hp] at hsum
    rw [hsum]
    by_cases ho : o = 0
    · subst ho
      simp only [Nat.zero_div, Nat.zero_mul, Nat.zero_add] at hp ⊢
      exact hparity (hp ▸ hnot)
    · refine Finset.sum_eq_zero fun b _ => ?_
      by_cases hb : b ∈ bs
      · obtain ⟨d', -, hslot⟩ := hdata b hb
        have hrow : L.row b = 0 := by rw [← L.slot_snd, hslot]
        rw [if_neg (by omega)]
      · simp [hb]
  · -- a data disk that is left holds none of the blocks
    obtain ⟨b, hslot⟩ := (L.exists_slot_iff_ne_parity o (parityLayout_disks hr ▸ hd)).mpr hp
    rw [contents_writesOf hrun (b := b) (by rw [slotsOf_parity hr, ← hslot]; exact List.mem_singleton_self _)]
    refine if_neg fun hb => ?_
    obtain ⟨d', hd', hslot'⟩ := hdata b hb
    rw [hslot] at hslot'
    cases hslot'
    exact hnot hd'

/-- Without parity, it is enough that every copy of the blocks is lost. -/
theorem hidden_of_cover {failed : Finset ℕ} (hcover : ∀ d < r.numDisks, ∀ o, ∃ b, (d, o) ∈ r.slotsOf b)
    (hdata : ∀ b ∈ bs, ∀ x ∈ r.slotsOf b, x.1 ∈ failed) :
    ∀ d < r.numDisks, d ∉ failed → ∀ o, st.contents (d, o) = 0 := by
  intro d hd hnot o
  obtain ⟨b, hb⟩ := hcover d hd o
  rw [contents_writesOf hrun hb]
  exact if_neg fun h => hnot (hdata b h _ hb)

end

/-- A sum of a row in which exactly two blocks hold `v`. -/
theorem sum_pair [Module (ZMod 2) V] (L : ParityLayout) (v : V) {b b' : ℕ} (hne : b ≠ b') (hrow : L.row b = 0)
    (hrow' : L.row b' = 0) (hstripe : L.stripe b = 0) (hstripe' : L.stripe b' = 0) :
    ∑ u ∈ Finset.Ico 0 L.blocksInStripe, (if L.row u = 0 then if u ∈ [b, b'] then v else 0 else 0) = 0 := by
  have hmem : ∀ u, L.stripe u = 0 → u ∈ Finset.Ico 0 L.blocksInStripe := fun u hu => by
    have := (L.stripe_eq_iff u 0).mp hu
    simp only [Finset.mem_Ico]
    omega
  calc ∑ u ∈ Finset.Ico 0 L.blocksInStripe, (if L.row u = 0 then if u ∈ [b, b'] then v else 0 else 0)
      = ∑ u ∈ Finset.Ico 0 L.blocksInStripe, ((if u = b then v else 0) + if u = b' then v else 0) := by
        refine Finset.sum_congr rfl fun u _ => ?_
        by_cases hu : u = b
        · simp [hu, hrow, hne]
        · by_cases hu' : u = b' <;> simp [hu, hu', hrow', hne.symm]
    _ = v + v := by
        rw [Finset.sum_add_distrib, Finset.sum_ite_eq', Finset.sum_ite_eq', if_pos (hmem b hstripe),
          if_pos (hmem b' hstripe')]
    _ = 0 := ZModModule.add_self v

section

variable {failed : Finset ℕ} (h : r.Tolerates V failed)

include h

/-- A level tolerates no loss after which writes to the first row do not show. -/
theorem Tolerates.false_of_hidden {v : V} (hv : v ≠ 0) (bs : List ℕ) (hne : bs ≠ [])
    (hrow : ∀ b ∈ bs, ∀ x ∈ r.slotsOf b, x.2 = 0)
    (hhidden : ∀ st : ArrayState V, r.serveRequests r.blank (writesOf v bs) = .ok st →
      ∀ d < r.numDisks, d ∉ failed → ∀ o, st.contents (d, o) = 0) : False := by
  have hfits : ∀ q ∈ writesOf v bs, ∀ io ∈ r.accesses q.1, io.slot.2 < 10000 := by
    simp only [writesOf, List.mem_map]
    rintro _ ⟨b, hb, rfl⟩
    exact fits_of_first_row (hrow b hb)
  obtain ⟨st, hrun⟩ := exists_serveRequests sized_blank hfits
  obtain ⟨b, hb⟩ := List.exists_mem_of_ne_nil bs hne
  have heq := h (writesOf v bs) [] st r.blank (by simp [writesOf]) (by simp) hrun rfl (hhidden st hrun) b
  rw [lastWrite_writesOf, if_pos hb] at heq
  exact hv heq

variable [Nontrivial V] (hfailed : ∀ d ∈ failed, d < r.numDisks)

include hfailed

/-- Striping survives nothing. -/
theorem Tolerates.eq_empty (hlevel : r.raidLevel = .zero) : failed = ∅ := by
  obtain ⟨v, hv⟩ := exists_ne (0 : V)
  rw [Finset.eq_empty_iff_forall_notMem]
  intro d hd
  have hcover : ∀ e < r.numDisks, ∀ o, ∃ b, r.slotsOf b = [(e, o)] := fun e he o => by
    obtain ⟨b, hb⟩ := (r.layout0.exists_slot_iff e o).mpr ⟨e, he, rfl⟩
    exact ⟨b, by rw [slotsOf_zero hlevel, bmap0_eq_slot, hb]⟩
  obtain ⟨b, hb⟩ := hcover d (hfailed d hd) 0
  refine h.false_of_hidden hv [b] (by simp) (by simp [hb]) fun st hrun => ?_
  refine hidden_of_cover hrun (fun e he o => ?_) (by simpa [hb])
  obtain ⟨b', hb'⟩ := hcover e he o
  exact ⟨b', by simp [hb']⟩

/-- Mirroring does not survive the loss of a pair. -/
theorem Tolerates.mirror_notMem (hlevel : r.raidLevel = .one) (k : ℕ) : ¬ (2 * k ∈ failed ∧ 2 * k + 1 ∈ failed) := by
  obtain ⟨v, hv⟩ := exists_ne (0 : V)
  rintro ⟨hfirst, hsecond⟩
  have hpairs := r.pairs_pos hlevel
  have heven := r.even_of_mirrored hlevel
  have hcover : ∀ j < r.numDisks / 2, ∀ o, ∃ b, ∀ x, x ∈ r.slotsOf b ↔ (x.1 / 2, x.2) = (j, o) := fun j hj o => by
    obtain ⟨b, hb⟩ := ((r.layout1 hpairs).exists_slot_iff j o).mpr ⟨j, hj, rfl⟩
    exact ⟨b, fun x => by rw [mem_slotsOf_one hlevel, hb, eq_comm]⟩
  have hlt := hfailed _ hsecond
  obtain ⟨b, hb⟩ := hcover k (by omega) 0
  refine h.false_of_hidden hv [b] (by simp) (by simp [hb]) fun st hrun => ?_
  refine hidden_of_cover hrun (fun e he o => ?_) fun u hu x hx => ?_
  · obtain ⟨b', hb'⟩ := hcover (e / 2) (by omega) o
    exact ⟨b', by simp [hb']⟩
  · rw [List.mem_singleton.mp hu, hb, Prod.mk.injEq] at hx
    rcases Nat.mod_two_eq_zero_or_one x.1 with hmod | hmod
    · rwa [show x.1 = 2 * k by omega]
    · rwa [show x.1 = 2 * k + 1 by omega]

/-- Of two disks that are lost, the parity disk of the first row hides a write to the other one. Two data disks hide
writes of one value to both, which leave the parity as it is. -/
theorem Tolerates.card_le_one [Module (ZMod 2) V] (hr : r.HasParity) : failed.card ≤ 1 := by
  obtain ⟨v, hv⟩ := exists_ne (0 : V)
  set L := r.parityLayout hr with hL
  have hblock : ∀ d ∈ failed, d ≠ L.parity 0 → ∃ b, L.slot b = (d, 0) ∧ L.row b = 0 ∧ L.stripe b = 0 :=
    fun d hd hp => by
      obtain ⟨b, hb⟩ := (L.exists_slot_iff_ne_parity 0 (parityLayout_disks hr ▸ hfailed d hd)).mpr
        (by rwa [Nat.zero_div])
      have hrow : L.row b = 0 := congrArg Prod.snd hb
      exact ⟨b, hb, hrow, by rw [← L.row_div, hrow, Nat.zero_div]⟩
  -- a block and its parity: its value is on no other disk
  have hparity : ∀ d ∈ failed, d ≠ L.parity 0 → L.parity 0 ∉ failed := fun d hd hp hp' => by
    obtain ⟨b, hb, hrow, -⟩ := hblock d hd hp
    refine h.false_of_hidden hv [b] (by simp) (by simp [slotsOf_parity hr, ← hL, hrow]) fun st hrun => ?_
    exact hidden_of_hasParity hrun hr (by simpa only [List.forall_mem_singleton] using ⟨d, hd, hb⟩)
      fun hnot => absurd hp' hnot
  rw [Finset.card_le_one]
  intro d hd e he
  by_contra hne
  have hd0 : d ≠ L.parity 0 := fun h => hparity e he (fun h' => hne (h.trans h'.symm)) (h ▸ hd)
  have he0 : e ≠ L.parity 0 := fun h => hparity d hd hd0 (h ▸ he)
  obtain ⟨b, hb, hrow, hstripe⟩ := hblock d hd hd0
  obtain ⟨b', hb', hrow', hstripe'⟩ := hblock e he he0
  -- two blocks of a row with one value: their parity is zero
  have hbb : b ≠ b' := fun h => hne (congrArg Prod.fst (hb.symm.trans (h ▸ hb')))
  refine h.false_of_hidden hv [b, b'] (by simp) (by simp [slotsOf_parity hr, ← hL, hrow, hrow'])
    fun st hrun => ?_
  refine hidden_of_hasParity hrun hr ?_ fun _ => sum_pair L v hbb hrow hrow' hstripe hstripe'
  intro u hu
  rcases List.mem_pair.mp hu with rfl | rfl
  · exact ⟨d, hd, hb⟩
  · exact ⟨e, he, hb'⟩

end

/-- **What each level can lose.** The other disks determine everything that was written exactly if no disk of RAID 0,
not both disks of a pair of RAID 1, or at most one disk of RAID 4 and RAID 5 are lost. -/
theorem fault_tolerance [Module (ZMod 2) V] [Nontrivial V] {failed : Finset ℕ}
    (hfailed : ∀ d ∈ failed, d < r.numDisks) : r.Tolerates V failed ↔ r.Survivable failed := by
  refine ⟨fun h => ?_, Survivable.tolerates⟩
  cases hlevel : r.raidLevel with
  | zero => simpa only [Survivable, hlevel] using h.eq_empty hfailed hlevel
  | one => simpa only [Survivable, hlevel] using h.mirror_notMem hfailed hlevel
  | four | five => simpa only [Survivable, hlevel] using h.card_le_one hfailed (by simp [HasParity, hlevel])

/-- RAID 5 on four disks can lose a disk, but not two. -/
theorem fault_tolerance_defaults :
    (defaults .five).Tolerates (ZMod 2) {2} ∧ ¬ (defaults .five).Tolerates (ZMod 2) {1, 2} :=
  ⟨(fault_tolerance (by decide)).mpr (show ({2} : Finset ℕ).card ≤ 1 by decide),
    fun h => absurd ((fault_tolerance (by decide)).mp h) (show ¬ ({1, 2} : Finset ℕ).card ≤ 1 by decide)⟩

end Raid

end Cs537
