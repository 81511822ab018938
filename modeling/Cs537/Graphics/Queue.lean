import Mathlib.Tactic.FinCases
import Cs537.Graphics.Lifecycle

/-!
# The request queue

What `Raid.__init__` guarantees about the queue: every request has its own disks in its disk list, and the
methods of its mapping serve it as its kind says.
-/

namespace Cs537.Graphics

/-! ## Full-stripe marks -/

/-- The request without its full-stripe mark. -/
def Request.unmarked (request : Request) : Request :=
  { request with fullStripeWrite := false, fullStripeWriteParity := false }

/-- The detection of full stripes changes nothing but the marks. -/
theorem unmarked_markFullStripes (queue : List Request) :
    (markFullStripes queue).1.map Request.unmarked = queue.map Request.unmarked := by
  induction queue using markFullStripes.induct with
  | case1 a b c rest h ih =>
    rw [markFullStripes, if_pos h]
    simp only [List.map_cons, ih]
    rfl
  | case2 a b c rest h ih =>
    rw [markFullStripes, if_neg h]
    simp only [List.map_cons, ih]
  | case3 rest h =>
    rw [markFullStripes]
    exact h

namespace Config

variable (c : Config)

/-- The queue is what was placed, up to the marks. -/
theorem map_unmarked : c.requestQueue.map Request.unmarked = c.addr.map c.mapping.request := by
  have hplaced : c.placed.map Request.unmarked = c.addr.map c.mapping.request := by
    unfold placed
    rw [List.map_map]
    rfl
  unfold requestQueue
  split
  · rw [unmarked_markFullStripes, hplaced]
  · exact hplaced

/-- Every address has its request. -/
theorem length_requestQueue : c.requestQueue.length = c.addr.length := by
  have hlen := congrArg List.length c.map_unmarked
  rwa [List.length_map, List.length_map] at hlen

/-- Up to its mark, a request is what the mapping makes of an address of the list. -/
theorem exists_addr (i : c.Index) : ∃ a ∈ c.addr, (c.request i).unmarked = c.mapping.request a := by
  have hmem : (c.request i).unmarked ∈ c.requestQueue.map Request.unmarked :=
    List.mem_map_of_mem (List.getElem_mem i.2)
  rw [c.map_unmarked] at hmem
  obtain ⟨a, ha, heq⟩ := List.mem_map.mp hmem
  exact ⟨a, ha, heq.symm⟩

end Config

/-! ## Disk lists -/

/-- The disks of a RAID-5 row are those of its data block and of its parity block. -/
private theorem raid5Disks_eq : ∀ r < 3, ∀ o < 4,
    ∃ a b : Disk, a ≠ b ∧ (match o with
      | 0 => [Fin.ofNat 4 r, 3]
      | 1 => [if Fin.ofNat 4 r ≥ 2 then Fin.ofNat 4 r + 1 else Fin.ofNat 4 r, 2]
      | 2 => [if Fin.ofNat 4 r ≥ 1 then Fin.ofNat 4 r + 1 else Fin.ofNat 4 r, 1]
      | _ => [Fin.ofNat 4 r + 1, 0]) = [a, b] := by
  decide

/-- Striping uses one disk for a request, every other mapping two different ones. -/
theorem exists_physDiskList (mapping : Mapping) (logical : ℕ) :
    (mapping = .striping ∧ ∃ a, mapping.physDiskList logical = [a])
      ∨ (mapping ≠ .striping ∧ ∃ a b, a ≠ b ∧ mapping.physDiskList logical = [a, b]) := by
  cases mapping with
  | striping => exact .inl ⟨rfl, _, rfl⟩
  | mirroring =>
    refine .inr ⟨nofun, _, _, ?_, rfl⟩
    have h : ∀ r < 2, Fin.ofNat 4 (2 * r) ≠ Fin.ofNat 4 (2 * r + 1) := by decide
    exact h _ (Nat.mod_lt _ (by decide))
  | raid4 =>
    refine .inr ⟨nofun, _, _, ?_, rfl⟩
    have h : ∀ r < 3, Fin.ofNat 4 r ≠ 3 := by decide
    exact h _ (Nat.mod_lt _ (by decide))
  | raid5 =>
    obtain ⟨a, b, hne, heq⟩ := raid5Disks_eq (logical % 3) (Nat.mod_lt _ (by decide))
      (logical / 3 % 4) (Nat.mod_lt _ (by decide))
    exact .inr ⟨nofun, a, b, hne, heq⟩

namespace Config

variable (c : Config)

/-- The disk list of a request has one disk under striping, and two different ones otherwise. -/
theorem physDiskList_cases (i : c.Index) :
    (c.mapping = .striping ∧ ∃ a, (c.request i).physDiskList = [a])
      ∨ (c.mapping ≠ .striping ∧ ∃ a b, a ≠ b ∧ (c.request i).physDiskList = [a, b]) := by
  obtain ⟨a, -, heq⟩ := c.exists_addr i
  have hlist : (c.request i).physDiskList = c.mapping.physDiskList a.1 :=
    congrArg Request.physDiskList heq
  rw [hlist]
  exact exists_physDiskList c.mapping a.1

/-- `disk_to_index_map` is the position in the disk list. -/
theorem diskIndex_eq_some_iff {i : c.Index} {d : Disk} {e : Fin 2} :
    (c.request i).diskIndex d = some e ↔ (c.request i).physDiskList[(e : ℕ)]? = some d := by
  unfold Request.diskIndex
  rcases c.physDiskList_cases i with ⟨-, a, hlist⟩ | ⟨-, a, b, hne, hlist⟩
  · rw [hlist]
    fin_cases e <;> simp
  · rw [hlist]
    fin_cases e
    · by_cases hd : a = d <;> simp [hd]
    · by_cases hd : a = d
      · simp [hd, hd ▸ hne.symm]
      · simp [hd]

/-- The disks of a request are those of its address. -/
theorem physDiskList_eq (i : c.Index) :
    (c.request i).physDiskList = c.mapping.physDiskList (c.request i).logicalAddress := by
  obtain ⟨a, -, heq⟩ := c.exists_addr i
  have hlist := congrArg Request.physDiskList heq
  have hlogical := congrArg Request.logicalAddress heq
  change (c.request i).physDiskList = c.mapping.physDiskList a.1 at hlist
  change (c.request i).logicalAddress = a.1 at hlogical
  rw [hlist, hlogical]

/-! ## Kinds -/

/-- An I/O that only the disk of the first entry starts. -/
private theorem bind_first {α : Type*} (o : Option (Fin 2)) (P : Prop) [Decidable P] (v : α) :
    (o.bind fun e => if e = 0 ∧ P then some v else none) = if P ∧ o = some 0 then some v else none := by
  cases o with
  | none => simp
  | some e =>
    by_cases he : e = 0
    · simp [he]
    · simp [he]

/-- The disk with a number below four. -/
private theorem ofNat_eq_iff {m r : ℕ} (hr : r < 4) (hm : m = r) (d : Disk) :
    Fin.ofNat 4 m = d ↔ r = (d : ℕ) := by
  rw [Fin.ext_iff, hm]
  show r % 4 = d ↔ r = d
  rw [Nat.mod_eq_of_lt hr]

/-- The scheduling method of the mapping serves a request as its kind says. -/
theorem doScheduling_eq (i : c.Index) (status : Statuses) (d : Disk) :
    (c.request i).doScheduling c.mapping status d
      = ((c.request i).diskIndex d).bind (((c.request i).kind c.mapping).start status) := by
  have hfirst := c.diskIndex_eq_some_iff (i := i) (d := d) (e := 0)
  have hlist := c.physDiskList_eq i
  unfold Request.doScheduling Request.kind
  cases hmapping : c.mapping with
  | striping =>
    rw [hlist, hmapping] at hfirst
    -- the source compares the disk with the address, and the kind asks for the first entry
    have hdisk : (c.request i).diskIndex d = some 0 ↔ (c.request i).logicalAddress % 4 = d :=
      hfirst.trans ((Option.some_inj).trans (ofNat_eq_iff (Nat.mod_lt _ (by decide)) rfl d))
    show (c.request i).doStripeScheduling status d = (Option.bind _ fun e => _)
    simp only [Kind.start, bind_first, hdisk]
    rfl
  | mirroring =>
    unfold Request.doMirrorScheduling
    cases (c.request i).diskIndex d with
    | none => cases (c.request i).opType <;> rfl
    | some e => cases (c.request i).opType <;> rfl
  | raid4 =>
    rw [hlist, hmapping] at hfirst
    have hdisk : (c.request i).diskIndex d = some 0 ↔ (c.request i).logicalAddress % 3 = d :=
      hfirst.trans ((Option.some_inj).trans
        (ofNat_eq_iff (lt_trans (Nat.mod_lt _ (by decide)) (by decide)) rfl d))
    unfold Request.doRaid4Scheduling
    cases hop : (c.request i).opType with
    | read =>
      show _ = (Option.bind _ fun e => if e = 0 ∧ status 0 = .notStarted then _ else _)
      rw [bind_first]
      simp [hdisk]
    | write =>
      cases (c.request i).diskIndex d with
      | none => simp
      | some e =>
        -- the two marks select the branch of the source
        cases (c.request i).fullStripeWrite <;> cases (c.request i).fullStripeWriteParity <;> simp [Kind.start]
  | raid5 =>
    unfold Request.doRaid5Scheduling
    cases hop : (c.request i).opType with
    | read =>
      have hdisk : (c.request i).diskIndex d = some 0 ↔ (c.request i).physDiskList[0]? = some d := hfirst
      show _ = (Option.bind _ fun e => if e = 0 ∧ status 0 = .notStarted then _ else _)
      rw [bind_first]
      simp [hdisk]
    | write => cases (c.request i).diskIndex d <;> simp [Kind.start]

/-- The completion method of the mapping, likewise. -/
theorem requestDone_eq (i : c.Index) (status : Statuses) (e : Fin 2) :
    (c.request i).requestDone c.mapping status e
      = ((c.request i).kind c.mapping).finish status e := by
  unfold Request.requestDone Request.kind
  cases c.mapping with
  | striping => rfl
  | mirroring => cases (c.request i).opType <;> rfl
  | raid4 =>
    unfold Request.requestLevel4Done
    cases (c.request i).opType with
    | read => rfl
    | write => cases (c.request i).fullStripeWrite <;> cases (c.request i).fullStripeWriteParity <;> rfl
  | raid5 =>
    unfold Request.requestLevel4Done
    cases (c.request i).opType <;> rfl

/-- An entry on which an I/O can be started has a disk. -/
theorem exists_disk_of_start {i : c.Index} {status status' : Statuses} {e : Fin 2} {op : OpType}
    (hstart : ((c.request i).kind c.mapping).start status e = some (op, status')) :
    ∃ d, (c.request i).diskIndex d = some e := by
  have hex : ∃ d, (c.request i).physDiskList[(e : ℕ)]? = some d := by
    rcases c.physDiskList_cases i with ⟨hmapping, a, hlist⟩ | ⟨-, a, b, -, hlist⟩
    · -- striping only uses the first entry
      unfold Request.kind at hstart
      rw [hmapping] at hstart
      simp only [Kind.start] at hstart
      split at hstart
      · rename_i h
        rw [hlist, h.1]
        exact ⟨a, rfl⟩
      · cases hstart
    · rw [hlist]
      fin_cases e
      · exact ⟨a, rfl⟩
      · exact ⟨b, rfl⟩
  obtain ⟨d, hd⟩ := hex
  exact ⟨d, c.diskIndex_eq_some_iff.mpr hd⟩

end Config

end Cs537.Graphics
