import Cs537.Lib.Store
import Cs537.Raid.Parity
import Cs537.Raid.Placement

/-!
# The array refines a flat logical disk

Each access is given its effect on the contents of the array: a read returns what its slot holds, a
data write stores the request's value of its block, a parity write stores anything. `Sim` relates the
array to a flat logical disk: every copy of a block that was written holds the last value written to
it. A run of requests keeps the relation, and so reads return the most recent writes.
-/

namespace Cs537

variable {V : Type}

/-- `Exec new a ios res a'`: the accesses `ios` take the contents `a` to `a'`, where `new b` is the
value that the request writes to block `b` and `res` lists the reads with the values they return. -/
inductive Exec (new : ℕ → V) :
    Contents V → List Access → List (Access × V) → Contents V → Prop where
  | nil (a : Contents V) : Exec new a [] [] a
  | read {a a' : Contents V} {io : Access} {ios : List Access} {res : List (Access × V)}
      (hop : io.op = .read) (hrest : Exec new a ios res a') :
      Exec new a (io :: ios) ((io, a io.slot) :: res) a'
  | data {a a' : Contents V} {io : Access} {ios : List Access} {res : List (Access × V)} {b : ℕ}
      (hop : io.op = .write) (hrole : io.role = .data b)
      (hrest : Exec new (Function.update a io.slot (new b)) ios res a') :
      Exec new a (io :: ios) res a'
  | parity {a a' : Contents V} {io : Access} {ios : List Access} {res : List (Access × V)} (v : V)
      (hop : io.op = .write) (hrole : io.role = .parity)
      (hrest : Exec new (Function.update a io.slot v) ios res a') :
      Exec new a (io :: ios) res a'

namespace Exec

variable {new : ℕ → V} {a a' : Contents V} {ios : List Access} {res : List (Access × V)}

/-- A write access adds its own write in front. -/
private theorem exists_writeAll_cons {io : Access} {v : V} {b : Contents V} (hop : io.op = .write)
    (hval : ∀ n, io.role = .data n → v = new n)
    (h : ∃ ws : List (Slot × V), b = Store.writeAll (Function.update a io.slot v) ws ∧
      (∀ w ∈ ws, ∃ io ∈ ios, io.op = .write ∧ io.slot = w.1 ∧ ∀ n, io.role = .data n → w.2 = new n) ∧
      (∀ io ∈ ios, io.op = .write → ∃ w ∈ ws, w.1 = io.slot)) :
    ∃ ws : List (Slot × V), b = Store.writeAll a ws ∧
      (∀ w ∈ ws, ∃ io' ∈ io :: ios, io'.op = .write ∧ io'.slot = w.1 ∧
        ∀ n, io'.role = .data n → w.2 = new n) ∧
      (∀ io' ∈ io :: ios, io'.op = .write → ∃ w ∈ ws, w.1 = io'.slot) := by
  obtain ⟨ws, heq, hfrom, hto⟩ := h
  refine ⟨(io.slot, v) :: ws, heq, fun w hw => ?_, fun io' hio' hop' => ?_⟩
  · rcases List.mem_cons.mp hw with rfl | hw
    · exact ⟨io, List.mem_cons_self, hop, rfl, hval⟩
    · obtain ⟨io', hio', h'⟩ := hfrom w hw
      exact ⟨io', List.mem_cons_of_mem _ hio', h'⟩
  · rcases List.mem_cons.mp hio' with rfl | hmem
    · exact ⟨_, List.mem_cons_self, rfl⟩
    · obtain ⟨w, hw, h'⟩ := hto io' hmem hop'
      exact ⟨w, List.mem_cons_of_mem _ hw, h'⟩

/-- The contents afterwards come from a list of writes, one for each write access, in which data
writes carry the request's values. -/
theorem exists_writeAll (h : Exec new a ios res a') :
    ∃ ws : List (Slot × V), a' = Store.writeAll a ws ∧
      (∀ w ∈ ws, ∃ io ∈ ios, io.op = .write ∧ io.slot = w.1 ∧ ∀ b, io.role = .data b → w.2 = new b) ∧
      (∀ io ∈ ios, io.op = .write → ∃ w ∈ ws, w.1 = io.slot) := by
  induction h with
  | nil a => exact ⟨[], rfl, by simp, by simp⟩
  | @read a a' io ios res hop hrest ih =>
    obtain ⟨ws, heq, hfrom, hto⟩ := ih
    refine ⟨ws, heq, fun w hw => ?_, fun io' hio' hop' => ?_⟩
    · obtain ⟨io', hio', h'⟩ := hfrom w hw
      exact ⟨io', List.mem_cons_of_mem _ hio', h'⟩
    · rcases List.mem_cons.mp hio' with rfl | hmem
      · rw [hop] at hop'
        cases hop'
      · exact hto io' hmem hop'
  | @data a a' io ios res b hop hrole hrest ih =>
    refine exists_writeAll_cons hop (fun b' hb' => ?_) ih
    rw [hrole] at hb'
    cases hb'
    rfl
  | @parity a a' io ios res v hop hrole hrest ih =>
    refine exists_writeAll_cons hop (fun b hb => ?_) ih
    rw [hrole] at hb
    cases hb

/-- A slot that no write addresses keeps its contents. -/
theorem eq_of_unwritten (h : Exec new a ios res a') {x : Slot}
    (hx : ∀ io ∈ ios, io.op = .write → io.slot ≠ x) : a' x = a x := by
  obtain ⟨ws, rfl, hfrom, -⟩ := h.exists_writeAll
  refine Store.writeAll_of_notMem fun w hw heq => ?_
  obtain ⟨io, hio, hop, hslot, -⟩ := hfrom w hw
  exact hx io hio hop (hslot.trans heq)

/-- A slot that only data writes of block `b` address, and at least one does, holds the new value. -/
theorem eq_new_of_written (h : Exec new a ios res a') {x : Slot} {b : ℕ}
    (hx : ∀ io ∈ ios, io.op = .write → io.slot = x → io.role = .data b)
    (hex : ∃ io ∈ ios, io.op = .write ∧ io.slot = x) : a' x = new b := by
  obtain ⟨ws, rfl, hfrom, hto⟩ := h.exists_writeAll
  obtain ⟨io, hio, hop, rfl⟩ := hex
  obtain ⟨w, hw, hwslot⟩ := hto io hio hop
  refine Store.writeAll_of_forall_eq (fun w' hw' heq => ?_) (Or.inr ⟨w, hw, hwslot⟩)
  obtain ⟨io', hio', hop', hslot', hval⟩ := hfrom w' hw'
  exact hval b (hx io' hio' hop' (hslot'.trans heq))

/-- When nothing is written, every read returns what its slot held at the start. -/
theorem eq_of_mem_res (h : Exec new a ios res a') (hread : ∀ io ∈ ios, io.op = .read) {p : Access × V}
    (hp : p ∈ res) : p.1 ∈ ios ∧ p.2 = a p.1.slot := by
  induction h with
  | nil a => cases hp
  | @read a a' io ios res hop hrest ih =>
    rcases List.mem_cons.mp hp with rfl | hp
    · exact ⟨List.mem_cons_self, rfl⟩
    · obtain ⟨h1, h2⟩ := ih (fun io' hio' => hread io' (List.mem_cons_of_mem _ hio')) hp
      exact ⟨List.mem_cons_of_mem _ h1, h2⟩
  | @data a a' io ios res b hop hrole hrest ih =>
    rw [hread io List.mem_cons_self] at hop
    cases hop
  | @parity a a' io ios res v hop hrole hrest ih =>
    rw [hread io List.mem_cons_self] at hop
    cases hop

end Exec

/-- The controller of the parity levels is one way to carry out the accesses of a call. -/
theorem Controller.exec_run [AddCommGroup V] (new : ℕ → V) (ios : List Access) (st : Controller V) :
    ∃ res, Exec new st.contents ios res (Controller.run new st ios).contents := by
  induction ios generalizing st with
  | nil => exact ⟨[], Exec.nil _⟩
  | cons io ios ih =>
    obtain ⟨res, hres⟩ := ih (Controller.step new st io)
    obtain ⟨op, slot, role⟩ := io
    cases op with
    | read => exact ⟨_, Exec.read rfl hres⟩
    | write =>
      cases role with
      | data b => exact ⟨_, Exec.data rfl rfl hres⟩
      | parity => exact ⟨_, Exec.parity _ rfl rfl hres⟩

/-! ## Runs of requests -/

/-- The last value written to block `b` by a sequence of requests. -/
def lastWrite (b : ℕ) (qs : List (Request × (ℕ → V))) : Option V :=
  qs.foldl (fun last q => if q.1.isWrite ∧ b ∈ q.1.blocks then some (q.2 b) else last) none

/-- The last write, when one more request has come. -/
theorem lastWrite_snoc (b : ℕ) (qs : List (Request × (ℕ → V))) (q : Request) (new : ℕ → V) :
    lastWrite b (qs ++ [(q, new)])
      = if q.isWrite ∧ b ∈ q.blocks then some (new b) else lastWrite b qs :=
  List.foldl_append

/-- A run of logical requests: each one issues its accesses, which the disks accept and which take
effect on the contents. -/
inductive Run (r : Raid) : ArrayState V → List (Request × (ℕ → V)) → ArrayState V → Prop where
  | nil (st : ArrayState V) : Run r st [] st
  | snoc {st st' : ArrayState V} {qs : List (Request × (ℕ → V))} {q : Request} {new : ℕ → V}
      {ios : List Access} {disks : List Disk} {res : List (Access × V)} {a : Contents V}
      (hrun : Run r st qs st') (hios : r.enqueue q = .ok ios)
      (hdisks : performAll st'.disks ios = .ok disks) (hexec : Exec new st'.contents ios res a) :
      Run r st (qs ++ [(q, new)]) ⟨disks, a⟩

/-- The array holds the flat disk: every copy of a written block holds its last value. -/
def Sim (r : Raid) (flat : ℕ → Option V) (a : Contents V) : Prop :=
  ∀ b v, flat b = some v → ∀ x ∈ r.slotsOf b, a x = v

/-- The mirrors of every pair hold the same. -/
def Mirrored (r : Raid) (a : Contents V) : Prop :=
  ∀ k o, 2 * k + 1 < r.numDisks → a (2 * k, o) = a (2 * k + 1, o)

namespace Raid.Placed

variable {r : Raid} {q : Request} {ios : List Access} {new : ℕ → V} {a a' : Contents V}
  {res : List (Access × V)}

/-- A write to a slot that holds copies of `b` is a data write of `b`. -/
theorem role_of_slot (hp : Placed r q ios) {io : Access} (hio : io ∈ ios) {b : ℕ}
    (hx : io.slot ∈ r.slotsOf b) : io.role = .data b := by
  cases hrole : io.role with
  | data b' => rw [eq_of_mem_slotsOf (hp.data_slot io hio b' hrole) hx]
  | parity => exact absurd hx (hp.parity_slot io hio hrole b)

/-- After a request a copy of a block holds its new value if the request writes it, and its old one
otherwise. -/
theorem contents_eq (hp : Placed r q ios) (hexec : Exec new a ios res a') {b : ℕ} {x : Slot}
    (hx : x ∈ r.slotsOf b) :
    a' x = if q.isWrite ∧ b ∈ q.blocks then new b else a x := by
  by_cases hw : q.isWrite = true ∧ b ∈ q.blocks
  · rw [if_pos hw]
    refine hexec.eq_new_of_written (fun io hio _ hslot => ?_) ⟨_, hp.write_all hw.1 b hw.2 x hx, rfl, rfl⟩
    exact hp.role_of_slot hio (hslot ▸ hx)
  · rw [if_neg hw]
    refine hexec.eq_of_unwritten fun io hio hop hslot => hw ?_
    obtain ⟨h1, h2⟩ := hp.write_block io hio hop
    exact ⟨h1, h2 b (hp.role_of_slot hio (hslot ▸ hx))⟩

/-- One request keeps the simulation. -/
theorem sim (hp : Placed r q ios) (hexec : Exec new a ios res a') {flat : ℕ → Option V}
    (hsim : Sim r flat a) :
    Sim r (fun b => if q.isWrite ∧ b ∈ q.blocks then some (new b) else flat b) a' := by
  intro b v hv x hx
  dsimp only at hv
  rw [hp.contents_eq hexec hx]
  by_cases hw : q.isWrite = true ∧ b ∈ q.blocks
  · rw [if_pos hw] at hv ⊢
    exact Option.some.inj hv
  · rw [if_neg hw] at hv ⊢
    exact hsim b v hv x hx

/-- One request keeps the mirrors of RAID 1 identical. -/
theorem mirrored (hlevel : r.raidLevel = .one) (hp : Placed r q ios) (hexec : Exec new a ios res a')
    (hm : Mirrored r a) : Mirrored r a' := by
  intro k o hk
  obtain ⟨b, hb⟩ : ∃ b, (r.layout1 (r.pairs_pos hlevel)).slot b = (k, o) :=
    (Layout.exists_slot_iff _ k o).mpr ⟨k, show k < r.numDisks / 2 by omega, rfl⟩
  have hleft : (2 * k, o) ∈ r.slotsOf b := by
    rw [mem_slotsOf_one hlevel, hb]
    simp
  have hright : (2 * k + 1, o) ∈ r.slotsOf b := by
    rw [mem_slotsOf_one hlevel, hb, Prod.mk.injEq]
    omega
  rw [hp.contents_eq hexec hleft, hp.contents_eq hexec hright, hm k o hk]

end Raid.Placed

namespace Run

variable {r : Raid} {st st' : ArrayState V} {qs : List (Request × (ℕ → V))}

/-- **The array refines the flat disk**: after any run the copies of every written block hold the last
value written to it. -/
theorem sim (hsize : ∀ q ∈ qs, 1 ≤ q.1.size) (h : Run r st qs st') :
    Sim r (fun b => lastWrite b qs) st'.contents := by
  induction h with
  | nil =>
    intro b v hv
    cases hv
  | @snoc st' qs q new ios disks res a hrun hios hdisks hexec ih =>
    have hp := Raid.placed_enqueue (hsize (q, new) (by simp)) hios
    have hstep := hp.sim hexec (ih fun q' hq' => hsize q' (List.mem_append_left _ hq'))
    intro b v hv
    simp only [lastWrite_snoc] at hv
    exact hstep b v hv

/-- A run keeps mirrors equal. -/
theorem mirrored (hlevel : r.raidLevel = .one) (hsize : ∀ q ∈ qs, 1 ≤ q.1.size) (h : Run r st qs st')
    (hm : Mirrored r st.contents) : Mirrored r st'.contents := by
  induction h with
  | nil => exact hm
  | @snoc st' qs q new ios disks res a hrun hios hdisks hexec ih =>
    have hp := Raid.placed_enqueue (hsize (q, new) (by simp)) hios
    exact hp.mirrored hlevel hexec (ih fun q' hq' => hsize q' (List.mem_append_left _ hq'))

end Run

/-- Two parts of an execution. -/
theorem Exec.append {new : ℕ → V} {a a' a'' : Contents V} {ios ios' : List Access}
    {res res' : List (Access × V)} (h : Exec new a ios res a') (h' : Exec new a' ios' res' a'') :
    Exec new a (ios ++ ios') (res ++ res') a'' := by
  induction h with
  | nil a => exact h'
  | read hop hrest ih => exact .read hop (ih h')
  | data hop hrole hrest ih => exact .data hop hrole (ih h')
  | parity v hop hrole hrest ih => exact .parity v hop hrole (ih h')

/-- The calls of the parity controller issue the accesses of the request, and take effect as they do. -/
theorem Raid.exec_runCalls [AddCommGroup V] (r : Raid) {new : ℕ → V} {ps : List (ℕ × ℕ × ℕ)}
    {st st' : ArrayState V} (hrun : ps.foldlM (r.runCall new) st = .ok st') :
    ∃ calls res, (ps.mapM fun p => r.doPartialWrite p.1 p.2.1 p.2.2) = .ok calls ∧
      performAll st.disks calls.flatten = .ok st'.disks ∧
      Exec new st.contents calls.flatten res st'.contents := by
  induction ps generalizing st with
  | nil =>
    cases hrun
    exact ⟨[], [], rfl, rfl, Exec.nil _⟩
  | cons p ps ih =>
    obtain ⟨t, hcall, hrest⟩ := Except.foldlM_cons_eq_ok.mp hrun
    obtain ⟨ios, hios, hcall⟩ := Except.bind_eq_ok.mp hcall
    obtain ⟨disks, hdisks, ht⟩ := Except.bind_eq_ok.mp hcall
    cases ht
    obtain ⟨calls, res, hcalls, hperf, hexec⟩ := ih hrest
    obtain ⟨res₀, hexec₀⟩ := Controller.exec_run new ios (Controller.start st.contents)
    refine ⟨ios :: calls, res₀ ++ res, ?_, ?_, ?_⟩
    · rw [List.mapM_cons, hios, hcalls]
      rfl
    · exact Except.foldlM_append_eq_ok.mpr ⟨disks, hdisks, hperf⟩
    · exact hexec₀.append hexec

/-- A run of the parity controller is a run of the array. -/
theorem Raid.run_runRequests [AddCommGroup V] {r : Raid} (h : r.HasParity) {st st' : ArrayState V}
    {qs : List (Request × (ℕ → V))} (hrun : r.runRequests st qs = .ok st') : Run r st qs st' := by
  induction qs using List.reverseRecOn generalizing st' with
  | nil =>
    cases hrun
    exact Run.nil st
  | append_singleton qs q ih =>
    obtain ⟨t, hinit, hlast⟩ := Except.foldlM_append_eq_ok.mp hrun
    obtain ⟨t', hstep, ht'⟩ := Except.foldlM_cons_eq_ok.mp hlast
    cases ht'
    obtain ⟨q, new⟩ := q
    rw [runRequest] at hstep
    cases hw : q.isWrite with
    | true =>
      rw [if_pos hw] at hstep
      obtain ⟨calls, res, hcalls, hdisks, hexec⟩ := r.exec_runCalls hstep
      refine Run.snoc (ih hinit) ?_ hdisks hexec
      rw [enqueue_eq_enqueue45 h, enqueue45, if_pos hw, hcalls]
      rfl
    | false =>
      rw [if_neg (by simp [hw])] at hstep
      obtain ⟨ios, hios, hstep⟩ := Except.bind_eq_ok.mp hstep
      obtain ⟨disks, hdisks, ht⟩ := Except.bind_eq_ok.mp hstep
      cases ht
      -- a read has no calls, and leaves the contents as they are
      have hreads : ∀ io ∈ ios, io.op = .read := by
        rw [enqueue_eq_enqueue45 h, enqueue45_read h q hw] at hios
        cases hios
        exact fun io => ParityAccess.op_of_mem_dataOf _
      obtain ⟨res, hexec⟩ := Controller.exec_run new ios (Controller.start t.contents)
      rw [Controller.run_reads new hreads] at hexec
      exact Run.snoc (ih hinit) hios hdisks hexec

/-- **Read your writes.** At every level, after any run of requests: a later read of block `b` returns
the value of the most recent write of `b`, from whichever slot it reads; a write access to a slot that
a read of `b` uses is a data write of `b`; and the mirrors of RAID 1 stay identical. -/
theorem read_your_writes (r : Raid) :
    (∀ (st st' : ArrayState V) (qs : List (Request × (ℕ → V))), (∀ q ∈ qs, 1 ≤ q.1.size) →
      Run r st qs st' →
        (∀ (q : Request) (ios : List Access) (disks : List Disk) (new : ℕ → V)
          (res : List (Access × V)) (a : Contents V), q.isWrite = false → 1 ≤ q.size →
          r.enqueue q = .ok ios → performAll st'.disks ios = .ok disks →
          Exec new st'.contents ios res a →
          (∀ b ∈ q.blocks, ∃ io ∈ ios, io.role = .data b) ∧
          ∀ p ∈ res, ∃ b ∈ q.blocks, p.1.role = .data b ∧ ∀ v, lastWrite b qs = some v → p.2 = v) ∧
        (r.raidLevel = .one → Mirrored r st.contents → Mirrored r st'.contents)) ∧
    (∀ (q q' : Request) (ios ios' : List Access), q.isWrite = false → 1 ≤ q.size → 1 ≤ q'.size →
      r.enqueue q = .ok ios → r.enqueue q' = .ok ios' →
      ∀ io ∈ ios, ∀ io' ∈ ios', io'.op = .write → io'.slot = io.slot →
        ∃ b, io.role = .data b ∧ io'.role = .data b) := by
  refine ⟨fun st st' qs hsize hrun => ⟨?_, fun hlevel => hrun.mirrored hlevel hsize⟩, ?_⟩
  · -- a read gives what a copy of the block holds, which is the last value written
    intro q ios disks new res a hread hq hios _ hexec
    have hp := Raid.placed_enqueue hq hios
    refine ⟨hp.read_all hread, fun p hpres => ?_⟩
    have hops : ∀ io ∈ ios, io.op = .read := fun io hio => (hp.read_block hread io hio).1
    obtain ⟨hmem, hval⟩ := hexec.eq_of_mem_res hops hpres
    obtain ⟨-, b, hb, hrole⟩ := hp.read_block hread p.1 hmem
    refine ⟨b, hb, hrole, fun v hv => ?_⟩
    rw [hval]
    exact hrun.sim hsize b v hv _ (hp.data_slot p.1 hmem b hrole)
  · intro q q' ios ios' hread hq hq' hios hios' io hio io' hio' _ hslot
    have hp := Raid.placed_enqueue hq hios
    obtain ⟨-, b, -, hrole⟩ := hp.read_block hread io hio
    refine ⟨b, hrole, (Raid.placed_enqueue hq' hios').role_of_slot hio' ?_⟩
    rw [hslot]
    exact hp.data_slot io hio b hrole

/-- Block 1 of the default mirrored array, written and read back. -/
theorem read_your_writes_mirrored :
    ∃ (st' : ArrayState ℕ) (res : List (Access × ℕ)) (a : Contents ℕ),
      Run (Raid.defaults .one) ⟨List.replicate 4 Disk.fresh, fun _ => 0⟩
        [(⟨1, 1, true⟩, fun b => b + 10)] st' ∧
      Exec (fun _ => 0) st'.contents [Access.data .read 1 (2, 0)] res a ∧ ∀ p ∈ res, p.2 = 11 := by
  obtain ⟨a, hexec⟩ : ∃ a, Exec (fun b => b + 10) (fun _ => 0)
      [Access.data .write 1 (2, 0), Access.data .write 1 (3, 0)] [] a :=
    ⟨_, Exec.data rfl rfl (Exec.data rfl rfl (Exec.nil _))⟩
  obtain ⟨disks, hdisks⟩ : ∃ disks, performAll (List.replicate 4 Disk.fresh)
      [Access.data .write 1 (2, 0), Access.data .write 1 (3, 0)] = .ok disks := ⟨_, rfl⟩
  obtain ⟨disks', hdisks'⟩ : ∃ disks', performAll disks [Access.data .read 1 (2, 0)] = .ok disks' := by
    cases hdisks
    exact ⟨_, rfl⟩
  have hrun : Run (Raid.defaults .one) ⟨List.replicate 4 Disk.fresh, fun _ => 0⟩
      [(⟨1, 1, true⟩, fun b => b + 10)] ⟨disks, a⟩ :=
    Run.snoc (Run.nil _) rfl hdisks hexec
  have hread : Exec (fun _ => 0) a [Access.data .read 1 (2, 0)]
      [(Access.data .read 1 (2, 0), a (2, 0))] a := Exec.read rfl (Exec.nil a)
  refine ⟨⟨disks, a⟩, _, a, hrun, hread, fun p hp => ?_⟩
  obtain ⟨b, hb, -, hval⟩ := (((read_your_writes (Raid.defaults .one)).1 _ _ _ (by simp) hrun).1
    ⟨1, 1, false⟩ _ _ _ _ _ rfl le_rfl rfl hdisks' hread).2 p hp
  obtain rfl : b = 1 := Nat.le_antisymm (Nat.le_of_lt_succ (Request.mem_blocks.mp hb).2)
    (Request.mem_blocks.mp hb).1
  exact hval 11 rfl

end Cs537
