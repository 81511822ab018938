import Cs537.Graphics.Completion
import Cs537.Graphics.Moves

/-!
# The two phases of a small write

A small write of RAID-4 or RAID-5 reads both of its blocks and then writes both. The two disks go their own
ways, but the status entries only move forward, the write phase begins on both entries at once, when the second
read finishes, and the request is reported done when the second write finishes.
-/

namespace Cs537.Graphics

/-- The status that follows in a small write. -/
def ReqStatus.next : ReqStatus → ReqStatus
  | .notStarted => .doRead
  | .doRead => .parityReadPhaseDone
  | .parityReadPhaseDone => .parityWritePhaseBegin
  | .parityWritePhaseBegin => .doWrite
  | .doWrite => .done
  | .done => .done

/-! ## One request -/

namespace Kind

/-- A step of a small write. The completion of the second read passes through `parityReadPhaseDone`. -/
def PhaseStep (x y : Fin 2 → Entry) : Prop :=
  (∀ e, (y e).status = (x e).status ∨ (y e).status = (x e).status.next
      ∨ ((x e).status = .doRead ∧ (y e).status = .parityWritePhaseBegin))
    ∧ ∀ e, (x e).status ≠ .parityWritePhaseBegin → (y e).status = .parityWritePhaseBegin →
      ∀ e', ((x e').status = .doRead ∨ (x e').status = .parityReadPhaseDone)
        ∧ (y e').status = .parityWritePhaseBegin ∧ .read ∈ (y e').performed

instance (x y : Fin 2 → Entry) : Decidable (PhaseStep x y) := inferInstanceAs (Decidable (_ ∧ _))

/-- Checked over all configurations: a start is a step of the phases, and a write comes behind both reads. -/
private theorem check_start_phase : ∀ x ∈ smallWrite.locals, ∀ e : Fin 2, (x e).flight = none →
    (smallWrite.start (fun i => (x i).status) e).all (fun r =>
      PhaseStep x (afterStart x r.2 e r.1) ∧ (r.1 = .write → ∀ e', .read ∈ (x e').performed)) = true := by
  decide +kernel

/-- Checked over all configurations: an end is a step of the phases, and the second write completes the request. -/
private theorem check_finish_phase : ∀ x ∈ smallWrite.locals, ∀ e : Fin 2, ∀ op ∈ (x e).flight,
    (smallWrite.finish (fun i => (x i).status) e).all (fun r =>
      PhaseStep x (afterFinish x r.1 e op)
        ∧ (r.2 = true ↔ op = .write ∧ .write ∈ (x (1 - e)).performed)) = true := by
  decide +kernel

/-- A small write is complete when both blocks have been written. -/
theorem complete_smallWrite_iff : ∀ x ∈ smallWrite.locals,
    (smallWrite.Complete x ↔ ∀ e, .write ∈ (x e).performed) := by
  decide +kernel

variable {x : Fin 2 → Entry} {e : Fin 2} {op : OpType} {status : Statuses} {done : Bool}

/-- A start is a step of the phases. -/
theorem phaseStep_start (hx : x ∈ smallWrite.locals) (hflight : (x e).flight = none)
    (hstart : smallWrite.start (fun i => (x i).status) e = some (op, status)) :
    PhaseStep x (afterStart x status e op) ∧ (op = .write → ∀ e', .read ∈ (x e').performed) := by
  have hcheck := check_start_phase x hx e hflight
  rw [hstart] at hcheck
  exact of_decide_eq_true hcheck

/-- An end is a step of the phases. -/
theorem phaseStep_finish (hx : x ∈ smallWrite.locals) (hflight : (x e).flight = some op)
    (hfinish : smallWrite.finish (fun i => (x i).status) e = some (status, done)) :
    PhaseStep x (afterFinish x status e op)
      ∧ (done = true ↔ op = .write ∧ .write ∈ (x (1 - e)).performed) := by
  have hcheck := check_finish_phase x hx e op hflight
  rw [hfinish] at hcheck
  exact of_decide_eq_true hcheck

/-- Nothing has to happen. -/
theorem phaseStep_refl (x : Fin 2 → Entry) : PhaseStep x x :=
  ⟨fun _ => .inl rfl, fun _ hne heq => absurd heq hne⟩

end Kind

variable {c : Config} {e : Fin 2}

/-- A write that is served by subtractive parity. -/
def Config.TwoPhase (c : Config) (i : c.Index) : Prop :=
  (c.request i).opType = .write
    ∧ (c.mapping = .raid5 ∨ (c.mapping = .raid4 ∧ (c.request i).fullStripeWrite = false))

namespace Config

variable {i : c.Index} {d d' : Disk}

/-- A two-phase write is a small write. -/
theorem TwoPhase.kind_eq (h : c.TwoPhase i) : c.kind i = .smallWrite := by
  obtain ⟨hop, hmapping | ⟨hmapping, hfull⟩⟩ := h
  · unfold kind Request.kind
    rw [hmapping, hop]
  · unfold kind Request.kind
    rw [hmapping, hop, hfull]
    rfl

/-- The disks of a request are those of its entries. -/
theorem mem_physDiskList : d ∈ (c.request i).physDiskList ↔ ∃ e, (c.request i).diskIndex d = some e := by
  simp only [diskIndex_eq_some_iff]
  rcases c.physDiskList_cases i with ⟨-, a, hlist⟩ | ⟨-, a, b, -, hlist⟩
  · rw [hlist]
    simp [Fin.exists_fin_two, eq_comm]
  · rw [hlist]
    simp [Fin.exists_fin_two, eq_comm]

/-- Both entries of a small write have a disk. -/
theorem TwoPhase.exists_disk (h : c.TwoPhase i) (e : Fin 2) : ∃ d, (c.request i).diskIndex d = some e := by
  simp only [diskIndex_eq_some_iff]
  rcases c.physDiskList_cases i with ⟨hmapping, -⟩ | ⟨-, a, b, -, hlist⟩
  · rcases h.2 with hfive | hfour
    · rw [hmapping] at hfive
      cases hfive
    · rw [hmapping] at hfour
      cases hfour.1
  · rw [hlist]
    fin_cases e
    · exact ⟨a, rfl⟩
    · exact ⟨b, rfl⟩

/-- The other disk of a request is on the other entry. -/
theorem diskIndex_other (he : (c.request i).diskIndex d = some e) (hne : d' ≠ d)
    (hd' : d' ∈ (c.request i).physDiskList) : (c.request i).diskIndex d' = some (1 - e) := by
  obtain ⟨e', he'⟩ := mem_physDiskList.mp hd'
  have hentry : e' ≠ e := by
    rintro rfl
    rw [diskIndex_eq_some_iff] at he he'
    exact hne (Option.some_injective _ (he'.symm.trans he))
  rw [he']
  fin_cases e <;> fin_cases e' <;> first | rfl | exact absurd rfl hentry

end Config

/-! ## Runs -/

namespace Core

variable {s s' : Core c} {m : Move c} {d : Disk} {i : c.Index} {op : OpType} {status : Statuses} {done : Bool}

/-- How a move changes the statuses of a small write. Each entry stays or takes the next status; the read that
finishes last begins the write phase on both entries. -/
structure PhaseStep (s s' : Core c) (i : c.Index) : Prop where
  forward : ∀ e, s'.status i e = s.status i e ∨ s'.status i e = (s.status i e).next
    ∨ (s.status i e = .doRead ∧ s'.status i e = .parityWritePhaseBegin)
  together : ∀ e, s.status i e ≠ .parityWritePhaseBegin → s'.status i e = .parityWritePhaseBegin →
    ∀ e', (s.status i e' = .doRead ∨ s.status i e' = .parityReadPhaseDone)
      ∧ s'.status i e' = .parityWritePhaseBegin
  read : ∀ e, s.status i e ≠ .parityWritePhaseBegin → s'.status i e = .parityWritePhaseBegin →
    ∀ d ∈ (c.request i).physDiskList, Event.mk .finish d i .read ∈ s'.log

/-- Every write of the request was started after both of its reads had finished. -/
def WritesAfterReads (log : List (Event c)) (i : c.Index) : Prop :=
  ∀ (d : Disk) (before after : List (Event c)), log = before ++ Event.mk .start d i .write :: after →
    ∀ d' ∈ (c.request i).physDiskList, Event.mk .finish d' i .read ∈ before

/-- The operations performed on an entry have been logged as finished on its disk. -/
theorem finish_mem_of_performed (he : (c.request i).diskIndex d = some e) :
    op ∈ (s.config i e).performed ↔ Event.mk .finish d i op ∈ s.log := by
  rw [performed_eq he, mem_performedOn]

/-- **One move is a step of the phases.** -/
theorem Inv.phaseStep (h : s.Inv) (htwo : c.TwoPhase i) (hstep : (free c).step m s = some s') :
    s.PhaseStep s' i := by
  have hlocals := h.locals i
  have hconfig := config_cases hstep i
  rw [htwo.kind_eq] at hlocals hconfig
  have hphase : Kind.PhaseStep (s.config i) (s'.config i) := by
    rcases hconfig with heq | ⟨e, op, status, hflight, hstart, heq⟩ | ⟨e, op, status, done, hflight, hfinish, heq⟩
    · rw [heq]
      exact Kind.phaseStep_refl _
    · rw [heq]
      exact (Kind.phaseStep_start hlocals hflight hstart).1
    · rw [heq]
      exact (Kind.phaseStep_finish hlocals hflight hfinish).1
  obtain ⟨hforward, htogether⟩ := hphase
  refine ⟨hforward, fun e hne heq e' => ?_, fun e hne heq d hd => ?_⟩
  · obtain ⟨hbefore, hafter, -⟩ := htogether e hne heq e'
    exact ⟨hbefore, hafter⟩
  · obtain ⟨e', he'⟩ := Config.mem_physDiskList.mp hd
    exact (finish_mem_of_performed he').mp (htogether e hne heq e').2.2

/-- Picking a request for a write finds both reads performed. -/
theorem Inv.read_of_picks (h : s.Inv) (htwo : c.TwoPhase i) (hpicks : s.Picks d i .write status) :
    ∀ d' ∈ (c.request i).physDiskList, Event.mk .finish d' i .read ∈ s.log := by
  intro d' hd'
  obtain ⟨e, -, hflight, hstart⟩ := hpicks.exists_entry
  obtain ⟨e', he'⟩ := Config.mem_physDiskList.mp hd'
  have hlocals := h.locals i
  rw [htwo.kind_eq] at hlocals hstart
  exact (finish_mem_of_performed he').mp ((Kind.phaseStep_start hlocals hflight hstart).2 rfl e')

/-- In every order of moves, the writes come behind the reads. -/
theorem free_writesAfterReads (h : (free c).Reachable s) (htwo : c.TwoPhase i) : WritesAfterReads s.log i := by
  have hboth : s.Inv ∧ WritesAfterReads s.log i := by
    refine reachable_of_moves (P := fun t => t.Inv ∧ WritesAfterReads t.log i) h ?_ ?_ ?_ ?_
    · exact ⟨init_inv, fun d before after heq => by simp [Core.init] at heq⟩
    · rintro t d j op status ⟨hinv, hlog⟩ - hpicks
      refine ⟨hinv.start hpicks.idle hpicks.schedule, fun d' before after heq => ?_⟩
      rcases concat_eq_append_cons heq with ⟨rfl, hnew⟩ | ⟨after', hold⟩
      · cases hnew
        exact hinv.read_of_picks htwo hpicks
      · exact hlog d' before after' hold
    · rintro t d j op status done ⟨hinv, hlog⟩ hfinishes
      refine ⟨hinv.finishes hfinishes, fun d' before after heq => ?_⟩
      rcases concat_eq_append_cons heq with ⟨-, hnew⟩ | ⟨after', hold⟩
      · cases hnew
      · exact hlog d' before after' hold
    · rintro t ⟨hinv, hlog⟩
      exact ⟨hinv.stop, hlog⟩
  exact hboth.2

/-- A small write is reported done when a write finishes and the other disk has finished its own. -/
theorem Inv.done_iff (h : s.Inv) (htwo : c.TwoPhase i) (hfinishes : s.Finishes d i op status done) :
    done = true ↔ op = .write
      ∧ ∀ d' ∈ (c.request i).physDiskList, d' ≠ d → Event.mk .finish d' i .write ∈ s.log := by
  obtain ⟨e, he, hflight, hfinish⟩ := hfinishes.exists_entry
  have hlocals := h.locals i
  rw [htwo.kind_eq] at hlocals hfinish
  rw [(Kind.phaseStep_finish hlocals hflight hfinish).2]
  refine and_congr_right fun _ => ⟨fun hother d' hd' hne => ?_, fun hall => ?_⟩
  · exact (finish_mem_of_performed (Config.diskIndex_other he hne hd')).mp hother
  · obtain ⟨d', he'⟩ := htwo.exists_disk (1 - e)
    refine (finish_mem_of_performed he').mpr (hall d' (Config.mem_physDiskList.mpr ⟨_, he'⟩) ?_)
    rintro rfl
    rw [he, Option.some_inj] at he'
    fin_cases e <;> cases he'

/-- A two-phase write is complete when both of its disks have written. -/
theorem Inv.complete_iff (h : s.Inv) (htwo : c.TwoPhase i) : (c.kind i).Complete (s.config i)
    ↔ ∀ d ∈ (c.request i).physDiskList, Event.mk .finish d i .write ∈ s.log := by
  have hlocals := h.locals i
  rw [htwo.kind_eq] at hlocals ⊢
  rw [Kind.complete_smallWrite_iff _ hlocals]
  constructor
  · intro hall d hd
    obtain ⟨e, he⟩ := Config.mem_physDiskList.mp hd
    exact (finish_mem_of_performed he).mp (hall e)
  · intro hall e
    obtain ⟨d, he⟩ := htwo.exists_disk e
    exact (finish_mem_of_performed he).mpr (hall d (Config.mem_physDiskList.mpr ⟨e, he⟩))

end Core

/-- **The two phases of a small write.** Whatever the order in which the disks pick and finish: the statuses
only move forward, the write phase begins on both entries at once and after both reads, no write starts before,
and the request is reported done once, when the later of its two writes finishes. -/
theorem two_phase_writes (c : Config) {moves : List (Move c)} {s : Core c}
    (hrun : (free c).run moves (free c).init = some s) (i : c.Index) (h : c.TwoPhase i) :
    (∀ m s', (free c).step m s = some s' → s.PhaseStep s' i)
      ∧ Core.WritesAfterReads s.log i
      ∧ (∀ d op status done, s.Finishes d i op status done → (done = true ↔ op = .write
        ∧ ∀ d' ∈ (c.request i).physDiskList, d' ≠ d → Event.mk .finish d' i .write ∈ s.log))
      ∧ ((free c).trace Core.reported moves (free c).init).count i
        = if ∀ d ∈ (c.request i).physDiskList, Event.mk .finish d i .write ∈ s.log then 1 else 0 := by
  have hreachable : (free c).Reachable s := ⟨moves, hrun⟩
  have hinv := Core.disks_inv hreachable
  refine ⟨fun m s' hstep => hinv.phaseStep h hstep, Core.free_writesAfterReads hreachable h,
    fun d op status done hfinishes => hinv.done_iff h hfinishes, ?_⟩
  have hcount := Core.init_inv.count_trace_reported hrun i
  rw [Core.config_init, if_neg (Kind.not_complete_fresh _), Nat.add_zero] at hcount
  exact hcount.trans (if_congr (hinv.complete_iff h) rfl rfl)

/-- The write of block 4, whose disks finish in different orders. -/
def sharedRowWrite : sharedRow.Index := ⟨1, by decide⟩

def sharedRowMoves : List (Move sharedRow) :=
  [.pick 1 sharedRowWrite, .pick 2 sharedRowWrite, .finish 2, .finish 1, .pick 1 sharedRowWrite,
    .pick 2 sharedRowWrite, .finish 1, .finish 2]

/-- The two disks of the shared row finish in different orders. -/
theorem two_phase_writes_sharedRow : ∃ s, (free sharedRow).run sharedRowMoves (free sharedRow).init = some s
    ∧ Core.WritesAfterReads s.log sharedRowWrite
    ∧ ((free sharedRow).trace Core.reported sharedRowMoves (free sharedRow).init).count sharedRowWrite = 1 := by
  have hall : ((free sharedRow).run sharedRowMoves (free sharedRow).init).any (fun s =>
      ∀ d ∈ (sharedRow.request sharedRowWrite).physDiskList,
        Event.mk .finish d sharedRowWrite .write ∈ s.log) = true := by decide
  obtain ⟨s, hrun, hwritten⟩ := (Option.any_eq_true _ _).mp hall
  obtain ⟨-, hlog, -, hcount⟩ := two_phase_writes sharedRow hrun sharedRowWrite ⟨by decide, .inl rfl⟩
  refine ⟨s, hrun, hlog, ?_⟩
  rw [hcount, if_pos (of_decide_eq_true hwritten)]

end Cs537.Graphics
