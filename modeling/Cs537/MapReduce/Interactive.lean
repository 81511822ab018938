import Mathlib.Algebra.Group.Nat.Defs
import Cs537.Lib.Transition
import Cs537.MapReduce.Partial

/-!
# Reduce functions that emit

Nothing keeps a reduce function from calling `MR_Emit`, from asking `get_next` for another key, or from returning before
the values of its key are used up. Here the map and reduce functions are free to do what the interface allows, in any
order, and `MR_Run` does the rest. What is emitted by a reduce function is appended to the sorted pairs, and the loop
hands out all of them in the order of the array.
-/

namespace Cs537.MapReduce

/-- Where `MR_Run` is: the map functions run, the condition of its loop is next, or a reduce function runs on a key. -/
inductive Phase
  | map
  | loop
  | reduce (key : CString)

/-- The list and the position, with the pairs that the map functions and the reduce functions have emitted, and the
values that `get_next` has returned, each with the key it was called with. -/
structure Session where
  phase : Phase
  kvl : KvList
  kvlCounter : ℕ
  mapped : List (CString × CString)
  late : List (CString × CString)
  handed : List (CString × CString)

/-- What happens next: a call of `MR_Emit`, the end of the map stage, a call of the reduce function, a call of
`get_next`, or the return of the reduce function. -/
inductive Call
  | emit (kv : CString × CString)
  | sort
  | invoke
  | getNext (key : CString)
  | finish

namespace Session

/-- The state at the beginning of `MR_Run`. -/
def init : Session where
  phase := .map
  kvl := initKvList 10
  kvlCounter := 0
  mapped := []
  late := []
  handed := []

/-- What the call does, where it is possible. -/
def step (Q : Qsort) (call : Call) (s : Session) : Option (Except Fault Session) :=
  match s.phase, call with
  | .map, .emit kv => some do
    let kvl ← mrEmit s.kvl kv
    return { s with kvl := kvl, mapped := s.mapped ++ [kv] }
  | .map, .sort => some do
    let kvl ← s.kvl.qsort Q
    return { s with kvl := kvl, kvlCounter := 0, phase := .loop }
  | .loop, .invoke =>
    if s.kvlCounter < s.kvl.numElements then some do
      let elt ← s.kvl.get s.kvlCounter
      return { s with phase := .reduce elt.key }
    else none
  | .reduce _, .emit kv => some do
    let kvl ← mrEmit s.kvl kv
    return { s with kvl := kvl, late := s.late ++ [kv] }
  | .reduce _, .getNext key => some do
    let (result, kvlCounter) ← getFunc s.kvl key s.kvlCounter
    return { s with kvlCounter := kvlCounter, handed := s.handed ++ result.toList.map fun v => (key, v) }
  | .reduce _, .finish => some (.ok { s with phase := .loop })
  | _, _ => none

end Session

/-- `MR_Run`, with map and reduce functions that may do anything. A fault ends the run. -/
def session (Q : Qsort) : Transition.System Session Call where
  init := Session.init
  step call s := (s.step Q call).bind Except.toOption

variable {Q : Qsort} {kvl kvl' : KvList} {kvs : List Kv}

/-! ## The size of the array -/

/-- The array is as long as the doublings make it, and not longer. -/
def KvList.Tight (kvl : KvList) : Prop :=
  ∃ k, kvl.size = 10 * 2 ^ k ∧ ∀ j < k, 10 * 2 ^ j < kvl.numElements

theorem KvList.Tight.congr (h : kvl.Tight) (hsize : kvl'.size = kvl.size) (hnum : kvl'.numElements = kvl.numElements) :
    kvl'.Tight := by
  obtain ⟨k, hk, hlt⟩ := h
  exact ⟨k, hsize.trans hk, fun j hj => hnum ▸ hlt j hj⟩

/-- An append takes a slot, and doubles the array when it is full. -/
theorem addToList_eq {elt : Kv} (hadd : addToList elt kvl = .ok kvl') : kvl'.numElements = kvl.numElements + 1
    ∧ kvl'.size = if kvl.numElements = kvl.size then kvl.size * 2 else kvl.size := by
  by_cases hfull : kvl.numElements = kvl.size
  all_goals
    simp only [addToList, hfull, if_true, if_false] at hadd
    split at hadd
    · cases hadd
      simp [hfull]
    · cases hadd

/-- The array doubles when it is full, for one more element. -/
theorem KvList.Tight.add (h : kvl.Tight) {elt : Kv} (hadd : addToList elt kvl = .ok kvl') : kvl'.Tight := by
  obtain ⟨k, hk, hlt⟩ := h
  obtain ⟨hnum, hsize⟩ := addToList_eq hadd
  by_cases hfull : kvl.numElements = kvl.size
  · refine ⟨k + 1, ?_, fun j hj => ?_⟩
    · rw [hsize, if_pos hfull, hk, pow_succ, Nat.mul_assoc]
    · rw [hnum]
      rcases Nat.lt_succ_iff_lt_or_eq.mp hj with hlt' | rfl
      · exact (hlt j hlt').trans (Nat.lt_succ_self _)
      · omega
  · refine ⟨k, ?_, fun j hj => ?_⟩
    · rw [hsize, if_neg hfull, hk]
    · rw [hnum]
      exact (hlt j hj).trans (Nat.lt_succ_self _)

/-- Sorting moves slots only. -/
theorem qsort_eq (hsort : kvl.qsort Q = .ok kvl') : kvl'.numElements = kvl.numElements ∧ kvl'.size = kvl.size := by
  obtain ⟨kvs, -, heq⟩ := Except.bind_eq_ok.mp hsort
  cases heq
  exact ⟨rfl, rfl⟩

/-! ## The invariant -/

namespace Session

variable {s s' : Session} {call : Call}

/-- The pairs to be handed out: those of the map functions in sorted order, and then those of the reduce functions. -/
def pairs (Q : Qsort) (s : Session) : List (CString × CString) :=
  (Q.sort (s.mapped.map toKv)).map Kv.pair ++ s.late

/-- The pairs in the array. While the map functions run, they are not sorted. -/
def stored (Q : Qsort) (s : Session) : List Kv :=
  match s.phase with
  | .map => s.mapped.map toKv
  | _ => Q.sort (s.mapped.map toKv) ++ s.late.map toKv

/-- What holds after every call. -/
structure Inv (Q : Qsort) (s : Session) : Prop where
  holds : s.kvl.Holds (s.stored Q)
  tight : s.kvl.Tight
  mapping : s.phase = .map → s.late = [] ∧ s.handed = []
  reducing : s.phase ≠ .map → s.kvlCounter ≤ (s.stored Q).length
    ∧ s.handed = ((s.stored Q).take s.kvlCounter).map Kv.pair

/-- The invariant holds before the first call. -/
theorem init_inv : init.Inv Q where
  holds := KvList.Holds.init (by decide)
  tight := ⟨0, rfl, fun j hj => absurd hj (Nat.not_lt_zero j)⟩
  mapping _ := ⟨rfl, rfl⟩
  reducing hne := absurd rfl hne

/-- Behind the map stage, the slots hold the sorted pairs and then the late ones. -/
theorem stored_pair (h : s.phase ≠ .map) : (s.stored Q).map Kv.pair = s.pairs Q := by
  have hstored : s.stored Q = Q.sort (s.mapped.map toKv) ++ s.late.map toKv := by
    unfold stored
    split
    · exact absurd ‹_› h
    · rfl
  rw [hstored, List.map_append, map_pair_toKv, pairs]

/-- A call of `MR_Emit` never fails. -/
theorem Inv.emit (h : s.Inv Q) (kv : CString × CString) :
    ∃ kvl, mrEmit s.kvl kv = .ok kvl ∧ kvl.Holds (s.stored Q ++ [toKv kv]) ∧ kvl.Tight := by
  obtain ⟨kvl, hadd, hholds⟩ := h.holds.add (toKv kv)
  exact ⟨kvl, hadd, hholds, h.tight.add hadd⟩

/-- A call of `get_next` hands out the pair at the position, if it has the key. -/
theorem Inv.getNext (h : s.Inv Q) (hphase : s.phase ≠ .map) (key : CString) :
    ∃ result kvlCounter, getFunc s.kvl key s.kvlCounter = .ok (result, kvlCounter)
      ∧ kvlCounter ≤ (s.stored Q).length
      ∧ s.handed ++ (result.toList.map fun v => (key, v)) = ((s.stored Q).take kvlCounter).map Kv.pair := by
  obtain ⟨hle, hhanded⟩ := h.reducing hphase
  rcases Nat.lt_or_ge s.kvlCounter (s.stored Q).length with hlt | hge
  · by_cases hkey : (s.stored Q)[s.kvlCounter].key = key
    · refine ⟨some (s.stored Q)[s.kvlCounter].value, s.kvlCounter + 1, ?_, hlt, ?_⟩
      · rw [h.holds.getFunc_elt key hlt, if_pos hkey]
      · rw [List.take_add_one, List.getElem?_eq_getElem hlt, List.map_append, hhanded, ← hkey]
        rfl
    · refine ⟨none, s.kvlCounter, ?_, hle, ?_⟩
      · rw [h.holds.getFunc_elt key hlt, if_neg hkey]
      · exact (List.append_nil _).trans hhanded
  · refine ⟨none, s.kvlCounter, ?_, hle, (List.append_nil _).trans hhanded⟩
    rw [le_antisymm hle hge]
    exact h.holds.getFunc_end key

/-- **No call fails**, and every call keeps the invariant. -/
theorem Inv.step (h : s.Inv Q) {r : Except Fault Session} (hstep : s.step Q call = some r) :
    ∃ s', r = .ok s' ∧ s'.Inv Q := by
  obtain ⟨phase, kvl, kvlCounter, mapped, late, handed⟩ := s
  cases phase with
  | map =>
    obtain ⟨hlate, hhanded⟩ := h.mapping rfl
    cases call with
    | emit kv =>
      obtain ⟨kvl', hemit, hholds, htight⟩ := h.emit kv
      cases hstep
      refine ⟨_, Except.bind_eq_ok.mpr ⟨kvl', hemit, rfl⟩, ?_, htight, h.mapping, fun hne => absurd rfl hne⟩
      simpa [stored] using hholds
    | sort =>
      obtain ⟨kvl', hsort, hholds⟩ := h.holds.qsort Q
      obtain ⟨hnum, hsize⟩ := qsort_eq hsort
      cases hstep
      refine ⟨_, Except.bind_eq_ok.mpr ⟨kvl', hsort, rfl⟩, ?_, h.tight.congr hsize hnum, nofun, fun _ => ?_⟩
      · simpa [stored, show late = [] from hlate] using hholds
      · exact ⟨Nat.zero_le _, hhanded⟩
    | invoke | getNext | finish => cases hstep
  | loop =>
    cases call with
    | invoke =>
      obtain ⟨hlt, hstep⟩ := Option.ite_none_right_eq_some.mp hstep
      have hlt' : kvlCounter < (stored Q ⟨.loop, kvl, kvlCounter, mapped, late, handed⟩).length :=
        h.holds.numElements_eq ▸ hlt
      cases hstep
      -- the loop reads the next key and leaves everything as it is
      exact ⟨_, Except.bind_eq_ok.mpr ⟨_, h.holds.get_eq hlt', rfl⟩, h.holds, h.tight, nofun, fun _ => h.reducing nofun⟩
    | emit | sort | getNext | finish => cases hstep
  | reduce running =>
    cases call with
    | emit kv =>
      obtain ⟨kvl', hemit, hholds, htight⟩ := h.emit kv
      obtain ⟨hle, hhanded⟩ := h.reducing nofun
      cases hstep
      refine ⟨_, Except.bind_eq_ok.mpr ⟨kvl', hemit, rfl⟩, ?_, htight, nofun, fun _ => ?_⟩
      · simpa [stored] using hholds
      · -- a late pair goes behind the others, where the counter has not been
        have hstored : stored Q ⟨.reduce running, kvl', kvlCounter, mapped, late ++ [kv], handed⟩
            = stored Q ⟨.reduce running, kvl, kvlCounter, mapped, late, handed⟩ ++ [toKv kv] := by
          simp [stored]
        rw [hstored, List.length_append, List.take_append_of_le_length hle]
        exact ⟨hle.trans (Nat.le_add_right _ _), hhanded⟩
    | getNext key =>
      obtain ⟨result, kvlCounter', hget, hle, hhanded⟩ := h.getNext nofun key
      cases hstep
      exact ⟨_, Except.bind_eq_ok.mpr ⟨_, hget, rfl⟩, h.holds, h.tight, nofun, fun _ => ⟨hle, hhanded⟩⟩
    | finish =>
      cases hstep
      exact ⟨_, rfl, h.holds, h.tight, nofun, fun _ => h.reducing nofun⟩
    | sort | invoke => cases hstep

/-- **One call keeps the invariant.** -/
theorem Inv.of_step (h : s.Inv Q) (hstep : (session Q).step call s = some s') : s'.Inv Q := by
  obtain ⟨r, hr, hok⟩ := Option.bind_eq_some_iff.mp hstep
  obtain ⟨t, rfl, ht⟩ := h.step hr
  cases hok
  exact ht

/-- **Every session keeps the invariant.** -/
theorem reachable_inv (h : (session Q).Reachable s) : s.Inv Q :=
  h.invariant init_inv fun _ _ _ hstep ht => ht.of_step hstep

/-- Every pair takes one slot. -/
theorem Inv.numElements_eq (h : s.Inv Q) : s.kvl.numElements = (s.mapped ++ s.late).length := by
  rw [h.holds.numElements_eq, List.length_append]
  by_cases hphase : s.phase = .map
  · rw [stored, hphase, (h.mapping hphase).1]
    exact List.length_map _
  · have hlen := congrArg List.length (stored_pair (Q := Q) hphase)
    rw [List.length_map, pairs, List.length_append, List.length_map, (Q.perm _).length_eq, List.length_map] at hlen
    exact hlen

/-! ## The first call of `get_next` -/

/-- The reduce function runs on the key of the pair at the position. -/
structure Offers (Q : Qsort) (key value : CString) (s : Session) : Prop where
  phase : s.phase = .reduce key
  stored : (s.stored Q)[s.kvlCounter]? = some ⟨key, value⟩

variable {key value : CString} {kv : CString × CString}

/-- An invocation of the loop has a first pair to offer. -/
theorem Inv.invoke (h : s.Inv Q) (hstep : (session Q).step .invoke s = some s') :
    ∃ key value, s'.Offers Q key value := by
  obtain ⟨phase, kvl, kvlCounter, mapped, late, handed⟩ := s
  obtain ⟨r, hr, hok⟩ := Option.bind_eq_some_iff.mp hstep
  cases phase with
  | loop =>
    obtain ⟨hlt, hr⟩ := Option.ite_none_right_eq_some.mp hr
    have hlt' : kvlCounter < (Session.stored Q ⟨.loop, kvl, kvlCounter, mapped, late, handed⟩).length :=
      h.holds.numElements_eq ▸ hlt
    cases hr
    dsimp only at hok
    rw [h.holds.get_eq hlt'] at hok
    cases hok
    exact ⟨_, _, rfl, List.getElem?_eq_getElem hlt'⟩
  | map | reduce => cases hr

/-- What a reduce function emits is behind the pairs that are still to come. -/
theorem Offers.emit (h : s.Offers Q key value) (hstep : (session Q).step (.emit kv) s = some s') :
    s'.Offers Q key value := by
  obtain ⟨phase, kvl, kvlCounter, mapped, late, handed⟩ := s
  obtain ⟨hphase, hstored⟩ := h
  obtain ⟨r, hr, hok⟩ := Option.bind_eq_some_iff.mp hstep
  subst hphase
  cases hr
  cases hemit : mrEmit kvl kv with
  | error e =>
    rw [hemit] at hok
    cases hok
  | ok kvl' =>
    rw [hemit] at hok
    cases hok
    have hnext : Session.stored Q ⟨.reduce key, kvl', kvlCounter, mapped, late ++ [kv], handed⟩
        = Session.stored Q ⟨.reduce key, kvl, kvlCounter, mapped, late, handed⟩ ++ [toKv kv] := by
      simp [Session.stored]
    obtain ⟨hlt, -⟩ := List.getElem?_eq_some_iff.mp hstored
    refine ⟨rfl, ?_⟩
    rw [hnext, List.getElem?_append_left hlt]
    exact hstored

/-- The offered value is what `get_next` returns. -/
theorem Offers.getFunc_eq (h : s.Offers Q key value) (hinv : s.Inv Q) :
    getFunc s.kvl key s.kvlCounter = .ok (some value, s.kvlCounter + 1) := by
  obtain ⟨hlt, helt⟩ := List.getElem?_eq_some_iff.mp h.stored
  rw [hinv.holds.getFunc_elt key hlt, helt, if_pos rfl]

/-- Whatever the reduce function emits first, its first call of `get_next` on its own key returns a value. -/
theorem Inv.getFunc_first (h : s.Inv Q) {t : Session} {emits : List (CString × CString)}
    (hstep : (session Q).step .invoke s = some t) (hrun : (session Q).run (emits.map .emit) t = some s') :
    ∃ key value, s'.phase = .reduce key ∧ getFunc s'.kvl key s'.kvlCounter = .ok (some value, s'.kvlCounter + 1) := by
  obtain ⟨key, value, hoffers⟩ := h.invoke hstep
  have hinv : s'.Inv Q := (session Q).run_invariant (fun _ _ _ hstep hu => hu.of_step hstep) hrun (h.of_step hstep)
  suffices hlast : s'.Offers Q key value from ⟨key, value, hlast.phase, hlast.getFunc_eq hinv⟩
  clear hinv hstep
  induction emits generalizing t with
  | nil =>
    cases hrun
    exact hoffers
  | cons kv emits ih =>
    obtain ⟨u, hfirst, hrest⟩ := Option.bind_eq_some_iff.mp hrun
    exact ih hrest (hoffers.emit hfirst)

end Session

/-! ## Map and reduce functions as sessions -/

section

variable {L : Type} {R : Reducer L} {calls fuel c : ℕ} {l : L}

/-- An emission of a map function is a call of the session. -/
theorem session_emit {mapped late before : List (CString × CString)} {kv : CString × CString}
    (hemit : mrEmit kvl kv = .ok kvl') :
    (session Q).step (.emit kv) ⟨.map, kvl, c, mapped, late, before⟩
      = some ⟨.map, kvl', c, mapped ++ [kv], late, before⟩ := by
  show Except.toOption (mrEmit kvl kv >>= _) = _
  rw [hemit]
  rfl

/-- So is a list of emissions. -/
theorem session_emitAll {mapped late before pairs : List (CString × CString)}
    (hemit : pairs.foldlM mrEmit kvl = .ok kvl') :
    (session Q).run (pairs.map .emit) ⟨.map, kvl, c, mapped, late, before⟩
      = some ⟨.map, kvl', c, mapped ++ pairs, late, before⟩ := by
  induction pairs generalizing kvl mapped with
  | nil =>
    cases hemit
    rw [List.append_nil]
    rfl
  | cons kv pairs ih =>
    obtain ⟨kvl₁, hfirst, hrest⟩ := Except.foldlM_cons_eq_ok.mp hemit
    rw [List.map_cons, (session Q).run_cons (session_emit hfirst), ih hrest, List.append_assoc]
    rfl

/-- The map stage is a run of the session. -/
theorem session_mapStage {mapped late before : List (CString × CString)} {E : Type} {map : Mapper E}
    {args : List CString} {env : E} (hmap : mapStage map args env kvl = .ok kvl') :
    (session Q).run ((emitted map args env).map .emit) ⟨.map, kvl, c, mapped, late, before⟩
      = some ⟨.map, kvl', c, mapped ++ emitted map args env, late, before⟩ := by
  induction args generalizing kvl mapped env with
  | nil =>
    cases hmap
    rw [emitted, List.append_nil]
    rfl
  | cons arg args ih =>
    obtain ⟨kvl₁, hfirst, hrest⟩ := Except.bind_eq_ok.mp hmap
    rw [emitted, List.map_append, (session Q).run_append, session_emitAll hfirst, ← List.append_assoc]
    exact ih hrest

theorem handed_append (key : CString) (vs vs' : List CString) :
    handed (key, vs ++ vs') = handed (key, vs) ++ handed (key, vs') := List.map_append

/-- Sorting is a call of the session. -/
theorem session_sort {mapped late before : List (CString × CString)} (hsort : kvl.qsort Q = .ok kvl') :
    (session Q).step .sort ⟨.map, kvl, c, mapped, late, before⟩ = some ⟨.loop, kvl', 0, mapped, late, before⟩ := by
  show Except.toOption (kvl.qsort Q >>= _) = _
  rw [hsort]
  rfl

/-- What a reduce function asks for is a run of the session. -/
theorem session_callReduce (running : CString) {key : CString} {out : Outcome L}
    (mapped late before : List (CString × CString)) (hcall : callReduce R kvl key fuel c l = .ok out) :
    ∃ n, (session Q).run (List.replicate n (.getNext key)) ⟨.reduce running, kvl, c, mapped, late, before⟩
      = some ⟨.reduce running, kvl, out.kvlCounter, mapped, late, before ++ handed (key, out.values)⟩ := by
  induction fuel generalizing c l out before with
  | zero => cases hcall
  | succ fuel ih =>
    unfold callReduce at hcall
    obtain ⟨⟨result, c'⟩, hget, hcall⟩ := Except.bind_eq_ok.mp hcall
    have hstep : (session Q).step (.getNext key) ⟨.reduce running, kvl, c, mapped, late, before⟩
        = some ⟨.reduce running, kvl, c', mapped, late, before ++ handed (key, result.toList)⟩ := by
      show Except.toOption (getFunc kvl key c >>= _) = _
      rw [hget]
      rfl
    dsimp only at hcall
    split at hcall
    · obtain ⟨rest, hrest, hcall⟩ := Except.bind_eq_ok.mp hcall
      obtain ⟨n, hrun⟩ := ih (before ++ handed (key, result.toList)) hrest
      cases hcall
      refine ⟨n + 1, ?_⟩
      rw [List.replicate_succ, (session Q).run_cons hstep, hrun, handed_append, List.append_assoc]
    · cases hcall
      exact ⟨1, (session Q).run_cons hstep⟩

/-- The loop of the reduce stage is a run of the session. -/
theorem session_reduceStage {invocations : List (CString × List CString)}
    (mapped late before : List (CString × CString))
    (hstage : reduceStage R kvl calls fuel c l = .ok invocations) :
    ∃ cs c', (session Q).run cs ⟨.loop, kvl, c, mapped, late, before⟩
      = some ⟨.loop, kvl, c', mapped, late, before ++ invocations.flatMap handed⟩ ∧ kvl.numElements ≤ c' := by
  induction fuel generalizing c l invocations before with
  | zero => cases hstage
  | succ fuel ih =>
    unfold reduceStage at hstage
    split at hstage
    · rename_i hlt
      obtain ⟨elt, hget, hstage⟩ := Except.bind_eq_ok.mp hstage
      obtain ⟨out, hcall, hstage⟩ := Except.bind_eq_ok.mp hstage
      obtain ⟨rest, hrest, hstage⟩ := Except.bind_eq_ok.mp hstage
      cases hstage
      have hinvoke : (session Q).step .invoke ⟨.loop, kvl, c, mapped, late, before⟩
          = some ⟨.reduce elt.key, kvl, c, mapped, late, before⟩ := by
        show Option.bind (if c < kvl.numElements then _ else none) Except.toOption = _
        rw [if_pos hlt, hget]
        rfl
      obtain ⟨n, hreduce⟩ := session_callReduce (Q := Q) elt.key mapped late before hcall
      obtain ⟨cs, c', hrun, hle⟩ := ih (before ++ handed (elt.key, out.values)) hrest
      refine ⟨.invoke :: (List.replicate n (.getNext elt.key) ++ .finish :: cs), c', ?_, hle⟩
      rw [(session Q).run_cons hinvoke, (session Q).run_append, hreduce]
      refine Eq.trans hrun ?_
      rw [List.flatMap_cons, List.append_assoc]
    · cases hstage
      exact ⟨[], c, by rw [List.flatMap_nil, List.append_nil]; rfl, by omega⟩

end

/-- Map and reduce functions that compute are sessions: what an invocation is handed there it is handed here. -/
theorem mrRun_session {E L : Type} {R : Reducer L} {map : Mapper E} {calls fuel : ℕ} {argv : List CString} {env : E}
    {l : L} {invocations : List (CString × List CString)}
    (hrun : mrRun Q map R calls fuel argv env l = .ok invocations) :
    ∃ s, (session Q).Reachable s ∧ s.phase = .loop ∧ s.kvl.numElements ≤ s.kvlCounter
      ∧ s.mapped = emitted map (argv.drop 1) env ∧ s.late = [] ∧ s.handed = invocations.flatMap handed := by
  obtain ⟨kvl₁, hmap, hrun⟩ := Except.bind_eq_ok.mp hrun
  obtain ⟨kvl₂, hsort, hstage⟩ := Except.bind_eq_ok.mp hrun
  have hmapped : (session Q).run ((emitted map (argv.drop 1) env).map .emit) Session.init
      = some ⟨.map, kvl₁, 0, emitted map (argv.drop 1) env, [], []⟩ := session_mapStage hmap
  obtain ⟨cs, c', hreduced, hle⟩ := session_reduceStage (Q := Q) (emitted map (argv.drop 1) env) [] [] hstage
  refine ⟨⟨.loop, kvl₂, c', emitted map (argv.drop 1) env, [], invocations.flatMap handed⟩,
    ⟨(emitted map (argv.drop 1) env).map .emit ++ .sort :: cs, ?_⟩, rfl, hle, rfl, rfl, rfl⟩
  show (session Q).run _ Session.init = _
  rw [(session Q).run_append, hmapped]
  exact ((session Q).run_cons (session_sort hsort)).trans hreduced

/-- **MapReduce hands out everything**, whatever the map and reduce functions emit, ask for and leave behind. No call
fails; the values are handed out in the order of the array, each under the key that it was asked for, first those of the
map functions in sorted order and then those of the reduce functions; at the end of the loop all of them have been; and
an invocation whose first call of `get_next` is for its own key gets a value. -/
theorem interactive_reducers (Q : Qsort) {s : Session} (h : (session Q).Reachable s) :
    (∀ call r, s.step Q call = some r → ∃ s', r = .ok s')
      ∧ s.kvl.Tight ∧ s.kvl.numElements = (s.mapped ++ s.late).length
      ∧ (s.phase ≠ .map → s.handed = (s.pairs Q).take s.kvlCounter)
      ∧ (s.phase = .loop → s.kvl.numElements ≤ s.kvlCounter → s.handed = s.pairs Q)
      ∧ ∀ t s' (emits : List (CString × CString)), (session Q).step .invoke s = some t →
        (session Q).run (emits.map .emit) t = some s' →
        ∃ key value, s'.phase = .reduce key
          ∧ getFunc s'.kvl key s'.kvlCounter = .ok (some value, s'.kvlCounter + 1) := by
  have hinv := Session.reachable_inv h
  have hhanded : s.phase ≠ .map → s.handed = (s.pairs Q).take s.kvlCounter := fun hphase => by
    rw [(hinv.reducing hphase).2, ← Session.stored_pair hphase, List.map_take]
  refine ⟨fun call r hr => ?_, hinv.tight, hinv.numElements_eq, hhanded, fun hphase hend => ?_,
    fun t s' emits hstep hrun => hinv.getFunc_first hstep hrun⟩
  · obtain ⟨s', hs', -⟩ := hinv.step hr
    exact ⟨s', hs'⟩
  · have hne : s.phase ≠ .map := by rw [hphase]; exact nofun
    have hlen : (s.pairs Q).length = s.kvl.numElements := by
      rw [hinv.holds.numElements_eq, ← Session.stored_pair hne, List.length_map]
    rw [hhanded hne, List.take_of_length_le (hlen.trans_le hend)]

/-- A word that is emitted by a map function, and one that is emitted by a reduce function. -/
def early : CString := ⟨[98], by decide⟩

def later : CString := ⟨[97], by decide⟩

/-- The reduce function on the first word emits the second one, which is smaller, and asks for it too soon. -/
theorem interactive_reducers_later :
    ∃ s, (session Qsort.mergeSort).run [.emit (early, early), .sort, .invoke, .emit (later, later), .getNext later,
        .getNext early, .getNext early, .finish, .invoke, .getNext later, .finish] Session.init = some s
      ∧ s.late = [(later, later)] ∧ s.handed = s.pairs Qsort.mergeSort := by
  let kvl : KvList := ⟨some ⟨early, early⟩ :: List.replicate 9 none, 1, 10⟩
  have hqsort : kvl.qsort Qsort.mergeSort = .ok kvl := by
    show Except.ok (KvList.mk ((Qsort.mergeSort.sort [⟨early, early⟩]).map some ++ List.replicate 9 none) 1 10) = _
    rw [show Qsort.mergeSort.sort [⟨early, early⟩] = [⟨early, early⟩] from List.mergeSort_singleton _]
    rfl
  have hemit : (session Qsort.mergeSort).step (.emit (early, early)) Session.init
      = some ⟨.map, kvl, 0, [(early, early)], [], []⟩ := rfl
  have hstart : ∀ cs, (session Qsort.mergeSort).run (.emit (early, early) :: .sort :: cs) Session.init
      = (session Qsort.mergeSort).run cs ⟨.loop, kvl, 0, [(early, early)], [], []⟩ := fun cs =>
    ((session Qsort.mergeSort).run_cons hemit).trans ((session Qsort.mergeSort).run_cons (session_sort hqsort))
  have hrun := (hstart _).trans (show (session Qsort.mergeSort).run [.invoke, .emit (later, later), .getNext later,
    .getNext early, .getNext early, .finish, .invoke, .getNext later, .finish] _ = some _ from rfl)
  obtain ⟨-, -, -, -, hall, -⟩ := interactive_reducers Qsort.mergeSort ⟨_, hrun⟩
  exact ⟨_, hrun, rfl, hall rfl (by decide)⟩

end Cs537.MapReduce
