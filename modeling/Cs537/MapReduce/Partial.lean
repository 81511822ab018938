import Cs537.MapReduce.Grouping

/-!
# Reduce functions that stop early

Nothing makes a reduce function call `get_next` until it returns `NULL`. As long as each invocation makes
finitely many calls, the loop still hands out every pair once, in the order of the array: the first call of an
invocation always returns a value, and what an invocation leaves is left to the next one.
-/

namespace Cs537.MapReduce

variable {L : Type} {R : Reducer L} {kvl kvl' : KvList} {kvs : List Kv} {key : CString} {fuel fuel' c c' : ℕ} {l : L}
  {out : Outcome L}

/-- The loop of the reduce stage, started with the state `l₀`, comes to a position with a state of the reduce
function. -/
inductive Reaches (R : Reducer L) (kvl : KvList) (l₀ : L) : ℕ → L → Prop
  | init : Reaches R kvl l₀ 0 l₀
  | invoke {c calls : ℕ} {l : L} {elt : Kv} {out : Outcome L} : Reaches R kvl l₀ c l → c < kvl.numElements →
      kvl.get c = .ok elt → callReduce R kvl elt.key calls c (R.start elt.key l) = .ok out →
      Reaches R kvl l₀ out.kvlCounter out.state

/-- Every invocation that the loop makes calls `get_next` finitely many times. -/
def Reducer.Stops (R : Reducer L) (kvl : KvList) (l₀ : L) : Prop :=
  ∀ c l elt, Reaches R kvl l₀ c l → c < kvl.numElements → kvl.get c = .ok elt →
    ∃ calls, callReduce R kvl elt.key calls c (R.start elt.key l) ≠ .error .outOfFuel

/-- The pairs that an invocation has been given: its key with each of its values. -/
def handed (invocation : CString × List CString) : List (CString × CString) :=
  invocation.2.map fun v => (invocation.1, v)

/-! ## One invocation -/

/-- A call of `get_next` takes the next element or nothing. -/
theorem KvList.Holds.getFunc_takes (h : kvl.Holds kvs) (key : CString) (hc : c ≤ kvs.length) :
    ∃ result taken, getFunc kvl key c = .ok (result, c + taken.length)
      ∧ kvs.drop c = taken ++ kvs.drop (c + taken.length) ∧ result.toList = taken.map Kv.value
      ∧ ∀ elt ∈ taken, elt.key = key := by
  rcases Nat.lt_or_ge c kvs.length with hlt | hge
  · by_cases hkey : kvs[c].key = key
    · refine ⟨some kvs[c].value, [kvs[c]], ?_, List.drop_eq_getElem_cons hlt, rfl, fun elt helt => ?_⟩
      · rw [h.getFunc_elt key hlt, if_pos hkey]
        rfl
      · rw [List.mem_singleton.mp helt]
        exact hkey
    · refine ⟨none, [], ?_, rfl, rfl, fun elt helt => absurd helt List.not_mem_nil⟩
      rw [h.getFunc_elt key hlt, if_neg hkey]
      rfl
  · obtain rfl : c = kvs.length := by omega
    exact ⟨none, [], h.getFunc_end key, rfl, rfl, fun elt helt => absurd helt List.not_mem_nil⟩

/-- An invocation takes the elements that follow, all with its key, or runs out of fuel. -/
theorem callReduce_takes (h : kvl.Holds kvs) (R : Reducer L) (key : CString) (fuel : ℕ) (l : L)
    (hc : c ≤ kvs.length) :
    callReduce R kvl key fuel c l = .error .outOfFuel
      ∨ ∃ state taken, callReduce R kvl key fuel c l
          = .ok { kvlCounter := c + taken.length, state := state, values := taken.map Kv.value }
        ∧ kvs.drop c = taken ++ kvs.drop (c + taken.length) ∧ ∀ elt ∈ taken, elt.key = key := by
  induction fuel generalizing c l with
  | zero => exact .inl rfl
  | succ fuel ih =>
    obtain ⟨result, first, hget, hfirst, hvalues, hkeys⟩ := h.getFunc_takes key hc
    unfold callReduce
    rw [hget]
    dsimp only [bind, Except.bind]
    -- the function asks again, or returns
    by_cases hmore : R.more (R.receive l result) = true
    · have hle : c + first.length ≤ kvs.length := by
        have hlen := congrArg List.length hfirst
        rw [List.length_append, List.length_drop, List.length_drop] at hlen
        omega
      rw [if_pos hmore]
      rcases ih (R.receive l result) hle with hfuel | ⟨state, taken, hcall, hdrop, hkeys'⟩
      · rw [hfuel]
        exact .inl rfl
      · rw [hcall]
        refine .inr ⟨state, first ++ taken, ?_, ?_, fun elt helt => ?_⟩
        · show Except.ok _ = Except.ok _
          rw [List.length_append, List.map_append, hvalues, Nat.add_assoc]
        · rw [hfirst, hdrop, List.length_append, Nat.add_assoc, List.append_assoc]
        · exact (List.mem_append.mp helt).elim (hkeys elt) (hkeys' elt)
    · rw [if_neg hmore]
      refine .inr ⟨R.receive l result, first, ?_, hfirst, hkeys⟩
      rw [hvalues]
      rfl

/-- The first call of an invocation returns a value. -/
theorem callReduce_advances (h : kvl.Holds kvs) (hc : c < kvs.length)
    (hcall : callReduce R kvl kvs[c].key fuel c l = .ok out) : c < out.kvlCounter := by
  cases fuel with
  | zero => cases hcall
  | succ fuel =>
    unfold callReduce at hcall
    rw [h.getFunc_elt _ hc, if_pos rfl] at hcall
    dsimp only [bind, Except.bind] at hcall
    split at hcall
    · rcases callReduce_takes h R kvs[c].key fuel (R.receive l (some kvs[c].value))
        (show c + 1 ≤ kvs.length by omega) with hfuel | ⟨state, taken, hrest, -, -⟩
      · rw [hfuel] at hcall
        cases hcall
      · rw [hrest] at hcall
        cases hcall
        show c < c + 1 + taken.length
        omega
    · cases hcall
      exact Nat.lt_succ_self c

/-- A bound on the calls that is not reached does not matter. -/
theorem callReduce_mono (hcall : callReduce R kvl key fuel c l = .ok out) (hle : fuel ≤ fuel') :
    callReduce R kvl key fuel' c l = .ok out := by
  induction fuel generalizing fuel' c l out with
  | zero => cases hcall
  | succ fuel ih =>
    obtain ⟨fuel', rfl⟩ : ∃ n, fuel' = n + 1 := ⟨fuel' - 1, by omega⟩
    unfold callReduce at hcall ⊢
    obtain ⟨⟨result, c'⟩, hget, hcall⟩ := Except.bind_eq_ok.mp hcall
    rw [hget]
    dsimp only [bind, Except.bind] at hcall ⊢
    split at hcall
    · rename_i hmore
      rw [if_pos hmore]
      cases hrest : callReduce R kvl key fuel c' (R.receive l result) with
      | error e =>
        rw [hrest] at hcall
        cases hcall
      | ok rest =>
        rw [hrest] at hcall
        rw [ih hrest (by omega)]
        exact hcall
    · rename_i hmore
      rw [if_neg hmore]
      exact hcall

/-! ## The loop -/

/-- At the end of the list the loop stops. -/
theorem reduceStage_end (hc : kvl.numElements ≤ c) {calls : ℕ} (hfuel : 0 < fuel) :
    reduceStage R kvl calls fuel c l = .ok [] := by
  obtain ⟨fuel, rfl⟩ : ∃ n, fuel = n + 1 := ⟨fuel - 1, by omega⟩
  unfold reduceStage
  rw [if_neg (by omega)]
  rfl

/-- Before the end, the loop invokes the reduce function for the next key. -/
theorem reduceStage_invoke {elt : Kv} (hc : c < kvl.numElements) (hget : kvl.get c = .ok elt) {calls : ℕ}
    (hcall : callReduce R kvl elt.key calls c (R.start elt.key l) = .ok out)
    {rest : List (CString × List CString)}
    (hrest : reduceStage R kvl calls fuel out.kvlCounter out.state = .ok rest) :
    reduceStage R kvl calls (fuel + 1) c l = .ok ((elt.key, out.values) :: rest) := by
  unfold reduceStage
  rw [if_pos hc, hget]
  dsimp only [bind, Except.bind]
  rw [hcall]
  dsimp only
  rw [hrest]
  rfl

/-- From any position that the loop reaches, it hands out the pairs still to come, in as many invocations at
most. The measure is their number, and each invocation takes at least one of them. -/
theorem reduceStage_partial {l₀ : L} (h : kvl.Holds kvs) (hstops : R.Stops kvl l₀) (hreaches : Reaches R kvl l₀ c l)
    (hc : c ≤ kvs.length) :
    ∃ calls₀ invocations, (∀ calls ≥ calls₀, ∀ fuel, kvs.length - c < fuel →
        reduceStage R kvl calls fuel c l = .ok invocations)
      ∧ invocations.length ≤ kvs.length - c ∧ invocations.flatMap handed = (kvs.drop c).map Kv.pair := by
  have hnum := h.numElements_eq
  induction hn : kvs.length - c using Nat.strong_induction_on generalizing c l with
  | _ n ih =>
    subst hn
    rcases Nat.lt_or_ge c kvs.length with hlt | hge
    · have hget := h.get_eq hlt
      obtain ⟨calls₁, hfinite⟩ := hstops c l kvs[c] hreaches (by omega) hget
      rcases callReduce_takes h R kvs[c].key calls₁ (R.start kvs[c].key l) hc with hfuel
        | ⟨state, taken, hcall, hdrop, hkeys⟩
      · exact absurd hfuel hfinite
      -- every invocation takes a pair at least, so that fewer are left to the rest of the loop
      have hadvance := callReduce_advances h hlt hcall
      dsimp only at hadvance
      have hle : c + taken.length ≤ kvs.length := by
        have hlen := congrArg List.length hdrop
        rw [List.length_append, List.length_drop, List.length_drop] at hlen
        omega
      obtain ⟨calls₂, rest, hrest, hlength, hhanded⟩ :=
        ih (kvs.length - (c + taken.length)) (by omega) (hreaches.invoke (by omega) hget hcall) hle rfl
      -- calls enough for this invocation and for those behind it
      refine ⟨max calls₁ calls₂, (kvs[c].key, taken.map Kv.value) :: rest, fun calls hcalls fuel hfuel => ?_, ?_, ?_⟩
      · obtain ⟨fuel, rfl⟩ : ∃ n, fuel = n + 1 := ⟨fuel - 1, by omega⟩
        refine reduceStage_invoke (by omega) hget (callReduce_mono hcall (le_trans (le_max_left _ _) hcalls)) ?_
        exact hrest calls (le_trans (le_max_right _ _) hcalls) fuel (by omega)
      · rw [List.length_cons]
        omega
      · have hpairs : handed (kvs[c].key, taken.map Kv.value) = taken.map Kv.pair := by
          unfold handed
          rw [List.map_map]
          refine List.map_congr_left fun elt helt => ?_
          rw [← hkeys elt helt]
          rfl
        rw [List.flatMap_cons, hpairs, hhanded, hdrop, List.map_append]
    · refine ⟨0, [], fun calls _ fuel hfuel => reduceStage_end (by omega) (by omega), Nat.zero_le _, ?_⟩
      rw [List.drop_eq_nil_of_le hge]
      rfl

/-! ## The slots that are read -/

/-- Two lists agree on their elements. -/
structure KvList.Agrees (kvl kvl' : KvList) : Prop where
  numElements : kvl'.numElements = kvl.numElements
  get : ∀ i < kvl.numElements, kvl'.get i = kvl.get i

/-- What is behind the elements does not matter to `get_func`. -/
theorem KvList.Agrees.getFunc (h : kvl.Agrees kvl') (hc : c ≤ kvl.numElements) :
    getFunc kvl' key c = getFunc kvl key c := by
  unfold MapReduce.getFunc
  rw [h.numElements]
  split
  · rfl
  · rw [h.get c (by omega)]

/-- `get_next` never moves behind the last element. -/
theorem getFunc_le {result : Option CString} (hget : getFunc kvl key c = .ok (result, c')) (hc : c ≤ kvl.numElements) :
    c' ≤ kvl.numElements := by
  unfold getFunc at hget
  split at hget
  · cases hget
    exact hc
  · obtain ⟨elt, -, hget⟩ := Except.bind_eq_ok.mp hget
    split at hget
    · cases hget
      omega
    · cases hget
      exact hc

/-- A reduce function does not get behind the elements. -/
theorem callReduce_le (hcall : callReduce R kvl key fuel c l = .ok out) (hc : c ≤ kvl.numElements) :
    out.kvlCounter ≤ kvl.numElements := by
  induction fuel generalizing c l out with
  | zero => cases hcall
  | succ fuel ih =>
    unfold callReduce at hcall
    obtain ⟨⟨result, c'⟩, hget, hcall⟩ := Except.bind_eq_ok.mp hcall
    have hc' := getFunc_le hget hc
    dsimp only at hcall
    split at hcall
    · obtain ⟨rest, hrest, hcall⟩ := Except.bind_eq_ok.mp hcall
      have hle := ih hrest hc'
      cases hcall
      exact hle
    · cases hcall
      exact hc'

/-- What is behind the elements does not matter to a reduce function. -/
theorem KvList.Agrees.callReduce (h : kvl.Agrees kvl') (hc : c ≤ kvl.numElements) :
    callReduce R kvl' key fuel c l = callReduce R kvl key fuel c l := by
  induction fuel generalizing c l with
  | zero => rfl
  | succ fuel ih =>
    unfold MapReduce.callReduce
    rw [h.getFunc hc]
    cases hget : MapReduce.getFunc kvl key c with
    | error e => rfl
    | ok r =>
      obtain ⟨result, c'⟩ := r
      dsimp only [bind, Except.bind]
      rw [ih (getFunc_le hget hc)]

/-- The reduce stage reads the elements of the list and no other slot. -/
theorem KvList.Agrees.reduceStage (h : kvl.Agrees kvl') {calls : ℕ} (hc : c ≤ kvl.numElements) :
    reduceStage R kvl' calls fuel c l = reduceStage R kvl calls fuel c l := by
  induction fuel generalizing c l with
  | zero => rfl
  | succ fuel ih =>
    unfold MapReduce.reduceStage
    rw [h.numElements]
    split
    · rename_i hlt
      rw [h.get c hlt]
      cases kvl.get c with
      | error e => rfl
      | ok elt =>
        dsimp only [bind, Except.bind]
        rw [h.callReduce hc]
        cases hcall : MapReduce.callReduce R kvl elt.key calls c (R.start elt.key l) with
        | error e => rfl
        | ok out =>
          dsimp only
          rw [ih (callReduce_le hcall hc)]
    · rfl

/-- The array without the slots behind the last element. -/
def KvList.cut (kvl : KvList) : KvList := { kvl with elements := kvl.elements.take kvl.numElements }

/-- A list and what is left when the free slots are cut off. -/
theorem KvList.agrees_cut (kvl : KvList) : kvl.Agrees kvl.cut where
  numElements := rfl
  get i hi := by
    unfold KvList.get KvList.cut
    rw [List.getElem?_take_of_lt hi]

/-! ## The whole run -/

/-- The list that the reduce stage works on. -/
def sortedList {E : Type} (Q : Qsort) (map : Mapper E) (argv : List CString) (env : E) : Except Fault KvList := do
  let kvl ← mapStage map (argv.drop 1) env (initKvList 10)
  kvl.qsort Q

/-- `MR_Run` is the loop over the sorted list. -/
theorem mrRun_eq_reduceStage {E : Type} {Q : Qsort} {map : Mapper E} {argv : List CString} {env : E} {calls : ℕ}
    (h : sortedList Q map argv env = .ok kvl) :
    mrRun Q map R calls fuel argv env l = reduceStage R kvl calls fuel 0 l := by
  obtain ⟨kvl₁, hmap, hsort⟩ := Except.bind_eq_ok.mp h
  unfold mrRun
  rw [hmap]
  dsimp only [bind, Except.bind]
  rw [hsort]

/-- **Partial reduce functions are safe.** For all emitted pairs and every reduce function whose invocations end,
there are at most as many invocations as pairs; they are handed the sorted pairs, in order and under their own
keys; and no slot behind the last element is read. -/
theorem partial_reducers {E : Type} (Q : Qsort) (map : Mapper E) (R : Reducer L) (argv : List CString) (env : E) (l : L)
    (hstops : ∀ kvl, sortedList Q map argv env = .ok kvl → R.Stops kvl l) :
    ∃ kvl calls₀ invocations, sortedList Q map argv env = .ok kvl
      ∧ (∀ calls ≥ calls₀, ∀ fuel > kvl.numElements,
        mrRun Q map R calls fuel argv env l = .ok invocations
          ∧ reduceStage R kvl.cut calls fuel 0 l = .ok invocations)
      ∧ invocations.length ≤ kvl.numElements
      ∧ invocations.flatMap handed = (Q.sort ((emitted map (argv.drop 1) env).map toKv)).map Kv.pair := by
  have hinit : (initKvList 10).Holds [] := KvList.Holds.init (by decide)
  obtain ⟨kvl₁, hmap, hholds₁⟩ := hinit.mapStage map (argv.drop 1) env
  rw [List.nil_append] at hholds₁
  obtain ⟨kvl, hsort, hholds⟩ := hholds₁.qsort Q
  have hsorted : sortedList Q map argv env = .ok kvl := Except.bind_eq_ok.mpr ⟨kvl₁, hmap, hsort⟩
  obtain ⟨calls₀, invocations, hrun, hlength, hhanded⟩ :=
    reduceStage_partial hholds (hstops kvl hsorted) .init (Nat.zero_le _)
  have hnum := hholds.numElements_eq
  refine ⟨kvl, calls₀, invocations, hsorted, fun calls hcalls fuel hfuel => ?_, by omega, hhanded⟩
  have hstage := hrun calls hcalls fuel (by omega)
  refine ⟨(mrRun_eq_reduceStage hsorted).trans hstage, ?_⟩
  exact (kvl.agrees_cut.reduceStage (Nat.zero_le _)).trans hstage

/-- A reduce function that asks for one value and returns. -/
def takeOne : Reducer Unit where
  start _ _ := ()
  receive _ _ := ()
  more _ := false

/-- A function that takes one value stops. -/
theorem takeOne_stops (kvl : KvList) (l : Unit) : takeOne.Stops kvl l := by
  intro c l elt _ hc hget
  refine ⟨1, ?_⟩
  unfold callReduce getFunc
  rw [if_neg (by omega), hget]
  dsimp only [bind, Except.bind]
  rw [if_pos (strcmp_eq_zero_iff.mpr rfl)]
  intro hfuel
  cases hfuel

/-- What a function that takes one value is called with, for four words. -/
theorem partial_reducers_takeOne :
    ∃ (kvl : KvList) (calls₀ : ℕ) (invocations : List (CString × List CString)),
      (∀ calls ≥ calls₀, ∀ fuel > kvl.numElements,
        mrRun Qsort.mergeSort (fun arg env => ([(arg, ⟨[49], by decide⟩)], env)) takeOne calls fuel
          [⟨[120], by decide⟩, ⟨[98], by decide⟩, ⟨[97], by decide⟩, ⟨[98], by decide⟩] () () = .ok invocations)
      ∧ invocations.length ≤ kvl.numElements := by
  obtain ⟨kvl, calls₀, invocations, -, hrun, hlength, -⟩ := partial_reducers Qsort.mergeSort
    (fun arg env => ([(arg, ⟨[49], by decide⟩)], env)) takeOne
    [⟨[120], by decide⟩, ⟨[98], by decide⟩, ⟨[97], by decide⟩, ⟨[98], by decide⟩] () ()
    fun kvl _ => takeOne_stops kvl ()
  exact ⟨kvl, calls₀, invocations, fun calls hcalls fuel hfuel => (hrun calls hcalls fuel hfuel).1, hlength⟩

end Cs537.MapReduce
