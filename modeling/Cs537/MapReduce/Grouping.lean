import Cs537.Lib.Runs
import Cs537.MapReduce.Program

/-!
# Grouping

The array holds the emitted pairs through all its doublings, the sort orders them by key, and a reduce
function that drains its getter takes exactly the run of its key. So the invocations are the runs of the
sorted pairs.
-/

namespace Cs537.MapReduce

variable {kvl : KvList} {kvs : List Kv}

/-! ## The array -/

/-- The list holds the pairs `kvs`, in slots that are allocated and written. -/
structure KvList.Holds (kvl : KvList) (kvs : List Kv) : Prop where
  numElements_eq : kvl.numElements = kvs.length
  length_eq : kvl.elements.length = kvl.size
  size_pos : 0 < kvl.size
  elements_eq : kvl.elements.take kvs.length = kvs.map some

namespace KvList.Holds

theorem init {size : ℕ} (hsize : 0 < size) : (initKvList size).Holds [] where
  numElements_eq := rfl
  length_eq := List.length_replicate
  size_pos := hsize
  elements_eq := rfl

theorem length_le (h : kvl.Holds kvs) : kvs.length ≤ kvl.size := by
  have hlen := congrArg List.length h.elements_eq
  rw [List.length_take, List.length_map, h.length_eq] at hlen
  omega

/-- Every element can be read. -/
theorem get_eq (h : kvl.Holds kvs) {i : ℕ} (hi : i < kvs.length) : kvl.get i = .ok kvs[i] := by
  have hslot : kvl.elements[i]? = some (some kvs[i]) := by
    rw [← List.getElem?_take_of_lt hi, h.elements_eq, List.getElem?_map, List.getElem?_eq_getElem hi]
    rfl
  unfold KvList.get
  rw [hslot]

/-- Writing the slot behind the last element. -/
private theorem set (h : kvl.Holds kvs) (hfree : kvs.length < kvl.size) (elt : Kv) :
    KvList.Holds { kvl with
      elements := kvl.elements.set kvl.numElements (some elt)
      numElements := kvl.numElements + 1 } (kvs ++ [elt]) := by
  refine ⟨?_, ?_, h.size_pos, ?_⟩
  · rw [List.length_append, h.numElements_eq]
    rfl
  · rw [List.length_set, h.length_eq]
  · have hlt : kvs.length < kvl.elements.length := by rw [h.length_eq]; exact hfree
    show (kvl.elements.set kvl.numElements (some elt)).take _ = _
    rw [h.numElements_eq, List.length_append, List.length_singleton, List.take_add_one,
      List.take_set_of_le le_rfl, h.elements_eq, List.getElem?_set_self hlt, List.map_append]
    rfl

/-- Doubling the array keeps every stored pair. -/
private theorem grow (h : kvl.Holds kvs) :
    KvList.Holds { kvl with size := kvl.size * 2, elements := realloc kvl.elements (kvl.size * 2) }
      kvs := by
  have hpos := h.size_pos
  have hlen := h.length_eq
  have hle := h.length_le
  have hkeep : realloc kvl.elements (kvl.size * 2)
      = kvl.elements ++ List.replicate (kvl.size * 2 - kvl.elements.length) none := by
    unfold realloc
    rw [List.take_of_length_le (by omega)]
  refine ⟨h.numElements_eq, ?_, ?_, ?_⟩
  · show (realloc kvl.elements (kvl.size * 2)).length = kvl.size * 2
    rw [hkeep, List.length_append, List.length_replicate]
    omega
  · show 0 < kvl.size * 2
    omega
  · show (realloc kvl.elements (kvl.size * 2)).take kvs.length = _
    rw [hkeep, List.take_append_of_le_length (by omega), h.elements_eq]

/-- `add_to_list` appends to the list and never leaves the allocated array. -/
theorem add (h : kvl.Holds kvs) (elt : Kv) :
    ∃ kvl', addToList elt kvl = .ok kvl' ∧ kvl'.Holds (kvs ++ [elt]) := by
  have hle := h.length_le
  have hlen := h.length_eq
  have hnum := h.numElements_eq
  unfold addToList
  by_cases hfull : kvl.numElements = kvl.size
  · have hpos := h.size_pos
    have hlt : kvs.length < kvl.size * 2 := by omega
    have hgrow := h.grow
    refine ⟨_, ?_, hgrow.set hlt elt⟩
    simp only [if_pos hfull]
    rw [if_pos]
    rw [hgrow.length_eq, hgrow.numElements_eq]
    exact hlt
  · have hlt : kvs.length < kvl.size := by omega
    refine ⟨_, ?_, h.set hlt elt⟩
    simp only [if_neg hfull]
    rw [if_pos]
    omega

end KvList.Holds

/-! ## Map and sort -/

/-- The element that holds an emitted pair. -/
def toKv (kv : CString × CString) : Kv := ⟨kv.1, kv.2⟩

/-- The pair that an element holds. -/
def Kv.pair (elt : Kv) : CString × CString := (elt.key, elt.value)

/-- A pair is a slot and back. -/
theorem map_pair_toKv (kvs : List (CString × CString)) : (kvs.map toKv).map Kv.pair = kvs := by
  rw [List.map_map]
  exact List.map_id _

/-- Emitting pairs appends them. -/
theorem KvList.Holds.emitAll (h : kvl.Holds kvs) (pairs : List (CString × CString)) :
    ∃ kvl', pairs.foldlM mrEmit kvl = .ok kvl' ∧ kvl'.Holds (kvs ++ pairs.map toKv) := by
  induction pairs generalizing kvl kvs with
  | nil => exact ⟨kvl, rfl, by rwa [List.map_nil, List.append_nil]⟩
  | cons kv pairs ih =>
    obtain ⟨kvl₁, hadd, hholds⟩ := h.add (toKv kv)
    obtain ⟨kvl₂, hrest, hholds₂⟩ := ih hholds
    refine ⟨kvl₂, Except.foldlM_cons_eq_ok.mpr ⟨kvl₁, hadd, hrest⟩, ?_⟩
    rwa [List.append_assoc] at hholds₂

/-- After the map stage the list holds exactly the emitted pairs, in order. -/
theorem KvList.Holds.mapStage {E : Type} (map : Mapper E) (h : kvl.Holds kvs) (args : List CString)
    (env : E) :
    ∃ kvl', MapReduce.mapStage map args env kvl = .ok kvl'
      ∧ kvl'.Holds (kvs ++ (emitted map args env).map toKv) := by
  induction args generalizing env kvl kvs with
  | nil => exact ⟨kvl, rfl, by rwa [emitted, List.map_nil, List.append_nil]⟩
  | cons arg args ih =>
    obtain ⟨kvl₁, hemit, hholds⟩ := h.emitAll (map arg env).1
    obtain ⟨kvl₂, hrest, hholds₂⟩ := ih hholds (map arg env).2
    refine ⟨kvl₂, Except.bind_eq_ok.mpr ⟨kvl₁, hemit, hrest⟩, ?_⟩
    rwa [List.append_assoc, ← List.map_append] at hholds₂

/-- Reading the whole list. -/
theorem KvList.Holds.mapM_get (h : kvl.Holds kvs) :
    (List.range kvl.numElements).mapM kvl.get = .ok kvs := by
  rw [h.numElements_eq]
  have htake : ∀ n ≤ kvs.length, (List.range n).mapM kvl.get = .ok (kvs.take n) := by
    intro n hn
    induction n with
    | zero => rfl
    | succ n ih =>
      rw [List.range_succ, List.mapM_append, ih (by omega), List.take_add_one,
        List.getElem?_eq_getElem (by omega)]
      simp only [List.mapM_cons, List.mapM_nil, h.get_eq (i := n) (by omega)]
      rfl
  rw [htake _ le_rfl, List.take_length]

/-- The sort reorders the pairs and touches nothing else. -/
theorem KvList.Holds.qsort (h : kvl.Holds kvs) (Q : Qsort) :
    ∃ kvl', kvl.qsort Q = .ok kvl' ∧ kvl'.Holds (Q.sort kvs) := by
  have hlen := (Q.perm kvs).length_eq
  have hle := h.length_le
  refine ⟨_, Except.bind_eq_ok.mpr ⟨kvs, h.mapM_get, rfl⟩, ?_, ?_, h.size_pos, ?_⟩
  · rw [hlen]
    exact h.numElements_eq
  · show ((Q.sort kvs).map some ++ kvl.elements.drop kvl.numElements).length = kvl.size
    rw [List.length_append, List.length_map, hlen, List.length_drop, h.numElements_eq, h.length_eq]
    omega
  · show ((Q.sort kvs).map some ++ kvl.elements.drop kvl.numElements).take _ = _
    rw [List.take_append_of_le_length (by rw [List.length_map]),
      List.take_of_length_le (by rw [List.length_map])]

/-! ## Reduce -/

/-- `get_func` behind the last element. -/
theorem KvList.Holds.getFunc_end (h : kvl.Holds kvs) (key : CString) :
    getFunc kvl key kvs.length = .ok (none, kvs.length) := by
  unfold getFunc
  rw [if_pos h.numElements_eq.symm]

/-- `get_func` at an element: it hands out the value and moves on exactly when the keys are equal. -/
theorem KvList.Holds.getFunc_elt (h : kvl.Holds kvs) (key : CString) {c : ℕ} (hc : c < kvs.length) :
    getFunc kvl key c
      = .ok (if kvs[c].key = key then (some kvs[c].value, c + 1) else (none, c)) := by
  have hne : c ≠ kvl.numElements := by
    rw [h.numElements_eq]
    omega
  unfold getFunc
  rw [if_neg hne, h.get_eq hc]
  show (if strcmp kvs[c].key key = 0 then _ else _) = _
  by_cases hkey : kvs[c].key = key
  · rw [if_pos hkey, if_pos (strcmp_eq_zero_iff.mpr hkey)]
    rfl
  · rw [if_neg hkey, if_neg (mt strcmp_eq_zero_iff.mp hkey)]
    rfl

/-- A draining reduce function takes the values up to the next key. -/
theorem callReduce_drains {L : Type} {R : Reducer L} (hdrains : R.Drains) (h : kvl.Holds kvs)
    (key : CString) {fuel c : ℕ} (hc : c ≤ kvs.length) (hfuel : kvs.length - c < fuel) (l : L) :
    ∃ l', callReduce R kvl key fuel c l = .ok {
      kvlCounter := c + ((kvs.drop c).takeWhile fun elt => elt.key = key).length
      state := l'
      values := ((kvs.drop c).takeWhile fun elt => elt.key = key).map Kv.value } := by
  induction fuel generalizing c l with
  | zero => omega
  | succ fuel ih =>
    -- `get_next` returns `NULL`
    have hstop : getFunc kvl key c = .ok (none, c) →
        ((kvs.drop c).takeWhile fun elt => elt.key = key) = [] →
        ∃ l', callReduce R kvl key (fuel + 1) c l = .ok {
          kvlCounter := c + ((kvs.drop c).takeWhile fun elt => elt.key = key).length
          state := l'
          values := ((kvs.drop c).takeWhile fun elt => elt.key = key).map Kv.value } := by
      intro hget hnil
      refine ⟨R.receive l none, ?_⟩
      rw [hnil]
      unfold callReduce
      rw [hget]
      show (if R.more (R.receive l none) = true then _ else _) = _
      rw [if_neg (by rw [(hdrains l).2]; exact Bool.false_ne_true)]
      rfl
    rcases Nat.lt_or_ge c kvs.length with hlt | hge
    · have hdrop := List.drop_eq_getElem_cons hlt
      by_cases hkey : kvs[c].key = key
      · -- one more value
        obtain ⟨l', hrest⟩ := ih (c := c + 1) (by omega) (by omega) (R.receive l (some kvs[c].value))
        refine ⟨l', ?_⟩
        unfold callReduce
        rw [h.getFunc_elt key hlt, if_pos hkey]
        show (if R.more (R.receive l (some kvs[c].value)) = true then _ else _) = _
        rw [if_pos ((hdrains l).1 _), hrest, hdrop,
          List.takeWhile_cons_of_pos (by simpa using hkey)]
        show Except.ok _ = _
        simp only [List.length_cons, List.map_cons]
        congr 2
        omega
      · refine hstop ?_ ?_
        · rw [h.getFunc_elt key hlt, if_neg hkey]
        · rw [hdrop, List.takeWhile_cons_of_neg (by simpa using hkey)]
    · obtain rfl : c = kvs.length := by omega
      refine hstop (h.getFunc_end key) ?_
      rw [List.drop_length]
      rfl

/-- What is behind the longest beginning of a list. -/
private theorem drop_length_takeWhile {α : Type*} (f : α → Bool) (l : List α) :
    l.drop (l.takeWhile f).length = l.dropWhile f := by
  induction l with
  | nil => rfl
  | cons a l ih =>
    by_cases ha : f a
    · rw [List.takeWhile_cons_of_pos ha, List.dropWhile_cons_of_pos ha]
      exact ih
    · rw [List.takeWhile_cons_of_neg ha, List.dropWhile_cons_of_neg ha]
      rfl

/-- With a draining reduce function, the invocations are the runs of the pairs still to come. -/
theorem reduceStage_drains {L : Type} {R : Reducer L} (hdrains : R.Drains) (h : kvl.Holds kvs)
    {calls fuel c : ℕ} (hcalls : kvs.length < calls) (hc : c ≤ kvs.length)
    (hfuel : kvs.length - c < fuel) (l : L) :
    reduceStage R kvl calls fuel c l = .ok (Runs.runs ((kvs.drop c).map Kv.pair)) := by
  induction fuel generalizing c l with
  | zero => omega
  | succ fuel ih =>
    unfold reduceStage
    rcases Nat.lt_or_ge c kvs.length with hlt | hge
    · have hdrop := List.drop_eq_getElem_cons hlt
      obtain ⟨l', hcall⟩ := callReduce_drains hdrains h kvs[c].key hc (by omega : _ < calls)
        (R.start kvs[c].key l)
      rw [hdrop, List.takeWhile_cons_of_pos (by simp), List.length_cons, List.map_cons] at hcall
      -- the run of the key, and the pairs behind it
      generalize hrun : ((kvs.drop (c + 1)).takeWhile fun elt => elt.key = kvs[c].key) = run at hcall
      have hskip : kvs.drop (c + (run.length + 1))
          = (kvs.drop (c + 1)).dropWhile fun elt => elt.key = kvs[c].key := by
        rw [← drop_length_takeWhile, hrun, List.drop_drop]
        congr 1
        omega
      have hle : c + (run.length + 1) ≤ kvs.length := by
        have hrunle := (List.takeWhile_prefix (l := kvs.drop (c + 1))
          fun elt => elt.key = kvs[c].key).length_le
        rw [hrun, List.length_drop] at hrunle
        omega
      rw [if_pos (by rw [h.numElements_eq]; exact hlt), h.get_eq hlt]
      show (callReduce R kvl kvs[c].key calls c (R.start kvs[c].key l) >>= fun out => _) = _
      rw [hcall]
      show (reduceStage R kvl calls fuel (c + (run.length + 1)) l' >>= fun rest => _) = _
      rw [ih hle (by omega), hskip, hdrop, List.map_cons]
      unfold Kv.pair
      rw [Runs.runs_cons, List.takeWhile_map, List.dropWhile_map, ← hrun, List.map_map]
      rfl
    · obtain rfl : c = kvs.length := by omega
      rw [if_neg (by rw [h.numElements_eq]; omega), List.drop_length, List.map_nil, Runs.runs_nil]
      rfl

/-! ## The whole run -/

/-- `qsort` sorts the pairs by key. -/
theorem Qsort.sorted (Q : Qsort) (kvs : List Kv) : Runs.Sorted ((Q.sort kvs).map Kv.pair) := by
  refine List.pairwise_map.mpr ((Q.ordered kvs).imp fun hcmp => ?_)
  exact strcmp_nonpos_iff.mp hcmp

/-- **The loop over the sorted list** hands out the runs. -/
theorem mrRun_eq {E L : Type} (Q : Qsort) (map : Mapper E) {R : Reducer L} (hdrains : R.Drains)
    (argv : List CString) (env : E) (l : L) {calls fuel : ℕ}
    (hcalls : (emitted map (argv.drop 1) env).length < calls)
    (hfuel : (emitted map (argv.drop 1) env).length < fuel) :
    mrRun Q map R calls fuel argv env l = .ok (Runs.runs
      ((Q.sort ((emitted map (argv.drop 1) env).map toKv)).map Kv.pair)) := by
  have hinit : (initKvList 10).Holds [] := KvList.Holds.init (by decide)
  obtain ⟨kvl₁, hmap, hholds₁⟩ := hinit.mapStage map (argv.drop 1) env
  rw [List.nil_append] at hholds₁
  obtain ⟨kvl₂, hsort, hholds₂⟩ := hholds₁.qsort Q
  have hlen := (Q.perm ((emitted map (argv.drop 1) env).map toKv)).length_eq
  rw [List.length_map] at hlen
  unfold mrRun
  rw [hmap]
  show (kvl₁.qsort Q >>= fun kvl => _) = _
  rw [hsort]
  show reduceStage R kvl₂ calls fuel 0 l = _
  rw [reduceStage_drains hdrains hholds₂ (by omega) (Nat.zero_le _) (by omega), List.drop_zero]

/-- **Grouping**: the run never leaves the array and ends; the keys of the invocations are the emitted
keys, in strictly increasing order of `strcmp`; and the values of an invocation are those emitted under its
key. While the pairs are emitted, the list holds all of them in allocated slots. -/
theorem grouping {E L : Type} (Q : Qsort) (map : Mapper E) (R : Reducer L) (hdrains : R.Drains)
    (argv : List CString) (env : E) (l : L) (calls fuel : ℕ)
    (hcalls : (emitted map (argv.drop 1) env).length < calls)
    (hfuel : (emitted map (argv.drop 1) env).length < fuel) :
    (∃ out, mrRun Q map R calls fuel argv env l = .ok out
        ∧ (out.map Prod.fst).Pairwise (fun k k' => strcmp k k' < 0)
        ∧ (∀ k, k ∈ out.map Prod.fst ↔ ∃ v, (k, v) ∈ emitted map (argv.drop 1) env)
        ∧ ∀ k vs, (k, vs) ∈ out →
            vs.Perm (((emitted map (argv.drop 1) env).filter fun kv => kv.1 = k).map Prod.snd))
      ∧ ∀ pairs, pairs <+: emitted map (argv.drop 1) env →
          ∃ kvl, pairs.foldlM mrEmit (initKvList 10) = .ok kvl ∧ kvl.Holds (pairs.map toKv) := by
  -- sorting only moves the pairs
  have hperm : ((Q.sort ((emitted map (argv.drop 1) env).map toKv)).map Kv.pair).Perm
      (emitted map (argv.drop 1) env) := by
    have hp := (Q.perm ((emitted map (argv.drop 1) env).map toKv)).map Kv.pair
    rwa [map_pair_toKv] at hp
  have hsorted := Q.sorted ((emitted map (argv.drop 1) env).map toKv)
  refine ⟨⟨_, mrRun_eq Q map hdrains argv env l hcalls hfuel, ?_, fun k => ?_, fun k vs hmem => ?_⟩,
    fun pairs _ => ?_⟩
  · exact (Runs.runs_pairwise hsorted).imp strcmp_neg_iff.mpr
  · rw [Runs.mem_keys_runs, (hperm.map Prod.fst).mem_iff, List.mem_map]
    constructor
    · rintro ⟨⟨k, v⟩, hkv, rfl⟩
      exact ⟨v, hkv⟩
    · rintro ⟨v, hkv⟩
      exact ⟨(k, v), hkv, rfl⟩
  · rw [Runs.values_of_mem_runs hsorted hmem]
    exact (hperm.filter _).map Prod.snd
  · have hinit : (initKvList 10).Holds [] := KvList.Holds.init (by decide)
    have hemit := hinit.emitAll pairs
    rwa [List.nil_append] at hemit

/-- A `qsort`, from the merge sort of lists. -/
def Qsort.mergeSort : Qsort where
  sort kvs := kvs.mergeSort fun a b => cmp a b ≤ 0
  perm kvs := List.mergeSort_perm kvs _
  ordered kvs := by
    refine (List.pairwise_mergeSort ?_ ?_ kvs).imp of_decide_eq_true
    · intro a b c hab hbc
      have hle := (strcmp_nonpos_iff.mp (of_decide_eq_true hab)).trans
        (strcmp_nonpos_iff.mp (of_decide_eq_true hbc))
      exact decide_eq_true (strcmp_nonpos_iff.mpr hle)
    · intro a b
      rw [Bool.or_eq_true, decide_eq_true_iff, decide_eq_true_iff]
      unfold cmp
      rw [strcmp_nonpos_iff, strcmp_nonpos_iff]
      exact le_total _ _

/-- The reduce function of a word count: it counts the values until `get_next` returns `NULL`. -/
def wordCount : Reducer (ℕ × Bool) where
  start _ _ := (0, true)
  receive l result := if result.isSome then (l.1 + 1, true) else (l.1, false)
  more l := l.2

/-- Counting words drains every run. -/
theorem wordCount_drains : wordCount.Drains := fun _ => ⟨fun _ => rfl, rfl⟩

/-- The words of four arguments are counted in order. -/
theorem grouping_wordCount :
    ∃ out, mrRun Qsort.mergeSort (fun arg env => ([(arg, ⟨[49], by decide⟩)], env)) wordCount 4 4
        [⟨[120], by decide⟩, ⟨[98], by decide⟩, ⟨[97], by decide⟩, ⟨[98], by decide⟩] () (0, true)
          = .ok out
      ∧ (out.map Prod.fst).Pairwise (fun k k' => strcmp k k' < 0) := by
  obtain ⟨⟨out, hrun, hkeys, -⟩, -⟩ := grouping Qsort.mergeSort
    (fun arg env => ([(arg, ⟨[49], by decide⟩)], env)) wordCount wordCount_drains
    [⟨[120], by decide⟩, ⟨[98], by decide⟩, ⟨[97], by decide⟩, ⟨[98], by decide⟩] () (0, true) 4 4
    (by decide) (by decide)
  exact ⟨out, hrun, hkeys⟩

end Cs537.MapReduce
