import Mathlib.Algebra.Order.Archimedean.Basic
import Mathlib.Data.Int.CardIntervalMod
import Mathlib.Data.Rat.Floor
import Cs537.Graphics.Request
import Cs537.Lib.Count

/-!
# Random requests

Without a list of addresses, `Raid.__init__` draws its requests. The `i`-th one is to go to the disk `i` modulo the
number of disks: draws for another disk are thrown away, and so are those below the minimum. The target moves on
before the minimum is looked at, so that a draw below the minimum uses up the turn of its disk.
-/

namespace Cs537.Graphics

/-- A result of `random.random()`. -/
structure Draw where
  val : ℚ
  nonneg : 0 ≤ val
  lt_one : val < 1

/-- `int` on a number that is not an integer. -/
def truncate (x : ℚ) : ℤ := if 0 ≤ x then ⌊x⌋ else ⌈x⌉

/-- `int(random.random() * req_max)`, of the exact product: `raid-graphics.py` rounds it to a float first, which can
move a product that is just below an integer up to it. -/
def Draw.req (d : Draw) (reqMax : ℤ) : ℤ := truncate (d.val * reqMax)

/-- `effective_disk_count`. -/
def Mapping.effectiveDiskCount : Mapping → ℕ
  | .raid4 => 3
  | _ => 4

/-- `addr_desc`: the number of requests, their maximum and their minimum. -/
structure AddrDesc where
  num : ℕ
  reqMax : ℤ
  reqMin : ℤ

/-- `req_max`: a maximum of `-1` stands for all blocks. -/
def AddrDesc.maximum (desc : AddrDesc) (mapping : Mapping) : ℤ :=
  if desc.reqMax = -1 then mapping.blockCount else desc.reqMax

/-- What the loop that draws requests reads. -/
structure Generator where
  effectiveDiskCount : ℕ
  reqMax : ℤ
  reqMin : ℤ
  readFraction : ℚ

namespace Generator

/-- The update of `target_disk`. -/
def rotate (g : Generator) (targetDisk : ℕ) : ℕ :=
  if targetDisk + 1 = g.effectiveDiskCount then 0 else targetDisk + 1

/-- The `while` loop for one request: the request, the next target and the draws that are left, or `none` when the
draws are used up. -/
def nextRequest (g : Generator) : ℕ → List Draw → Option ((ℤ × OpType) × ℕ × List Draw)
  | _, [] => none
  | targetDisk, d :: draws =>
    if d.req g.reqMax % g.effectiveDiskCount ≠ targetDisk then g.nextRequest targetDisk draws
    else if d.req g.reqMax ≥ g.reqMin then
      match draws with
      | [] => none
      | fraction :: draws =>
        some ((d.req g.reqMax, if fraction.val < g.readFraction then .read else .write), g.rotate targetDisk, draws)
    else g.nextRequest (g.rotate targetDisk) draws

/-- The `for` loop over the requests. -/
def requests (g : Generator) : ℕ → ℕ → List Draw → Option (List (ℤ × OpType))
  | 0, _, _ => some []
  | num + 1, targetDisk, draws => do
    let (request, targetDisk, draws) ← g.nextRequest targetDisk draws
    let rest ← g.requests num targetDisk draws
    return request :: rest

/-- The draws that fit the target and lie below the minimum, before a request is found. -/
def skipped (g : Generator) : ℕ → List Draw → ℕ
  | _, [] => 0
  | targetDisk, d :: draws =>
    if d.req g.reqMax % g.effectiveDiskCount ≠ targetDisk then g.skipped targetDisk draws
    else if d.req g.reqMax ≥ g.reqMin then 0
    else g.skipped (g.rotate targetDisk) draws + 1

/-- The same, for each of the requests. -/
def skips (g : Generator) : ℕ → ℕ → List Draw → List ℕ
  | 0, _, _ => []
  | num + 1, targetDisk, draws =>
    g.skipped targetDisk draws :: ((g.nextRequest targetDisk draws).map fun r => g.skips num r.2.1 r.2.2).getD []

end Generator

/-- What comes of a description: it is rejected, the draws are used up, or there are requests. -/
inductive Generated
  | badAddrDesc (reqMin reqMax : ℤ)
  | unfinished
  | requests (queue : List (ℤ × OpType))

/-- The loop for a mapping and a description. -/
def AddrDesc.generator (desc : AddrDesc) (mapping : Mapping) (readFraction : ℚ) : Generator where
  effectiveDiskCount := mapping.effectiveDiskCount
  reqMax := desc.maximum mapping
  reqMin := desc.reqMin
  readFraction := readFraction

/-- The generation of random requests. -/
def AddrDesc.generate (desc : AddrDesc) (mapping : Mapping) (readFraction : ℚ) (draws : List Draw) : Generated :=
  if desc.reqMin ≥ desc.maximum mapping then .badAddrDesc desc.reqMin (desc.maximum mapping)
  else
    match (desc.generator mapping readFraction).requests desc.num 0 draws with
    | none => .unfinished
    | some queue => .requests queue

/-! ## Draws -/

namespace Draw

variable {d : Draw} {reqMax v : ℤ}

/-- A draw is within the range. -/
theorem req_of_pos (h : 0 < reqMax) : 0 ≤ d.req reqMax ∧ d.req reqMax < reqMax := by
  have hcast : (0 : ℚ) < reqMax := Int.cast_pos.mpr h
  have hnonneg : 0 ≤ d.val * reqMax := mul_nonneg d.nonneg hcast.le
  unfold req truncate
  rw [if_pos hnonneg]
  refine ⟨Int.floor_nonneg.mpr hnonneg, Int.floor_lt.mpr ?_⟩
  exact mul_lt_of_lt_one_left hcast d.lt_one

/-- With a maximum that is not positive, draws lie above it and up to zero. -/
theorem req_of_nonpos (h : reqMax ≤ 0) : d.req reqMax ≤ 0 ∧ (d.req reqMax = 0 ∨ reqMax < d.req reqMax) := by
  have hcast : (reqMax : ℚ) ≤ 0 := Int.cast_nonpos.mpr h
  have hnonpos : d.val * reqMax ≤ 0 := mul_nonpos_of_nonneg_of_nonpos d.nonneg hcast
  unfold req truncate
  split
  · rename_i hnonneg
    rw [hnonpos.antisymm hnonneg, Int.floor_zero]
    exact ⟨le_rfl, .inl rfl⟩
  · rename_i hneg
    refine ⟨Int.ceil_nonpos.mpr hnonpos, .inr (Int.lt_ceil.mpr ?_)⟩
    have hlt : (reqMax : ℚ) < 0 := by
      refine lt_of_le_of_ne hcast fun hzero => hneg ?_
      rw [hzero, mul_zero]
    have hscale := mul_lt_mul_of_neg_right d.lt_one hlt
    rwa [one_mul] at hscale

theorem truncate_intCast (v : ℤ) : truncate v = v := by
  unfold truncate
  rw [Int.floor_intCast, Int.ceil_intCast, ite_self]

/-- The draw for a number below a positive maximum. -/
def ofReq (v reqMax : ℤ) (hv : 0 ≤ v) (hlt : v < reqMax) : Draw where
  val := v / reqMax
  nonneg := div_nonneg (Int.cast_nonneg hv) (Int.cast_nonneg (hv.trans hlt.le))
  lt_one := by
    rw [div_lt_one (Int.cast_pos.mpr (hv.trans_lt hlt))]
    exact Int.cast_lt.mpr hlt

/-- Every number below a positive maximum is drawn. -/
theorem exists_req (hv : 0 ≤ v) (hlt : v < reqMax) : ∃ d : Draw, d.req reqMax = v := by
  have hmax : (0 : ℚ) < reqMax := Int.cast_pos.mpr (hv.trans_lt hlt)
  refine ⟨ofReq v reqMax hv hlt, ?_⟩
  unfold req ofReq
  rw [div_mul_cancel₀ _ hmax.ne']
  exact truncate_intCast v

/-- Every number above a negative maximum and up to zero is drawn. -/
theorem exists_req_of_nonpos (hv : v ≤ 0) (hlt : reqMax < v) : ∃ d : Draw, d.req reqMax = v := by
  have hmax : (reqMax : ℚ) < 0 := Int.cast_lt_zero.mpr (hlt.trans_le hv)
  refine ⟨⟨v / reqMax, div_nonneg_of_nonpos (Int.cast_nonpos.mpr hv) hmax.le, ?_⟩, ?_⟩
  · rw [div_lt_one_of_neg hmax]
    exact Int.cast_lt.mpr hlt
  · unfold req
    rw [div_mul_cancel₀ _ hmax.ne]
    exact truncate_intCast v

/-- Block 0 can always be drawn. -/
theorem exists_req_zero (reqMax : ℤ) : ∃ d : Draw, d.req reqMax = 0 := by
  refine ⟨⟨0, le_rfl, zero_lt_one⟩, ?_⟩
  unfold req
  rw [zero_mul]
  exact truncate_intCast 0

end Draw

/-! ## One request -/

namespace Generator

variable {g : Generator} {targetDisk targetDisk' num : ℕ} {draws rest : List Draw} {request : ℤ × OpType}

/-- The next disk is one further, in a circle. -/
theorem rotate_eq (h : targetDisk < g.effectiveDiskCount) :
    g.rotate targetDisk = (targetDisk + 1) % g.effectiveDiskCount := by
  unfold rotate
  split
  · rename_i heq
    rw [heq, Nat.mod_self]
  · rw [Nat.mod_eq_of_lt (by omega)]

/-- The next disk is one of the disks. -/
theorem rotate_lt (h : targetDisk < g.effectiveDiskCount) : g.rotate targetDisk < g.effectiveDiskCount := by
  rw [rotate_eq h]
  exact Nat.mod_lt _ (by omega)

/-- What is known of a request, when the loop starts from a target. -/
structure Found (g : Generator) (targetDisk : ℕ) (draws : List Draw) (request : ℤ × OpType) (targetDisk' : ℕ) :
    Prop where
  drawn : ∃ d : Draw, d.req g.reqMax = request.1
  reqMin_le : g.reqMin ≤ request.1
  /-- The disk of the request is behind the target by the draws that were skipped. -/
  disk : request.1 % g.effectiveDiskCount = ((targetDisk + g.skipped targetDisk draws) % g.effectiveDiskCount : ℕ)
  next : targetDisk' = (targetDisk + g.skipped targetDisk draws + 1) % g.effectiveDiskCount

/-- **One turn of the outer loop.** -/
theorem nextRequest_found (htarget : targetDisk < g.effectiveDiskCount)
    (h : g.nextRequest targetDisk draws = some (request, targetDisk', rest)) :
    g.Found targetDisk draws request targetDisk' := by
  induction draws generalizing targetDisk with
  | nil => cases h
  | cons d draws ih =>
    unfold nextRequest at h
    split at h
    · -- a draw for another disk
      rename_i hother
      obtain ⟨hdrawn, hmin, hdisk, hnext⟩ := ih htarget h
      have hskipped : g.skipped targetDisk (d :: draws) = g.skipped targetDisk draws := if_pos hother
      exact ⟨hdrawn, hmin, by rw [hskipped, hdisk], by rw [hskipped, hnext]⟩
    · rename_i hfits
      rw [not_not] at hfits
      split at h
      · -- the request
        rename_i hmin
        have hskipped : g.skipped targetDisk (d :: draws) = 0 := by
          unfold skipped
          rw [if_neg (not_not.mpr hfits), if_pos hmin]
        split at h
        · cases h
        · cases h
          refine ⟨⟨d, rfl⟩, hmin, ?_, ?_⟩
          · rw [hskipped, Nat.add_zero, Nat.mod_eq_of_lt htarget]
            exact hfits
          · rw [hskipped, Nat.add_zero]
            exact rotate_eq htarget
      · -- a draw below the minimum
        rename_i hbelow
        have hskipped : g.skipped targetDisk (d :: draws) = g.skipped (g.rotate targetDisk) draws + 1 := by
          show (if _ then _ else if _ then _ else _) = _
          rw [if_neg (not_not.mpr hfits), if_neg hbelow]
        obtain ⟨hdrawn, hmin, hdisk, hnext⟩ := ih (rotate_lt htarget) h
        rw [rotate_eq htarget] at hdisk hnext hskipped
        have hshift : ∀ k, ((targetDisk + 1) % g.effectiveDiskCount + k) % g.effectiveDiskCount
            = (targetDisk + (k + 1)) % g.effectiveDiskCount := by
          intro k
          rw [Nat.mod_add_mod, Nat.add_assoc, Nat.add_comm 1 k]
        refine ⟨hdrawn, hmin, ?_, ?_⟩
        · rw [hdisk, hskipped, hshift]
        · rw [hnext, hskipped, Nat.add_assoc, hshift]
          rfl

/-! ## The queue -/

/-- A queue of one request more is its first request and a queue behind it. -/
theorem requests_succ {queue : List (ℤ × OpType)} (h : g.requests (num + 1) targetDisk draws = some queue) :
    ∃ request targetDisk' rest queue', g.nextRequest targetDisk draws = some (request, targetDisk', rest)
      ∧ g.requests num targetDisk' rest = some queue' ∧ queue = request :: queue' := by
  unfold requests at h
  obtain ⟨⟨request, targetDisk', rest⟩, hnext, h⟩ := Option.bind_eq_some_iff.mp h
  obtain ⟨queue', hqueue, h⟩ := Option.bind_eq_some_iff.mp h
  cases h
  exact ⟨request, targetDisk', rest, queue', hnext, hqueue, rfl⟩

/-- The skips of the first request come first. -/
theorem skips_succ (hnext : g.nextRequest targetDisk draws = some (request, targetDisk', rest)) :
    g.skips (num + 1) targetDisk draws = g.skipped targetDisk draws :: g.skips num targetDisk' rest := by
  show _ :: ((g.nextRequest targetDisk draws).map _).getD [] = _
  rw [hnext]
  rfl

/-- The request is on the target exactly when the skipped draws go all the way round. -/
theorem Found.disk_eq_iff (h : g.Found targetDisk draws request targetDisk')
    (htarget : targetDisk < g.effectiveDiskCount) :
    request.1 % g.effectiveDiskCount = targetDisk ↔ g.effectiveDiskCount ∣ g.skipped targetDisk draws := by
  rw [h.disk, Nat.cast_inj, ← Nat.add_modEq_left_iff (a := targetDisk)]
  unfold Nat.ModEq
  rw [Nat.mod_eq_of_lt htarget]

/-- The requests are drawn, and reach the minimum. -/
theorem mem_requests {queue : List (ℤ × OpType)} (htarget : targetDisk < g.effectiveDiskCount)
    (h : g.requests num targetDisk draws = some queue) :
    ∀ request ∈ queue, (∃ d : Draw, d.req g.reqMax = request.1) ∧ g.reqMin ≤ request.1 := by
  induction num generalizing targetDisk draws queue with
  | zero =>
    cases h
    exact nofun
  | succ num ih =>
    obtain ⟨first, targetDisk', rest, queue', hnext, hrest, rfl⟩ := requests_succ h
    have hfound := nextRequest_found htarget hnext
    intro request hmem
    rcases List.mem_cons.mp hmem with rfl | hmem
    · exact ⟨hfound.drawn, hfound.reqMin_le⟩
    · refine ih ?_ hrest request hmem
      rw [hfound.next]
      exact Nat.mod_lt _ (by omega)

/-- As many requests are generated as were asked for. -/
theorem length_requests {queue : List (ℤ × OpType)} (h : g.requests num targetDisk draws = some queue) :
    queue.length = num := by
  induction num generalizing targetDisk draws queue with
  | zero =>
    cases h
    rfl
  | succ num ih =>
    obtain ⟨first, targetDisk', rest, queue', -, hrest, rfl⟩ := requests_succ h
    rw [List.length_cons, ih hrest]

/-- **The requests go round the disks** exactly when, for each of them, the skipped draws do. -/
theorem rotates_iff {queue : List (ℤ × OpType)} (htarget : targetDisk < g.effectiveDiskCount)
    (h : g.requests num targetDisk draws = some queue) :
    (∀ (i : ℕ) (request : ℤ × OpType), queue[i]? = some request →
        request.1 % g.effectiveDiskCount = ((targetDisk + i) % g.effectiveDiskCount : ℕ))
      ↔ ∀ k ∈ g.skips num targetDisk draws, g.effectiveDiskCount ∣ k := by
  induction num generalizing targetDisk draws queue with
  | zero =>
    cases h
    exact ⟨fun _ => nofun, fun _ => nofun⟩
  | succ num ih =>
    obtain ⟨first, targetDisk', rest, queue', hnext, hrest, rfl⟩ := requests_succ h
    have hfound := nextRequest_found htarget hnext
    have htarget' : targetDisk' < g.effectiveDiskCount := by
      rw [hfound.next]
      exact Nat.mod_lt _ (by omega)
    rw [skips_succ hnext, List.forall_mem_cons, ← hfound.disk_eq_iff htarget, ← ih htarget' hrest]
    -- behind a request on its target, the next target is the next disk
    have hshift : first.1 % g.effectiveDiskCount = targetDisk → ∀ i,
        (targetDisk' + i) % g.effectiveDiskCount = (targetDisk + (i + 1)) % g.effectiveDiskCount := by
      intro hdisk i
      obtain ⟨q, hq⟩ := (hfound.disk_eq_iff htarget).mp hdisk
      rw [hfound.next, Nat.mod_add_mod, hq, show targetDisk + g.effectiveDiskCount * q + 1 + i
        = targetDisk + (i + 1) + g.effectiveDiskCount * q by omega, Nat.add_mul_mod_self_left]
    constructor
    · intro hall
      have hfirst := hall 0 first rfl
      rw [Nat.add_zero, Nat.mod_eq_of_lt htarget] at hfirst
      refine ⟨hfirst, fun i request hi => ?_⟩
      rw [hshift hfirst i]
      exact hall (i + 1) request hi
    · rintro ⟨hfirst, hall⟩ i request hi
      cases i with
      | zero =>
        cases hi
        rw [Nat.add_zero, Nat.mod_eq_of_lt htarget]
        exact hfirst
      | succ i =>
        rw [← hshift hfirst i]
        exact hall i request hi

end Generator

end Cs537.Graphics
