import Cs537.Graphics.Generator

/-!
# When the requests are balanced

With a minimum that is not positive, no draw is ever skipped, and the requests go round the disks. With a positive
one, draws that lead to another order can be found for almost every description.
-/

namespace Cs537.Graphics

namespace Generator

variable {g : Generator} {targetDisk targetDisk' num : ℕ} {draws rest : List Draw} {request : ℤ × OpType}
variable {queue : List (ℤ × OpType)} {v w : ℤ} {lo n : ℕ}

/-! ## Where nothing is skipped -/

section

variable (h : ∀ d : Draw, g.reqMin ≤ d.req g.reqMax)
include h

/-- Without a minimum above zero, no draw is rejected. -/
theorem skipped_eq_zero : g.skipped targetDisk draws = 0 := by
  induction draws with
  | nil => rfl
  | cons d draws ih =>
    unfold skipped
    split
    · exact ih
    · rw [if_pos (h d)]

theorem skips_eq_zero : ∀ k ∈ g.skips num targetDisk draws, k = 0 := by
  induction num generalizing targetDisk draws with
  | zero => exact nofun
  | succ num ih =>
    rintro k (_ | ⟨_, hk⟩)
    · exact skipped_eq_zero h
    · cases hnext : g.nextRequest targetDisk draws with
      | none =>
        rw [hnext] at hk
        cases hk
      | some r =>
        rw [hnext] at hk
        exact ih k hk

end

/-! ## Where the loop does not end -/

/-- A target that no draw fits. -/
theorem nextRequest_eq_none (h : ∀ d : Draw, d.req g.reqMax % g.effectiveDiskCount ≠ targetDisk) :
    g.nextRequest targetDisk draws = none := by
  induction draws with
  | nil => rfl
  | cons d draws ih =>
    unfold nextRequest
    rw [if_pos (h d)]
    exact ih

/-- No draw is on the second disk when the maximum is not positive and above the number of disks, counted down. -/
theorem nextRequest_one_of_nonpos (hmax : g.reqMax ≤ 0) (hneg : -g.effectiveDiskCount < g.reqMax) :
    g.nextRequest 1 draws = none := by
  refine nextRequest_eq_none fun d hfits => ?_
  obtain ⟨hle, hzero | hgt⟩ := d.req_of_nonpos hmax
  · rw [hzero, Int.zero_emod] at hfits
    cases hfits
  · rw [← Int.add_emod_right] at hfits
    rcases hle.lt_or_eq with hlt | heq
    · rw [Int.emod_eq_of_lt (by omega) (by omega)] at hfits
      omega
    · rw [heq, zero_add, Int.emod_self] at hfits
      cases hfits

section

variable (hpos : 0 < g.reqMax) (hfew : g.reqMax < g.effectiveDiskCount)
include hpos hfew

/-- With fewer blocks than disks, a draw fits the target only if it is equal to it: targets go up. -/
theorem nextRequest_of_few (htarget : (targetDisk : ℤ) ≤ g.reqMax)
    (h : g.nextRequest targetDisk draws = some (request, targetDisk', rest)) :
    targetDisk ≤ request.1 ∧ (targetDisk' : ℤ) = request.1 + 1 := by
  induction draws generalizing targetDisk with
  | nil => cases h
  | cons d draws ih =>
    obtain ⟨hnonneg, hlt⟩ := d.req_of_pos hpos
    have hmod : d.req g.reqMax % g.effectiveDiskCount = d.req g.reqMax := Int.emod_eq_of_lt hnonneg (hlt.trans hfew)
    unfold nextRequest at h
    rw [hmod] at h
    split at h
    · exact ih htarget h
    · rename_i hfits
      rw [not_not] at hfits
      have hrotate : g.rotate targetDisk = targetDisk + 1 := if_neg (by omega)
      rw [hrotate] at h
      split at h
      · split at h
        · cases h
        · cases h
          exact ⟨hfits.ge, by rw [hfits, Nat.cast_succ]⟩
      · obtain ⟨hle, hnext⟩ := ih (by omega) h
        exact ⟨by omega, hnext⟩

/-- So there are no more requests than blocks from the minimum on. -/
theorem requests_of_few (htarget : (targetDisk : ℤ) ≤ g.reqMax)
    (h : g.requests num targetDisk draws = some queue) :
    num = 0 ∨ (targetDisk + num ≤ g.reqMax ∧ g.reqMin + num ≤ g.reqMax) := by
  induction num generalizing targetDisk draws queue with
  | zero => exact .inl rfl
  | succ num ih =>
    obtain ⟨first, targetDisk', rest, queue', hnext, hrest, rfl⟩ := requests_succ h
    obtain ⟨hle, hnext'⟩ := nextRequest_of_few hpos hfew htarget hnext
    obtain ⟨⟨d, hd⟩, hmin, -, -⟩ := nextRequest_found (by omega) hnext
    have hlt := (d.req_of_pos hpos).2
    right
    rcases ih (by omega) hrest with rfl | hsum
    · omega
    · omega

end

/-! ## What can be drawn -/

/-- Some draws lead from a target to a request for a block, and to the next target. -/
def Yields (g : Generator) (targetDisk : ℕ) (v : ℤ) (targetDisk' : ℕ) : Prop :=
  ∃ draws op, ∀ rest, g.nextRequest targetDisk (draws ++ rest) = some ((v, op), targetDisk', rest)

/-- A draw that fits yields its block, and it is the next disk's turn. -/
theorem yields_of_drawn (hdrawn : ∃ d : Draw, d.req g.reqMax = v) (hfits : v % g.effectiveDiskCount = targetDisk)
    (hmin : g.reqMin ≤ v) : g.Yields targetDisk v (g.rotate targetDisk) := by
  obtain ⟨d, rfl⟩ := hdrawn
  refine ⟨[d, d], if d.val < g.readFraction then .read else .write, fun rest => ?_⟩
  show (if _ then _ else if _ then _ else _) = _
  rw [if_neg (not_not.mpr hfits), if_pos hmin]
  rfl

/-- A draw below the minimum can come before. -/
theorem Yields.skip (h : g.Yields (g.rotate targetDisk) v targetDisk') (hdrawn : ∃ d : Draw, d.req g.reqMax = w)
    (hfits : w % g.effectiveDiskCount = targetDisk) (hbelow : w < g.reqMin) : g.Yields targetDisk v targetDisk' := by
  obtain ⟨d, rfl⟩ := hdrawn
  obtain ⟨draws, op, hall⟩ := h
  refine ⟨d :: draws, op, fun rest => ?_⟩
  show (if _ then _ else if _ then _ else _) = _
  rw [if_neg (not_not.mpr hfits), if_neg (not_le.mpr hbelow)]
  exact hall rest

/-- A yielded block is the first of the queue. -/
theorem Yields.requests (h : g.Yields targetDisk v targetDisk') (hrest : g.requests num targetDisk' rest = some queue) :
    ∃ draws op, g.requests (num + 1) targetDisk draws = some ((v, op) :: queue) := by
  obtain ⟨draws, op, hall⟩ := h
  refine ⟨draws ++ rest, op, ?_⟩
  unfold Generator.requests
  rw [hall rest]
  dsimp only [bind, Option.bind]
  rw [hrest]
  rfl

/-- Where every target yields a request, there are draws on which the loop ends. -/
theorem exists_requests (h : ∀ t < g.effectiveDiskCount, ∃ v t', t' < g.effectiveDiskCount ∧ g.Yields t v t')
    (num : ℕ) (htarget : targetDisk < g.effectiveDiskCount) :
    ∃ draws queue, g.requests num targetDisk draws = some queue := by
  induction num generalizing targetDisk with
  | zero => exact ⟨[], [], rfl⟩
  | succ num ih =>
    obtain ⟨v, t', ht', hyields⟩ := h targetDisk htarget
    obtain ⟨rest, queue, hrest⟩ := ih ht'
    obtain ⟨draws, op, hqueue⟩ := hyields.requests hrest
    exact ⟨draws, _, hqueue⟩

/-- From the targets up to the minimum, the minimum can be reached: draw the targets themselves. -/
theorem yields_reqMin (hD : 0 < g.effectiveDiskCount) (hlo : g.reqMin = lo) (hlt : (lo : ℤ) < g.reqMax) (hn : n ≤ lo) :
    g.Yields (n % g.effectiveDiskCount) lo (g.rotate (lo % g.effectiveDiskCount)) := by
  induction hn using Nat.decreasingInduction with
  | self => exact yields_of_drawn (Draw.exists_req (by omega) hlt) (Int.natCast_mod ..).symm hlo.le
  | of_succ n hn ih =>
    have hrotate : g.rotate (n % g.effectiveDiskCount) = (n + 1) % g.effectiveDiskCount := by
      rw [rotate_eq (Nat.mod_lt _ hD), Nat.mod_add_mod]
    rw [← hrotate] at ih
    exact ih.skip (Draw.exists_req (v := n) (by omega) (by omega)) (Int.natCast_mod ..).symm (by omega)

/-- With a block for every disk, every target yields a request. -/
theorem yields_of_many (hlo : g.reqMin = lo) (hlt : (lo : ℤ) < g.reqMax) (hmany : g.effectiveDiskCount ≤ g.reqMax) :
    ∀ t < g.effectiveDiskCount, ∃ v t', t' < g.effectiveDiskCount ∧ g.Yields t v t' := by
  intro t ht
  have hmod : t % g.effectiveDiskCount = t := Nat.mod_eq_of_lt ht
  rcases le_or_gt t lo with hle | hgt
  · have hyields := yields_reqMin (by omega) hlo hlt hle
    rw [hmod] at hyields
    exact ⟨lo, _, rotate_lt (Nat.mod_lt _ (by omega)), hyields⟩
  · refine ⟨t, _, rotate_lt ht, yields_of_drawn (Draw.exists_req (by omega) (by omega)) ?_ (by omega)⟩
    rw [← Int.natCast_mod, hmod]

/-- With fewer blocks than disks, the targets from the minimum on are drawn one after the other. -/
theorem exists_requests_of_few (hfew : g.reqMax < g.effectiveDiskCount) (hmin : g.reqMin ≤ targetDisk)
    (hmax : targetDisk + num ≤ g.reqMax) : ∃ draws queue, g.requests num targetDisk draws = some queue := by
  induction num generalizing targetDisk with
  | zero => exact ⟨[], [], rfl⟩
  | succ num ih =>
    have hmod : (targetDisk : ℤ) % g.effectiveDiskCount = targetDisk := Int.emod_eq_of_lt (by omega) (by omega)
    have hyields := yields_of_drawn (Draw.exists_req (by omega) (by omega)) hmod hmin
    have hrotate : g.rotate targetDisk = targetDisk + 1 := if_neg (by omega)
    rw [hrotate] at hyields
    have hmin' : g.reqMin ≤ (targetDisk + 1 : ℕ) := by omega
    obtain ⟨rest, queue, hrest⟩ := ih hmin' (by omega)
    obtain ⟨draws, op, hqueue⟩ := hyields.requests hrest
    exact ⟨draws, _, hqueue⟩

/-- With a maximum far enough below zero, every target yields a request. -/
theorem yields_of_negative (hlt : g.reqMin < g.reqMax) (hneg : g.reqMax ≤ -g.effectiveDiskCount) :
    ∀ t < g.effectiveDiskCount, ∃ v t', t' < g.effectiveDiskCount ∧ g.Yields t v t' := by
  intro t ht
  by_cases hzero : t = 0
  · subst hzero
    exact ⟨0, _, rotate_lt ht, yields_of_drawn (Draw.exists_req_zero _) rfl (by omega)⟩
  · refine ⟨t - g.effectiveDiskCount, _, rotate_lt ht, yields_of_drawn ?_ ?_ (by omega)⟩
    · exact Draw.exists_req_of_nonpos (by omega) (by omega)
    · rw [Int.sub_emod_right]
      exact Int.emod_eq_of_lt (by omega) (by omega)

/-- A maximum that is not positive, and a request on every target or just one request: the loop ends. -/
theorem exists_requests_of_nonpos (hD : 0 < g.effectiveDiskCount) (hlt : g.reqMin < g.reqMax) (hmax : g.reqMax ≤ 0)
    (hends : -g.effectiveDiskCount < g.reqMax → num = 0) :
    ∃ draws queue, g.requests (num + 1) 0 draws = some queue := by
  rcases le_or_gt g.reqMax (-g.effectiveDiskCount) with hneg | hneg
  · exact exists_requests (yields_of_negative hlt hneg) _ hD
  · have hyields : g.Yields 0 0 _ := yields_of_drawn (Draw.exists_req_zero _) rfl (by omega)
    have hrest : ∀ t, g.requests 0 t [] = some [] := fun _ => rfl
    obtain ⟨draws, op, hqueue⟩ := hyields.requests (hrest _)
    rw [hends hneg]
    exact ⟨draws, _, hqueue⟩

section

variable (hlo : g.reqMin = lo)
include hlo

/-- The minimum can be the first request. -/
theorem exists_first_reqMin (hD : 0 < g.effectiveDiskCount) (hlt : (lo : ℤ) < g.reqMax)
    (hends : g.reqMax < g.effectiveDiskCount → lo + (num + 1) ≤ g.reqMax) :
    ∃ draws op queue, g.requests (num + 1) 0 draws = some (((lo : ℤ), op) :: queue) := by
  have hyields := yields_reqMin hD hlo hlt (Nat.zero_le lo)
  rw [Nat.zero_mod] at hyields
  have hrest : ∃ rest queue, g.requests num (g.rotate (lo % g.effectiveDiskCount)) rest = some queue := by
    rcases le_or_gt (g.effectiveDiskCount : ℤ) g.reqMax with hmany | hfew
    · exact exists_requests (yields_of_many hlo hlt hmany) num (rotate_lt (Nat.mod_lt _ hD))
    · have hsum := hends hfew
      have hrotate : g.rotate (lo % g.effectiveDiskCount) = lo + 1 := by
        rw [Nat.mod_eq_of_lt (by omega)]
        exact if_neg (by omega)
      rw [hrotate]
      exact exists_requests_of_few hfew (by omega) (by omega)
  obtain ⟨rest, queue, hrest⟩ := hrest
  obtain ⟨draws, op, hqueue⟩ := hyields.requests hrest
  exact ⟨draws, op, queue, hqueue⟩

variable (hD : 1 < g.effectiveDiskCount) (hpos : 0 < lo) (hdisk : g.effectiveDiskCount ∣ lo)
include hD hpos hdisk

/-- Behind a draw of block zero, the block above a minimum on the first disk can be the first request. -/
theorem exists_first_succ (hlt : (lo : ℤ) + 1 < g.reqMax) :
    ∃ draws op queue, g.requests (num + 1) 0 draws = some (((lo : ℤ) + 1, op) :: queue) := by
  have hle : g.effectiveDiskCount ≤ lo := Nat.le_of_dvd hpos hdisk
  have hrotate : g.rotate 0 = 1 := if_neg (by omega)
  have hfits : ((lo : ℤ) + 1) % g.effectiveDiskCount = 1 := by
    rw [Int.add_emod, Int.emod_eq_zero_of_dvd (Int.natCast_dvd_natCast.mpr hdisk), zero_add, Int.emod_emod]
    exact Int.emod_eq_of_lt zero_le_one (Nat.one_lt_cast.mpr hD)
  have hyields : g.Yields 0 (lo + 1) (g.rotate 1) := by
    refine Yields.skip (w := 0) ?_ (Draw.exists_req_zero _) rfl (by omega)
    rw [hrotate]
    exact yields_of_drawn (Draw.exists_req (by omega) hlt) hfits (by omega)
  have hmany : (g.effectiveDiskCount : ℤ) ≤ g.reqMax := by omega
  obtain ⟨rest, queue, hrest⟩ := exists_requests (yields_of_many hlo (by omega) hmany) num (rotate_lt hD)
  obtain ⟨draws, op, hqueue⟩ := hyields.requests hrest
  exact ⟨draws, op, queue, hqueue⟩

/-- A minimum on the first disk can be the first two requests. -/
theorem exists_second_reqMin (hlt : (lo : ℤ) < g.reqMax) :
    ∃ draws op op' queue, g.requests (num + 2) 0 draws = some (((lo : ℤ), op) :: ((lo : ℤ), op') :: queue) := by
  have hle : g.effectiveDiskCount ≤ lo := Nat.le_of_dvd hpos hdisk
  have hrotate : g.rotate 0 = 1 := if_neg (by omega)
  have hfirst : g.Yields 0 lo 1 := by
    rw [← hrotate]
    refine yields_of_drawn (Draw.exists_req (by omega) hlt) ?_ hlo.le
    exact Int.emod_eq_zero_of_dvd (Int.natCast_dvd_natCast.mpr hdisk)
  have hsecond := yields_reqMin (n := 1) (zero_lt_one.trans hD) hlo hlt hpos
  rw [Nat.mod_eq_of_lt hD] at hsecond
  have hmany : (g.effectiveDiskCount : ℤ) ≤ g.reqMax := by omega
  obtain ⟨rest, queue, hrest⟩ :=
    exists_requests (yields_of_many hlo hlt hmany) num (rotate_lt (Nat.mod_lt lo (zero_lt_one.trans hD)))
  obtain ⟨draws₂, op₂, hqueue₂⟩ := hsecond.requests hrest
  obtain ⟨draws₁, op₁, hqueue₁⟩ := hfirst.requests hqueue₂
  exact ⟨draws₁, op₁, op₂, queue, hqueue₁⟩

end

end Generator

/-! ## Balance -/

/-- The requests for a disk, out of the given number of disks. -/
def countDisk (diskCount disk : ℕ) (queue : List (ℤ × OpType)) : ℕ :=
  queue.countP fun request => request.1 % (diskCount : ℤ) = (disk : ℤ)

/-- What the option asks for: the requests are in the range, the `i`-th one is on the disk `i` modulo the number of
disks, and so the disks have as many requests up to one. -/
structure AddrDesc.Balances (desc : AddrDesc) (mapping : Mapping) (queue : List (ℤ × OpType)) : Prop where
  range : ∀ request ∈ queue, desc.reqMin ≤ request.1 ∧ request.1 < desc.maximum mapping
  rotates : ∀ (i : ℕ) (request : ℤ × OpType), queue[i]? = some request →
    request.1 % mapping.effectiveDiskCount = (i % mapping.effectiveDiskCount : ℕ)
  balanced : ∀ a < mapping.effectiveDiskCount, ∀ b < mapping.effectiveDiskCount,
    countDisk mapping.effectiveDiskCount a queue ≤ countDisk mapping.effectiveDiskCount b queue + 1

/-- The descriptions for which no draws lead to another order. -/
def AddrDesc.AlwaysBalanced (desc : AddrDesc) (mapping : Mapping) : Prop :=
  desc.num = 0
    -- no draw lies below the minimum
    ∨ (desc.reqMin ≤ 0 ∧ 0 < desc.maximum mapping)
    -- one request, and one block that it can be for, which is on the first disk
    ∨ (desc.num = 1 ∧ 0 < desc.reqMin ∧ desc.maximum mapping = desc.reqMin + 1
      ∧ (mapping.effectiveDiskCount : ℤ) ∣ desc.reqMin)
    -- the loop does not end: the targets run past the maximum
    ∨ (0 < desc.reqMin ∧ desc.maximum mapping < mapping.effectiveDiskCount
      ∧ desc.maximum mapping < desc.reqMin + desc.num)
    -- the loop does not end: no draw is on the second disk
    ∨ (desc.maximum mapping ≤ 0 ∧ -mapping.effectiveDiskCount < desc.maximum mapping ∧ 2 ≤ desc.num)

namespace AddrDesc

variable {desc : AddrDesc} {mapping : Mapping} {readFraction : ℚ} {draws : List Draw} {queue : List (ℤ × OpType)}

/-- Every mapping stripes over more than one disk. -/
theorem effectiveDiskCount_pos (mapping : Mapping) : 1 < mapping.effectiveDiskCount := by
  cases mapping <;> decide

/-- Requests that go round the disks are spread over them up to one. -/
theorem countDisk_le_of_rotates {D : ℕ} (hD : 0 < D) (h : ∀ (i : ℕ) (request : ℤ × OpType), queue[i]? = some request →
    request.1 % D = (i % D : ℕ)) {a b : ℕ} (ha : a < D) (hb : b < D) :
    countDisk D a queue ≤ countDisk D b queue + 1 := by
  have hcount : ∀ c < D, countDisk D c queue = queue.length / D + if c % D < queue.length % D then 1 else 0 := by
    intro c hc
    rw [← Nat.count_modEq_card _ hD c]
    refine List.countP_eq_count queue fun i request hi => ?_
    rw [h i request hi, Nat.cast_inj, Nat.ModEq, Nat.mod_eq_of_lt hc]
  rw [hcount a ha, hcount b hb]
  split <;> split <;> omega

/-- With a range to draw from, what is generated comes from the loop. -/
theorem generate_eq_requests_iff (h : desc.reqMin < desc.maximum mapping) :
    desc.generate mapping readFraction draws = .requests queue
      ↔ (desc.generator mapping readFraction).requests desc.num 0 draws = some queue := by
  unfold generate
  rw [if_neg (not_le.mpr h)]
  split
  · rename_i hnone
    rw [hnone]
    exact ⟨nofun, nofun⟩
  · rename_i found hsome
    rw [hsome, Generated.requests.injEq, Option.some.injEq]

/-- The requests are within the range. -/
theorem lt_maximum (hpos : 0 < desc.maximum mapping)
    (hqueue : (desc.generator mapping readFraction).requests desc.num 0 draws = some queue) :
    ∀ request ∈ queue, desc.reqMin ≤ request.1 ∧ request.1 < desc.maximum mapping := by
  intro request hmem
  obtain ⟨⟨d, hd⟩, hmin⟩ :=
    Generator.mem_requests (zero_lt_one.trans (effectiveDiskCount_pos mapping)) hqueue request hmem
  refine ⟨hmin, ?_⟩
  rw [← hd]
  exact (d.req_of_pos hpos).2

/-- A maximum that is not positive is below every draw or equal to it. -/
theorem num_eq_zero_of_range (hmax : desc.maximum mapping ≤ 0)
    (hqueue : (desc.generator mapping readFraction).requests desc.num 0 draws = some queue)
    (hrange : ∀ request ∈ queue, request.1 < desc.maximum mapping) : desc.num = 0 := by
  rw [← Generator.length_requests hqueue, List.length_eq_zero_iff, List.eq_nil_iff_forall_not_mem]
  intro request hmem
  obtain ⟨⟨d, hd⟩, -⟩ :=
    Generator.mem_requests (zero_lt_one.trans (effectiveDiskCount_pos mapping)) hqueue request hmem
  have hlt := hrange request hmem
  obtain ⟨-, hzero | hgt⟩ := d.req_of_nonpos hmax
  · have : request.1 = 0 := hd.symm.trans hzero
    omega
  · exact absurd (hgt.trans_eq hd) hlt.not_gt

/-- The queue is balanced when the rejected draws come in whole rounds. -/
theorem balances_iff (hqueue : (desc.generator mapping readFraction).requests desc.num 0 draws = some queue) :
    desc.Balances mapping queue ↔ (desc.num = 0 ∨ 0 < desc.maximum mapping)
      ∧ ∀ k ∈ (desc.generator mapping readFraction).skips desc.num 0 draws, mapping.effectiveDiskCount ∣ k := by
  have hD : 0 < mapping.effectiveDiskCount := zero_lt_one.trans (effectiveDiskCount_pos mapping)
  have hrotates := Generator.rotates_iff hD hqueue
  simp only [Nat.zero_add] at hrotates
  constructor
  · intro h
    refine ⟨?_, hrotates.mp h.rotates⟩
    rcases le_or_gt (desc.maximum mapping) 0 with hmax | hmax
    · exact .inl (num_eq_zero_of_range hmax hqueue fun request hmem => (h.range request hmem).2)
    · exact .inr hmax
  · rintro ⟨hmax, hskips⟩
    refine ⟨?_, hrotates.mpr hskips, fun a ha b hb => countDisk_le_of_rotates hD (hrotates.mpr hskips) ha hb⟩
    rcases hmax with hzero | hpos
    · have hnil : queue = [] := List.length_eq_zero_iff.mp ((Generator.length_requests hqueue).trans hzero)
      rw [hnil]
      exact nofun
    · exact lt_maximum hpos hqueue

/-! ## Draws that lead to another order -/

/-- A first request that is not on the first disk. -/
theorem not_balances_of_first {request : ℤ × OpType} (h : ¬(mapping.effectiveDiskCount : ℤ) ∣ request.1) :
    ¬desc.Balances mapping (request :: queue) := by
  intro hbalances
  have hfirst := hbalances.rotates 0 request rfl
  rw [Nat.zero_mod] at hfirst
  exact h (Int.dvd_of_emod_eq_zero hfirst)

/-- A second request that is on the first disk. -/
theorem not_balances_of_second {first second : ℤ × OpType} (h : (mapping.effectiveDiskCount : ℤ) ∣ second.1) :
    ¬desc.Balances mapping (first :: second :: queue) := by
  intro hbalances
  have hsecond := hbalances.rotates 1 second rfl
  rw [Int.emod_eq_zero_of_dvd h, Nat.mod_eq_of_lt (effectiveDiskCount_pos mapping)] at hsecond
  cases hsecond

/-- Outside these descriptions, some draws lead to another order. -/
theorem exists_not_balances (h : desc.reqMin < desc.maximum mapping) (halways : ¬desc.AlwaysBalanced mapping) :
    ∃ draws queue, (desc.generator mapping readFraction).requests desc.num 0 draws = some queue
      ∧ ¬desc.Balances mapping queue := by
  have hD := effectiveDiskCount_pos mapping
  unfold AlwaysBalanced at halways
  obtain ⟨num, hnum⟩ := Nat.exists_eq_succ_of_ne_zero fun hzero => halways (.inl hzero)
  rw [hnum] at halways
  rcases le_or_gt (desc.maximum mapping) 0 with hmax | hmax
  · -- the requests are out of range
    obtain ⟨draws, queue, hqueue⟩ : ∃ draws queue,
        (desc.generator mapping readFraction).requests (num + 1) 0 draws = some queue :=
      Generator.exists_requests_of_nonpos (zero_lt_one.trans hD) h hmax fun hneg => by
        by_contra hne
        exact halways (.inr (.inr (.inr (.inr ⟨hmax, hneg, by omega⟩))))
    rw [← Nat.succ_eq_add_one, ← hnum] at hqueue
    refine ⟨draws, queue, hqueue, fun hbalances => ?_⟩
    have hzero := num_eq_zero_of_range hmax hqueue fun request hmem => (hbalances.range request hmem).2
    exact absurd (hnum.symm.trans hzero) num.succ_ne_zero
  obtain ⟨lo, hlo⟩ := Int.eq_ofNat_of_zero_le (a := desc.reqMin) (by omega)
  have hpos : 0 < lo := by omega
  have hlt : (lo : ℤ) < desc.maximum mapping := by omega
  rw [hnum]
  by_cases hdisk : mapping.effectiveDiskCount ∣ lo
  · have hdvd : (mapping.effectiveDiskCount : ℤ) ∣ lo := Int.natCast_dvd_natCast.mpr hdisk
    by_cases hsingle : desc.maximum mapping = desc.reqMin + 1
    · -- the minimum is also the second request
      obtain ⟨num, rfl⟩ : ∃ k, num = k + 1 := by
        refine Nat.exists_eq_succ_of_ne_zero ?_
        rintro rfl
        exact halways (.inr (.inr (.inl ⟨rfl, by omega, hsingle, hlo ▸ hdvd⟩)))
      obtain ⟨draws, op, op', queue, hqueue⟩ : ∃ draws op op' queue,
          (desc.generator mapping readFraction).requests (num + 2) 0 draws
            = some (((lo : ℤ), op) :: ((lo : ℤ), op') :: queue) :=
        Generator.exists_second_reqMin hlo hD hpos hdisk hlt
      exact ⟨draws, _, hqueue, not_balances_of_second hdvd⟩
    · -- the block above the minimum is the first one
      have hlt' : (lo : ℤ) + 1 < desc.maximum mapping := by omega
      obtain ⟨draws, op, queue, hqueue⟩ : ∃ draws op queue,
          (desc.generator mapping readFraction).requests (num + 1) 0 draws = some (((lo : ℤ) + 1, op) :: queue) :=
        Generator.exists_first_succ hlo hD hpos hdisk hlt'
      refine ⟨draws, _, hqueue, not_balances_of_first fun hsucc => ?_⟩
      have hone : (mapping.effectiveDiskCount : ℤ) ∣ 1 := (Int.dvd_add_right hdvd).mp hsucc
      have hle := Int.le_of_dvd one_pos hone
      omega
  · -- the minimum is the first request
    have hends : desc.maximum mapping < mapping.effectiveDiskCount → lo + (num + 1) ≤ desc.maximum mapping := by
      intro hfew
      by_contra hgt
      exact halways (.inr (.inr (.inr (.inl ⟨by omega, hfew, by omega⟩))))
    obtain ⟨draws, op, queue, hqueue⟩ : ∃ draws op queue,
        (desc.generator mapping readFraction).requests (num + 1) 0 draws = some (((lo : ℤ), op) :: queue) :=
      Generator.exists_first_reqMin hlo (zero_lt_one.trans hD) hlt hends
    exact ⟨draws, _, hqueue, not_balances_of_first (mt Int.natCast_dvd_natCast.mp hdisk)⟩

/-- With a minimum that is not positive, every draw reaches it. -/
theorem reqMin_le_req (h : desc.reqMin < desc.maximum mapping) (hmin : desc.reqMin ≤ 0) (d : Draw) :
    desc.reqMin ≤ d.req (desc.maximum mapping) := by
  rcases le_or_gt (desc.maximum mapping) 0 with hmax | hmax
  · obtain ⟨-, hzero | hgt⟩ := d.req_of_nonpos hmax
    · omega
    · omega
  · exact hmin.trans (d.req_of_pos hmax).1

/-- A single block on the first disk is the first request, behind a multiple of skipped draws. -/
theorem dvd_skips_of_single (hone : desc.num = 1) (hpos : 0 < desc.reqMin)
    (hmax : desc.maximum mapping = desc.reqMin + 1) (hdisk : (mapping.effectiveDiskCount : ℤ) ∣ desc.reqMin)
    (hqueue : (desc.generator mapping readFraction).requests desc.num 0 draws = some queue) :
    ∀ k ∈ (desc.generator mapping readFraction).skips desc.num 0 draws, mapping.effectiveDiskCount ∣ k := by
  have hD : 0 < mapping.effectiveDiskCount := zero_lt_one.trans (effectiveDiskCount_pos mapping)
  rw [hone] at hqueue ⊢
  refine (Generator.rotates_iff hD hqueue).mp fun i request hi => ?_
  obtain ⟨hlen, -⟩ := List.getElem?_eq_some_iff.mp hi
  rw [Generator.length_requests hqueue, Nat.lt_one_iff] at hlen
  have hmem := Generator.mem_requests hD hqueue request (List.mem_of_getElem? hi)
  obtain ⟨⟨d, hd⟩, hmin⟩ := hmem
  have hlt : d.req (desc.maximum mapping) < desc.maximum mapping := (d.req_of_pos (by omega)).2
  have heq : request.1 = desc.reqMin := by
    have hd' : d.req (desc.maximum mapping) = request.1 := hd
    have hmin' : desc.reqMin ≤ request.1 := hmin
    omega
  rw [heq, hlen, Nat.add_zero, Nat.zero_mod]
  exact Int.emod_eq_zero_of_dvd hdisk

/-- A maximum above `-mapping.effectiveDiskCount` that is not positive leaves the second disk without a request. -/
theorem requests_eq_none_of_nonpos (hmax : desc.maximum mapping ≤ 0)
    (hneg : -mapping.effectiveDiskCount < desc.maximum mapping) (hmin : desc.reqMin < desc.maximum mapping)
    (hnum : 2 ≤ desc.num) : (desc.generator mapping readFraction).requests desc.num 0 draws = none := by
  have hD := effectiveDiskCount_pos mapping
  obtain ⟨num, hsucc⟩ := Nat.exists_eq_add_of_le' hnum
  rw [hsucc, Option.eq_none_iff_forall_ne_some]
  intro queue hqueue
  set g := desc.generator mapping readFraction
  have hgD : g.effectiveDiskCount = mapping.effectiveDiskCount := rfl
  obtain ⟨first, targetDisk', rest, queue', hfirst, hqueue', -⟩ := Generator.requests_succ hqueue
  obtain ⟨second, targetDisk'', rest', queue'', hsecond, -, -⟩ := Generator.requests_succ hqueue'
  have htarget := (Generator.nextRequest_found (by omega) hfirst).next
  have hskipped : g.skipped 0 draws = 0 := Generator.skipped_eq_zero (reqMin_le_req hmin (by omega))
  rw [hskipped, hgD, Nat.add_zero, Nat.mod_eq_of_lt hD] at htarget
  have hnone : g.nextRequest 1 rest = none := Generator.nextRequest_one_of_nonpos hmax hneg
  rw [htarget, hnone] at hsecond
  cases hsecond

/-- For these descriptions, the requests are balanced. -/
theorem AlwaysBalanced.balances (halways : desc.AlwaysBalanced mapping) (h : desc.reqMin < desc.maximum mapping)
    (hqueue : (desc.generator mapping readFraction).requests desc.num 0 draws = some queue) :
    desc.Balances mapping queue := by
  have hD := effectiveDiskCount_pos mapping
  rw [balances_iff hqueue]
  rcases halways with hzero | ⟨hmin, hmax⟩ | ⟨hone, hpos, hsingle, hdisk⟩ | ⟨hpos, hfew, hnum⟩ | ⟨hmax, hneg, hnum⟩
  · refine ⟨.inl hzero, ?_⟩
    rw [hzero]
    exact nofun
  · refine ⟨.inr hmax, fun k hk => ?_⟩
    rw [Generator.skips_eq_zero (g := desc.generator mapping readFraction) (reqMin_le_req h hmin) k hk]
    exact dvd_zero _
  · exact ⟨.inr (by omega), dvd_skips_of_single hone hpos hsingle hdisk hqueue⟩
  · -- fewer blocks than disks, and not enough of them
    have htarget : ((0 : ℕ) : ℤ) ≤ desc.maximum mapping := by omega
    rcases Generator.requests_of_few (hpos.trans h) hfew htarget hqueue with hzero | ⟨-, hsum⟩
    · refine ⟨.inl hzero, ?_⟩
      rw [hzero]
      exact nofun
    · exact absurd hsum hnum.not_ge
  · rw [requests_eq_none_of_nonpos hmax hneg h hnum] at hqueue
    cases hqueue

/-- **When random requests are balanced.** The requests drawn from a stream are balanced exactly when the maximum is
positive and, before each request, the draws below the minimum go all the way round the disks. All streams lead to
balanced requests exactly for the descriptions above: the minimum is not positive and the maximum is, up to descriptions
that leave nothing to choose. -/
theorem generate_balances_iff (desc : AddrDesc) (mapping : Mapping) (readFraction : ℚ)
    (h : desc.reqMin < desc.maximum mapping) :
    (∀ draws queue, desc.generate mapping readFraction draws = .requests queue →
        (desc.Balances mapping queue ↔ (desc.num = 0 ∨ 0 < desc.maximum mapping)
          ∧ ∀ k ∈ (desc.generator mapping readFraction).skips desc.num 0 draws, mapping.effectiveDiskCount ∣ k))
      ∧ ((∀ draws queue, desc.generate mapping readFraction draws = .requests queue → desc.Balances mapping queue)
        ↔ desc.AlwaysBalanced mapping) := by
  simp only [generate_eq_requests_iff h]
  refine ⟨fun draws queue hqueue => balances_iff hqueue, fun hall => ?_, fun halways draws queue hqueue =>
    halways.balances h hqueue⟩
  by_contra halways
  obtain ⟨draws, queue, hqueue, hnot⟩ : ∃ draws queue,
      (desc.generator mapping readFraction).requests desc.num 0 draws = some queue ∧ ¬desc.Balances mapping queue :=
    exists_not_balances h halways
  exact hnot (hall draws queue hqueue)

/-- The default description. -/
theorem generate_balances_default : (0 : ℤ) < Mapping.raid4.blockCount
    ∧ ∀ draws queue, AddrDesc.generate ⟨5, -1, 0⟩ .raid4 (1 / 2) draws = .requests queue →
      AddrDesc.Balances ⟨5, -1, 0⟩ .raid4 queue :=
  ⟨by decide, (generate_balances_iff ⟨5, -1, 0⟩ .raid4 (1 / 2) (by decide)).2.mpr (.inr (.inl (by decide)))⟩

/-- Draws of the blocks 0, 5, 2, 3, 4 and 5, when 5 is the minimum. -/
theorem not_balances_of_reqMin :
    let draw (v : Fin 80) : Draw := .ofReq v 80 (by omega) (by omega)
    let queue : List (ℤ × OpType) := [(5, .read), (5, .read)]
    AddrDesc.generate ⟨2, -1, 5⟩ .striping (1 / 2) [draw 0, draw 5, draw 0, draw 2, draw 3, draw 4, draw 5, draw 0]
        = .requests queue
      ∧ countDisk 4 1 queue = 2 ∧ countDisk 4 0 queue = 0 ∧ ¬AddrDesc.Balances ⟨2, -1, 5⟩ .striping queue := by
  refine ⟨?_, by decide, by decide, not_balances_of_first (by decide)⟩
  rw [generate_eq_requests_iff (by decide)]
  decide +kernel

end AddrDesc

end Cs537.Graphics
