import Mathlib.Tactic.Linarith
import Cs537.Lib.PathCost
import Cs537.Raid.Service

/-!
# Disk time and the work of a disk

The time that a disk charges for an access depends on the distance of the head: a transfer for every block within
a track, and one seek beyond. But for one distance this is a bounded metric, so that a disk never saves time with
more work: a step of exactly one track costs a seek and a transfer, a tenth more than a track of transfers.
-/

namespace Cs537.Disk

/-! ## The time of one access -/

/-- What a default disk charges for a move of the head from `p` to `a`. -/
def accessTime (p a : ℤ) : ℚ := if |a - p| < 100 then |a - p| * (1 / 10) else 10 + 1 / 10

/-- The same, but for a step of exactly one track. -/
def shortTime (p a : ℤ) : ℚ := min (|a - p| * (1 / 10)) (10 + 1 / 10)

/-- The steps of exactly one track. -/
def trackStep (p a : ℤ) : ℕ := if |a - p| = 100 then 1 else 0

/-- No access takes negative time. -/
theorem shortTime_nonneg (p a : ℤ) : 0 ≤ shortTime p a := by
  have habs : (0 : ℚ) ≤ |a - p| := by exact_mod_cast abs_nonneg (a - p)
  exact le_min (by linarith) (by norm_num)

/-- The triangle inequality. -/
theorem shortTime_triangle (p a b : ℤ) : shortTime p b ≤ shortTime p a + shortTime a b := by
  have htri : |b - p| ≤ |a - p| + |b - a| := by
    have habs := abs_add_le (a - p) (b - a)
    rwa [sub_add_sub_cancel'] at habs
  have htri' : ((|b - p| : ℤ) : ℚ) ≤ (|a - p| : ℤ) + (|b - a| : ℤ) := by exact_mod_cast htri
  have hpa := shortTime_nonneg p a
  have hab := shortTime_nonneg a b
  unfold shortTime at hpa hab ⊢
  rcases min_choice ((|a - p| : ℤ) * (1 / 10 : ℚ)) (10 + 1 / 10) with hnear | hfar
  · rcases min_choice ((|b - a| : ℤ) * (1 / 10 : ℚ)) (10 + 1 / 10) with hnear' | hfar'
    · rw [hnear, hnear']
      refine (min_le_left _ _).trans ?_
      linarith
    · rw [hfar'] at hab ⊢
      exact (min_le_right _ _).trans (by linarith)
  · rw [hfar] at hpa ⊢
    exact (min_le_right _ _).trans (by linarith)

/-- A step of one track is charged a tenth more than its transfers. -/
theorem accessTime_eq (p a : ℤ) : accessTime p a = shortTime p a + (trackStep p a : ℚ) * (1 / 10) := by
  unfold accessTime shortTime trackStep
  rcases lt_trichotomy |a - p| 100 with hlt | heq | hgt
  · have hle : ((|a - p| : ℤ) : ℚ) ≤ 100 := by exact_mod_cast hlt.le
    rw [if_pos hlt, if_neg hlt.ne, min_eq_left (by linarith)]
    simp
  · rw [heq]
    norm_num
  · have hle : (101 : ℚ) ≤ (|a - p| : ℤ) := by exact_mod_cast hgt
    rw [if_neg (by omega), if_neg hgt.ne', min_eq_right (by linarith)]
    simp

/-! ## The time of a sequence -/

/-- A disk with the default geometry and times, that is new or has its head on a block. -/
structure Default (d : Disk) : Prop where
  seekTime : d.seekTime = 10
  xferTime : d.xferTime = 1 / 10
  numTracks : d.numTracks = 100
  blocksPerTrack : d.blocksPerTrack = 100
  head : d.currAddr = -10000 ∨ 0 ≤ d.currAddr

variable {d d' : Disk}

/-- A fresh disk has the default times. -/
theorem fresh_default : Default fresh := ⟨rfl, rfl, rfl, rfl, Or.inl rfl⟩

/-- The head is on the same track only if it is close. -/
theorem Default.near_iff (h : d.Default) (addr : ℕ) :
    d.currAddr.tdiv (100 : ℕ) = (addr : ℤ).tdiv (100 : ℕ) ∨ |(addr : ℤ) - d.currAddr| < 100
      ↔ |(addr : ℤ) - d.currAddr| < 100 := by
  refine or_iff_right_of_imp fun htrack => ?_
  rw [Int.tdiv_eq_ediv_of_nonneg (by omega : (0 : ℤ) ≤ addr)] at htrack
  rcases h.head with hnew | hblock
  · have hneg : (-10000 : ℤ).tdiv (100 : ℕ) = -100 := by decide
    rw [hnew, hneg] at htrack
    omega
  · rw [Int.tdiv_eq_ediv_of_nonneg hblock] at htrack
    rw [abs_lt]
    omega

/-- One access. -/
theorem Default.enqueue (h : d.Default) {addr : ℕ} (henq : d.enqueue addr = .ok d') :
    d'.Default ∧ d'.currAddr = addr ∧ d'.utilTime = d.utilTime + accessTime d.currAddr addr := by
  have hnear := h.near_iff addr
  obtain ⟨hseek, hxfer, htracks, hblocks, -⟩ := h
  have habs : (if (addr : ℤ) - d.currAddr < 0 then -((addr : ℤ) - d.currAddr) else (addr : ℤ) - d.currAddr)
      = |(addr : ℤ) - d.currAddr| := by
    split
    · rename_i hneg
      exact (abs_of_neg hneg).symm
    · rename_i hpos
      exact (abs_of_nonneg (not_lt.mp hpos)).symm
  have haddr := (enqueue_eq_ok henq).1
  unfold Disk.enqueue at henq
  rw [if_pos haddr] at henq
  simp only [habs, htracks, hblocks, Nat.cast_ofNat] at henq hnear
  unfold accessTime
  simp only [hnear] at henq
  split at henq
  · rename_i hlt
    cases henq
    rw [if_pos hlt]
    split <;> exact ⟨⟨hseek, hxfer, rfl, rfl, Or.inr (Int.natCast_nonneg addr)⟩, rfl, by rw [hxfer]⟩
  · rename_i hge
    cases henq
    rw [if_neg hge]
    exact ⟨⟨hseek, hxfer, rfl, rfl, Or.inr (Int.natCast_nonneg addr)⟩, rfl, by rw [hseek, hxfer]⟩

/-- The time of a sequence is the cost of the path of the head. -/
theorem Default.enqueueAll (h : d.Default) {offs : List ℕ} (henq : d.enqueueAll offs = .ok d') :
    d'.utilTime = d.utilTime + Path.cost accessTime d.currAddr (offs.map Nat.cast) := by
  induction offs generalizing d with
  | nil =>
    cases henq
    exact (add_zero _).symm
  | cons addr offs ih =>
    obtain ⟨t, hfirst, hrest⟩ := Except.foldlM_cons_eq_ok.mp henq
    obtain ⟨ht, hhead, htime⟩ := h.enqueue hfirst
    rw [ih ht hrest, htime, hhead, List.map_cons, Path.cost]
    exact add_assoc _ _ _

/-- The steps of exactly one track that the head of a new disk makes. -/
def trackSteps (offs : List ℕ) : ℕ := Path.cost trackStep fresh.currAddr (offs.map Nat.cast)

/-- The time of a new disk. -/
theorem utilTime_fresh {offs : List ℕ} (henq : fresh.enqueueAll offs = .ok d') :
    d'.utilTime = Path.cost shortTime fresh.currAddr (offs.map Nat.cast) + (trackSteps offs : ℚ) * (1 / 10) := by
  have hsteps : Path.cost (fun p a => (trackStep p a : ℚ) * (1 / 10)) fresh.currAddr (offs.map Nat.cast)
      = (trackSteps offs : ℚ) * (1 / 10) :=
    Path.cost_map trackStep ((AddMonoidHom.mulRight (1 / 10 : ℚ)).comp (Nat.castAddMonoidHom ℚ)) _ _
  rw [fresh_default.enqueueAll henq, funext₂ accessTime_eq, Path.cost_add, hsteps]
  exact zero_add _

/-- **Disk time is monotone in the work, up to steps of one track.** A sequence within the capacity, and every
subsequence of it, is served by a new disk, and apart from a tenth for every step of exactly one track, the
subsequence takes at most the time of the whole. -/
theorem utilTime_le_of_sublist {offs offs' : List ℕ} (hcap : ∀ o ∈ offs', o < fresh.blocksPerDisk)
    (hsub : offs.Sublist offs') :
    ∃ d d', fresh.enqueueAll offs = .ok d ∧ fresh.enqueueAll offs' = .ok d'
      ∧ d.utilTime ≤ d'.utilTime + ((trackSteps offs : ℚ) - trackSteps offs') * (1 / 10)
      ∧ (trackSteps offs ≤ trackSteps offs' → d.utilTime ≤ d'.utilTime) := by
  obtain ⟨d', hd'⟩ := exists_enqueueAll hcap
  obtain ⟨d, hd⟩ := exists_enqueueAll fun o ho => hcap o (hsub.subset ho)
  have hle := Path.cost_le_of_sublist shortTime_nonneg shortTime_triangle (hsub.map Nat.cast) fresh.currAddr
  have htime : d.utilTime ≤ d'.utilTime + ((trackSteps offs : ℚ) - trackSteps offs') * (1 / 10) := by
    rw [utilTime_fresh hd, utilTime_fresh hd']
    linarith
  refine ⟨d, d', hd, hd', htime, fun hsteps => htime.trans ?_⟩
  have hcast : (trackSteps offs : ℚ) ≤ trackSteps offs' := by exact_mod_cast hsteps
  linarith

/-- Leaving out the access in the middle saves two seeks. -/
theorem utilTime_le_of_sublist_skip : ∃ d d', fresh.enqueueAll [3, 9] = .ok d
    ∧ fresh.enqueueAll [3, 500, 9] = .ok d' ∧ d.utilTime ≤ d'.utilTime := by
  obtain ⟨d, d', hd, hd', -, hle⟩ := @utilTime_le_of_sublist [3, 9] [3, 500, 9] (by decide) (by decide)
  exact ⟨d, d', hd, hd', hle (by decide)⟩

/-- Without the block in the middle, the head steps over exactly one track, which takes a seek. -/
theorem not_utilTime_le_skip : [0, 100].Sublist [0, 50, 100] ∧ (∀ o ∈ [0, 50, 100], o < fresh.blocksPerDisk)
    ∧ ∃ d d', fresh.enqueueAll [0, 100] = .ok d ∧ fresh.enqueueAll [0, 50, 100] = .ok d'
      ∧ ¬ d.utilTime ≤ d'.utilTime := by
  refine ⟨by decide, by decide, _, _, rfl, rfl, ?_⟩
  decide +kernel

end Cs537.Disk
