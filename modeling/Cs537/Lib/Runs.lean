import Mathlib.Data.List.TakeWhile
import Mathlib.Order.Lattice

/-!
# Runs of equal keys

A list of keyed values is cut into its maximal runs of equal keys. On a list sorted by key, each key has
one run, the runs come in increasing order, and the run of a key holds all its values.
-/

namespace Runs

variable {κ ν : Type*}

section Runs

variable [DecidableEq κ]

/-- Cut a list into its maximal runs of equal keys. -/
def runs : List (κ × ν) → List (κ × List ν)
  | [] => []
  | (k, v) :: l =>
    (k, v :: (l.takeWhile fun g => g.1 = k).map Prod.snd) :: runs (l.dropWhile fun g => g.1 = k)
  termination_by l => l.length
  decreasing_by
    rw [List.length_cons]
    exact Nat.lt_succ_of_le (List.length_dropWhile_le _ _)

theorem runs_nil : runs ([] : List (κ × ν)) = [] := by
  rw [runs]

/-- The first run is that of the first key. -/
theorem runs_cons (k : κ) (v : ν) (l : List (κ × ν)) :
    runs ((k, v) :: l)
      = (k, v :: (l.takeWhile fun g => g.1 = k).map Prod.snd)
        :: runs (l.dropWhile fun g => g.1 = k) := by
  rw [runs]

/-- The keys of the runs are the keys of the list. -/
theorem mem_keys_runs {l : List (κ × ν)} {k : κ} :
    k ∈ (runs l).map Prod.fst ↔ k ∈ l.map Prod.fst := by
  induction l using runs.induct with
  | case1 => rw [runs_nil]; rfl
  | case2 k' v l ih =>
    rw [runs_cons, List.map_cons, List.mem_cons, ih, List.map_cons, List.mem_cons]
    constructor
    · rintro (rfl | hmem)
      · exact .inl rfl
      · exact .inr (List.map_subset _ (List.dropWhile_subset _) hmem)
    · rintro (rfl | hmem)
      · exact .inl rfl
      · obtain ⟨g, hg, rfl⟩ := List.mem_map.mp hmem
        rw [← List.takeWhile_append_dropWhile (p := fun g => g.1 = k') (l := l)] at hg
        rcases List.mem_append.mp hg with hg | hg
        · have hk := List.mem_takeWhile_imp hg
          exact .inl (of_decide_eq_true hk)
        · exact .inr (List.mem_map_of_mem hg)

end Runs

variable [LinearOrder κ]

/-- The list is sorted by key. -/
def Sorted (l : List (κ × ν)) : Prop := l.Pairwise fun g g' => g.1 ≤ g'.1

/-- What is left of a sorted list is sorted. -/
theorem Sorted.dropWhile {l : List (κ × ν)} (hsorted : Sorted l) (f : κ × ν → Bool) :
    Sorted (l.dropWhile f) :=
  List.Pairwise.sublist (List.dropWhile_sublist f) hsorted

variable [DecidableEq κ]

/-- In a sorted list that starts at `k`, the first run is everything with the key `k`. -/
theorem takeWhile_eq_filter {k : κ} {l : List (κ × ν)} (hsorted : Sorted l)
    (hle : ∀ g ∈ l, k ≤ g.1) :
    (l.takeWhile fun g => g.1 = k) = l.filter fun g => g.1 = k := by
  induction l with
  | nil => rfl
  | cons g l ih =>
    obtain ⟨hfirst, hrest⟩ := List.pairwise_cons.mp hsorted
    by_cases hg : g.1 = k
    · rw [List.takeWhile_cons_of_pos (by simpa using hg), List.filter_cons_of_pos (by simpa using hg),
        ih hrest fun g' hg' => hle g' (List.mem_cons_of_mem _ hg')]
    · rw [List.takeWhile_cons_of_neg (by simpa using hg), List.filter_cons_of_neg (by simpa using hg)]
      have hlt : k < g.1 := lt_of_le_of_ne (hle g List.mem_cons_self) (Ne.symm hg)
      symm
      rw [List.filter_eq_nil_iff]
      intro g' hg' heq
      exact (hlt.trans_le (hfirst g' hg')).ne (of_decide_eq_true heq).symm

/-- Behind the first run all keys are larger. -/
theorem lt_of_mem_dropWhile {k : κ} {l : List (κ × ν)} (hsorted : Sorted l)
    (hle : ∀ g ∈ l, k ≤ g.1) : ∀ g ∈ l.dropWhile fun g => g.1 = k, k < g.1 := by
  induction l with
  | nil => exact fun g hg => absurd hg List.not_mem_nil
  | cons g l ih =>
    obtain ⟨hfirst, hrest⟩ := List.pairwise_cons.mp hsorted
    by_cases hg : g.1 = k
    · rw [List.dropWhile_cons_of_pos (by simpa using hg)]
      exact ih hrest fun g' hg' => hle g' (List.mem_cons_of_mem _ hg')
    · rw [List.dropWhile_cons_of_neg (by simpa using hg)]
      have hlt : k < g.1 := lt_of_le_of_ne (hle g List.mem_cons_self) (Ne.symm hg)
      intro g' hg'
      rcases List.mem_cons.mp hg' with rfl | hmem
      · exact hlt
      · exact hlt.trans_le (hfirst g' hmem)

/-- On a sorted list the runs come in strictly increasing order. -/
theorem runs_pairwise {l : List (κ × ν)} (hsorted : Sorted l) :
    ((runs l).map Prod.fst).Pairwise (· < ·) := by
  induction l using runs.induct with
  | case1 =>
    rw [runs_nil]
    exact List.Pairwise.nil
  | case2 k v l ih =>
    obtain ⟨hfirst, hrest⟩ := List.pairwise_cons.mp hsorted
    rw [runs_cons, List.map_cons, List.pairwise_cons]
    refine ⟨fun k' hk' => ?_, ih (Sorted.dropWhile hrest _)⟩
    obtain ⟨g, hg, rfl⟩ := List.mem_map.mp (mem_keys_runs.mp hk')
    exact lt_of_mem_dropWhile hrest hfirst g hg

/-- On a sorted list the run of a key holds all values of the key. -/
theorem values_of_mem_runs {l : List (κ × ν)} (hsorted : Sorted l) {k : κ} {vs : List ν}
    (hmem : (k, vs) ∈ runs l) : vs = (l.filter fun g => g.1 = k).map Prod.snd := by
  induction l using runs.induct with
  | case1 =>
    rw [runs_nil] at hmem
    cases hmem
  | case2 k' v l ih =>
    obtain ⟨hfirst, hrest⟩ := List.pairwise_cons.mp hsorted
    rw [runs_cons] at hmem
    rcases List.mem_cons.mp hmem with heq | hmem
    · obtain ⟨rfl, rfl⟩ := Prod.mk.inj heq
      rw [List.filter_cons_of_pos (by simp), List.map_cons, takeWhile_eq_filter hrest hfirst]
    · have hkey := mem_keys_runs.mp (List.mem_map_of_mem (f := Prod.fst) hmem)
      obtain ⟨g, hg, hgk⟩ := List.mem_map.mp hkey
      have hlt : k' < k := (lt_of_mem_dropWhile hrest hfirst g hg).trans_eq hgk
      -- the run of another key lies behind the first run
      have hskip : (l.takeWhile fun g => g.1 = k').filter (fun g => g.1 = k) = [] := by
        rw [List.filter_eq_nil_iff]
        intro g' hg' heq
        have hk' := List.mem_takeWhile_imp hg'
        exact hlt.ne ((of_decide_eq_true hk').symm.trans (of_decide_eq_true heq))
      have hsplit := congrArg (List.filter fun g => g.1 = k)
        (List.takeWhile_append_dropWhile (p := fun g => g.1 = k') (l := l))
      rw [List.filter_append, hskip, List.nil_append] at hsplit
      rw [ih (Sorted.dropWhile hrest _) hmem, hsplit,
        List.filter_cons_of_neg (by simpa using hlt.ne)]

end Runs
