import Mathlib.Algebra.BigOperators.Group.Finset.Basic
import Mathlib.Algebra.BigOperators.Group.Finset.Piecewise
import Mathlib.Data.Fintype.Basic
import Mathlib.Data.Finset.Card
import Mathlib.Data.List.Count
import Mathlib.Data.List.Perm.Basic
import Mathlib.Data.Nat.Count
import Mathlib.Order.Interval.Finset.Fin

/-!
# Counting

How the number of elements with a property changes when one element changes, the occurrences of a value in a
list of keyed values and the length of a list, counted key by key, the elements of a list, counted place by place,
and a list taken apart by keys.
-/

namespace Finset

variable {ι : Type*} [Fintype ι] {P Q : ι → Prop} [DecidablePred P] [DecidablePred Q]

/-- At most one element loses the property. -/
theorem card_filter_le_add_one [DecidableEq ι] (i : ι) (h : ∀ j, j ≠ i → P j → Q j) :
    (univ.filter P).card ≤ (univ.filter Q).card + 1 := by
  refine le_trans (card_le_card ?_) (card_insert_le i (univ.filter Q))
  intro j hj
  rw [mem_insert]
  by_cases hji : j = i
  · exact .inl hji
  · exact .inr (mem_filter.mpr ⟨mem_univ j, h j hji (mem_filter.mp hj).2⟩)

/-- No element loses the property. -/
theorem card_filter_mono (h : ∀ j, P j → Q j) : (univ.filter P).card ≤ (univ.filter Q).card :=
  card_le_card (monotone_filter_right _ fun j _ => h j)

/-- No element loses the property, and one gains it. -/
theorem card_filter_lt (h : ∀ j, P j → Q j) {i : ι} (hP : ¬ P i) (hQ : Q i) :
    (univ.filter P).card < (univ.filter Q).card := by
  apply card_lt_card
  refine ⟨monotone_filter_right _ fun j _ => h j, fun hsub => hP ?_⟩
  exact (mem_filter.mp (hsub (mem_filter.mpr ⟨mem_univ i, hQ⟩))).2

/-- Two sums whose terms agree except at `i`. -/
theorem sum_add_of_agree [DecidableEq ι] {f g : ι → ℕ} (i : ι) (h : ∀ j, j ≠ i → f j = g j) :
    ∑ j, f j + g i = ∑ j, g j + f i := by
  have hrest : ∑ j ∈ univ.erase i, f j = ∑ j ∈ univ.erase i, g j :=
    sum_congr rfl fun j hj => h j (ne_of_mem_erase hj)
  rw [← add_sum_erase univ f (mem_univ i), ← add_sum_erase univ g (mem_univ i), hrest]
  omega

/-- Natural numbers that sum to one: one of them is one and the others are zero. -/
theorem exists_eq_one_of_sum_eq_one [DecidableEq ι] {f : ι → ℕ} (h : ∑ i, f i = 1) :
    ∃ i, f i = 1 ∧ ∀ j, j ≠ i → f j = 0 := by
  obtain ⟨i, hi, hne⟩ := exists_ne_zero_of_sum_ne_zero (by rw [h]; exact one_ne_zero)
  rw [← add_sum_erase univ f hi] at h
  have hrest : ∑ j ∈ univ.erase i, f j = 0 := by omega
  refine ⟨i, by omega, fun j hj => ?_⟩
  exact sum_eq_zero_iff.mp hrest j (mem_erase.mpr ⟨hj, mem_univ j⟩)

/-- Among the first elements there is one without the property, as long as some element is without it. -/
theorem exists_not_le_card {n : ℕ} (P : Fin n → Prop) [DecidablePred P]
    (h : (univ.filter P).card < n) : ∃ i : Fin n, ¬ P i ∧ (i : ℕ) ≤ (univ.filter P).card := by
  by_contra hall
  have hsub : Iic (⟨(univ.filter P).card, h⟩ : Fin n) ⊆ univ.filter P := by
    intro i hi
    rw [mem_filter]
    refine ⟨mem_univ i, ?_⟩
    by_contra hnot
    have hle : i ≤ ⟨(univ.filter P).card, h⟩ := mem_Iic.mp hi
    exact hall ⟨i, hnot, hle⟩
  have hcard := card_le_card hsub
  rw [Fin.card_Iic] at hcard
  exact absurd hcard (Nat.not_succ_le_self _)

end Finset

namespace List

variable {ι α : Type*} [Fintype ι] [DecidableEq ι] [DecidableEq α]

/-- The occurrences of a value, counted key by key. -/
theorem sum_count_filter_key (l : List (ι × α)) (v : α) :
    ∑ i, ((l.filter fun g => g.1 = i).map Prod.snd).count v = (l.map Prod.snd).count v := by
  induction l with
  | nil => simp
  | cons g l ih =>
    have hcons : ∀ i, (((g :: l).filter fun g => g.1 = i).map Prod.snd).count v
        = ((l.filter fun g => g.1 = i).map Prod.snd).count v
          + if g.1 = i then (if g.2 = v then 1 else 0) else 0 := by
      intro i
      by_cases hi : g.1 = i
      · simp [hi, count_cons]
      · simp [hi]
    rw [Finset.sum_congr rfl (fun i _ => hcons i), Finset.sum_add_distrib, ih, Finset.sum_ite_eq,
      map_cons, count_cons]
    simp

/-- The length of a list, key by key. -/
theorem sum_length_filter_key {α : Type*} (key : α → ι) (l : List α) :
    ∑ i, (l.filter fun a => key a = i).length = l.length := by
  induction l with
  | nil => simp
  | cons a l ih =>
    have hcons : ∀ i, ((a :: l).filter fun a => key a = i).length
        = (l.filter fun a => key a = i).length + if key a = i then 1 else 0 := by
      intro i
      by_cases hi : key a = i <;> simp [hi]
    rw [Finset.sum_congr rfl (fun i _ => hcons i), Finset.sum_add_distrib, ih, Finset.sum_ite_eq, length_cons]
    simp

/-- The elements with a property, counted by the places where they stand. -/
theorem countP_eq_count {α : Type*} {P : α → Prop} [DecidablePred P] {Q : ℕ → Prop} [DecidablePred Q] (l : List α)
    (h : ∀ (n : ℕ) (a : α), l[n]? = some a → (P a ↔ Q n)) :
    (l.countP fun a => P a) = Nat.count Q l.length := by
  induction l using List.reverseRecOn with
  | nil => rfl
  | append_singleton l a ih =>
    have hlast : P a ↔ Q l.length := h l.length a getElem?_concat_length
    have hinit : (l.countP fun a => P a) = Nat.count Q l.length :=
      ih fun n b hn => h n b (by rw [getElem?_append_left (getElem?_eq_some_iff.mp hn).1, hn])
    rw [countP_append, hinit, length_append, length_singleton, Nat.count_succ, countP_singleton]
    simp only [hlast, decide_eq_true_eq]

/-- A list, taken apart by the keys of its elements. -/
theorem perm_flatMap_filter {α : Type*} {κ : Type*} [DecidableEq κ] {keys : List κ} (hkeys : keys.Nodup)
    (key : α → κ) {l : List α} (hmem : ∀ a ∈ l, key a ∈ keys) :
    l.Perm (keys.flatMap fun k => l.filter fun a => key a = k) := by
  induction l with
  | nil => simp
  | cons a l ih =>
    obtain ⟨before, after, rfl⟩ := List.append_of_mem (hmem a (by simp))
    have hne : ∀ k ∈ before ++ after, key a ≠ k := by
      intro k hk heq
      subst heq
      simp [List.nodup_append, List.nodup_cons] at hkeys
      grind
    have hsame : ∀ ks : List κ, (∀ k ∈ ks, key a ≠ k) →
        (ks.flatMap fun k => (a :: l).filter fun a => key a = k) = ks.flatMap fun k => l.filter fun a => key a = k :=
      fun ks hks => List.flatMap_congr fun k hk => by rw [List.filter_cons_of_neg (by simpa using hks k hk)]
    have ih := ih fun b hb => hmem b (List.mem_cons_of_mem _ hb)
    rw [List.flatMap_append, List.flatMap_cons] at ih ⊢
    rw [hsame before fun k hk => hne k (List.mem_append_left _ hk),
      hsame after fun k hk => hne k (List.mem_append_right _ hk), List.filter_cons_of_pos (by simp)]
    exact (ih.cons a).trans List.perm_middle.symm

end List
