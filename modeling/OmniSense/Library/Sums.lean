import Mathlib.Algebra.BigOperators.Group.Finset.Basic
import Mathlib.Algebra.BigOperators.Group.List.Basic
import Mathlib.Algebra.BigOperators.Intervals
import Mathlib.Algebra.Order.BigOperators.Group.Finset
import Mathlib.Algebra.Order.BigOperators.Group.List
import Mathlib.Algebra.Order.Field.Basic
import Mathlib.Algebra.Order.Ring.Defs
import Mathlib.Data.List.Perm.Subperm
import Mathlib.Tactic.Linarith
import Mathlib.Tactic.Ring
import OmniSense.Library.Blocks

/-! Sums over lists: over the pairs of a list, with weights, and with weights that fall. -/

namespace OmniSense.Library

/-! Sums over the pairs of a list, and over the pairs across two lists. -/

section

variable {α M : Type*}

section

variable [AddCommMonoid M] {f : α → α → M} {l l' : List α}

def pairSum (f : α → α → M) (l : List α) : M := ((pairsOf l).map fun p => f p.1 p.2).sum

def crossSum (f : α → α → M) (l l' : List α) : M := (l.map fun a => (l'.map (f a)).sum).sum

variable (x : α)

theorem pairSum_cons (l : List α) : pairSum f (x :: l) = (l.map (f x)).sum + pairSum f l := by
  unfold pairSum
  rw [pairsOf, List.map_append, List.sum_append, List.map_map]
  rfl

theorem crossSum_cons (l l' : List α) :
    crossSum f (x :: l) l' = (l'.map (f x)).sum + crossSum f l l' := by
  unfold crossSum
  rw [List.map_cons, List.sum_cons]

theorem crossSum_cons_right (l l' : List α) :
    crossSum f l (x :: l') = (l.map fun a => f a x).sum + crossSum f l l' := by
  unfold crossSum
  rw [← List.sum_map_add]
  simp only [List.map_cons, List.sum_cons]

theorem crossSum_nil_right (l : List α) : crossSum f l [] = 0 := by
  unfold crossSum
  simp

theorem pairSum_append (l l' : List α) :
    pairSum f (l ++ l') = pairSum f l + pairSum f l' + crossSum f l l' := by
  induction l with
  | nil => simp [pairSum, pairsOf, crossSum]
  | cons x l ih =>
    rw [List.cons_append, pairSum_cons, ih, pairSum_cons, crossSum_cons, List.map_append,
      List.sum_append]
    ac_rfl

theorem crossSum_comm (hsymm : ∀ a b, f a b = f b a) (l l' : List α) :
    crossSum f l l' = crossSum f l' l := by
  induction l with
  | nil => exact (crossSum_nil_right l').symm
  | cons x l ih =>
    have hflip : l'.map (f x) = l'.map fun a => f a x := List.map_congr_left fun a _ => hsymm x a
    rw [crossSum_cons, crossSum_cons_right, ih, hflip]

theorem crossSum_self (hdiagonal : ∀ a, f a a = 0) (l : List α) :
    crossSum f l l = pairSum (fun a b => f a b + f b a) l := by
  induction l with
  | nil => simp [crossSum, pairSum, pairsOf]
  | cons x l ih =>
    have hrow : (l.map fun a => f x a + f a x).sum =
        (l.map (f x)).sum + (l.map fun a => f a x).sum := List.sum_map_add
    rw [crossSum_cons, crossSum_cons_right, ih, pairSum_cons, List.map_cons, List.sum_cons,
      hdiagonal, hrow, zero_add, add_assoc]

theorem pairSum_perm (hsymm : ∀ a b, f a b = f b a) (h : l.Perm l') :
    pairSum f l = pairSum f l' := by
  induction h with
  | nil => rfl
  | cons x h ih => rw [pairSum_cons, pairSum_cons, ih, (h.map (f x)).sum_eq]
  | swap x y l =>
    rw [pairSum_cons, pairSum_cons, pairSum_cons, pairSum_cons, List.map_cons, List.map_cons,
      List.sum_cons, List.sum_cons, hsymm x y]
    ac_rfl
  | trans _ _ ih ih' => exact ih.trans ih'

end

section

variable [AddCommGroup M] (f : α → α → M) (c : M)

theorem pairSum_sub_const (l : List α) :
    pairSum (fun a b => f a b - c) l = pairSum f l - (pairsOf l).length • c := by
  unfold pairSum
  generalize pairsOf l = pairs
  induction pairs with
  | nil => simp
  | cons p pairs ih =>
    rw [List.map_cons, List.sum_cons, ih, List.map_cons, List.sum_cons, List.length_cons,
      succ_nsmul, sub_add_sub_comm, add_comm c]

theorem crossSum_sub_const (l l' : List α) :
    crossSum (fun a b => f a b - c) l l' = crossSum f l l' - (l.length * l'.length) • c := by
  have hrow : ∀ a, (l'.map fun b => f a b - c).sum = (l'.map (f a)).sum - l'.length • c := by
    intro a
    induction l' with
    | nil => simp
    | cons b l' ih =>
      rw [List.map_cons, List.sum_cons, ih, List.map_cons, List.sum_cons, List.length_cons,
        succ_nsmul, sub_add_sub_comm, add_comm c]
  induction l with
  | nil => simp [crossSum]
  | cons a l ih =>
    rw [crossSum_cons, ih, hrow, crossSum_cons, List.length_cons, Nat.succ_mul, add_nsmul,
      sub_add_sub_comm, add_comm (l'.length • c)]

end

end

/-! Weighted means of lists of weights and values: what further observations do to the mean. -/

section

variable {K : Type*} [Field K]

variable (es : List (K × K))

def totalWeight : K := (es.map Prod.fst).sum

def weightedSum : K := (es.map fun e => e.1 * e.2).sum

def weightedMean : K := weightedSum es / totalWeight es

def deviation (m : K) : K := (es.map fun e => e.1 * (e.2 - m)).sum

variable {es fs : List (K × K)}

theorem totalWeight_append : totalWeight (es ++ fs) = totalWeight es + totalWeight fs := by
  unfold totalWeight
  rw [List.map_append, List.sum_append]

theorem weightedSum_append : weightedSum (es ++ fs) = weightedSum es + weightedSum fs := by
  unfold weightedSum
  rw [List.map_append, List.sum_append]

theorem weightedMean_perm (h : es.Perm fs) : weightedMean es = weightedMean fs := by
  unfold weightedMean weightedSum totalWeight
  rw [(h.map Prod.fst).sum_eq, (h.map fun e => e.1 * e.2).sum_eq]

theorem deviation_eq (m : K) : deviation es m = weightedSum es - m * totalWeight es := by
  unfold deviation weightedSum totalWeight
  induction es with
  | nil => simp
  | cons e es ih =>
    simp only [List.map_cons, List.sum_cons]
    rw [ih]
    ring

variable [LinearOrder K] [IsStrictOrderedRing K]

theorem totalWeight_nonneg (h : ∀ e ∈ es, 0 ≤ e.1) : 0 ≤ totalWeight es := by
  refine List.sum_nonneg fun x hx => ?_
  obtain ⟨e, he, rfl⟩ := List.mem_map.mp hx
  exact h e he

theorem weightedSum_nonneg (h : ∀ e ∈ es, 0 ≤ e.1 ∧ 0 ≤ e.2) : 0 ≤ weightedSum es := by
  refine List.sum_nonneg fun x hx => ?_
  obtain ⟨e, he, rfl⟩ := List.mem_map.mp hx
  exact mul_nonneg (h e he).1 (h e he).2

theorem weightedSum_weightless (h : ∀ e ∈ es, 0 ≤ e.1) (htotal : totalWeight es = 0) :
    weightedSum es = 0 := by
  have hzero : ∀ e ∈ es, e.1 = 0 := by
    have hnonneg : ∀ x ∈ es.map Prod.fst, 0 ≤ x := by
      intro x hx
      obtain ⟨e, he, rfl⟩ := List.mem_map.mp hx
      exact h e he
    intro e he
    exact List.all_zero_of_le_zero_le_of_sum_eq_zero hnonneg htotal (List.mem_map_of_mem he)
  refine List.sum_eq_zero fun x hx => ?_
  obtain ⟨e, he, rfl⟩ := List.mem_map.mp hx
  rw [hzero e he, zero_mul]

/-- **Further observations raise a mean** exactly when their weighted deviation from it is not
negative. -/
theorem weightedMean_le_append_iff (hes : ∀ e ∈ es, 0 ≤ e.1) (hfs : ∀ e ∈ fs, 0 ≤ e.1 ∧ 0 ≤ e.2) :
    weightedMean es ≤ weightedMean (es ++ fs) ↔ 0 ≤ deviation fs (weightedMean es) := by
  have hweight : 0 ≤ totalWeight fs := totalWeight_nonneg fun e he => (hfs e he).1
  rw [deviation_eq]
  rcases (totalWeight_nonneg hes).eq_or_lt with hzero | hpos
  · have hmean : weightedMean es = 0 := by
      unfold weightedMean
      rw [← hzero, div_zero]
    have hsum : 0 ≤ weightedSum (es ++ fs) := by
      rw [weightedSum_append, weightedSum_weightless hes hzero.symm, zero_add]
      exact weightedSum_nonneg hfs
    have htotal : 0 ≤ totalWeight (es ++ fs) := by
      rw [totalWeight_append, ← hzero, zero_add]
      exact hweight
    rw [hmean, zero_mul, sub_zero]
    exact iff_of_true (div_nonneg hsum htotal) (weightedSum_nonneg hfs)
  · have hsum : weightedSum es = weightedMean es * totalWeight es :=
      (div_mul_cancel₀ _ hpos.ne').symm
    have htotal : 0 < totalWeight (es ++ fs) := by
      rw [totalWeight_append]
      exact add_pos_of_pos_of_nonneg hpos hweight
    have hiff : weightedMean es ≤ weightedMean (es ++ fs) ↔
        weightedMean es * totalWeight (es ++ fs) ≤ weightedSum (es ++ fs) := le_div_iff₀ htotal
    rw [hiff, totalWeight_append, weightedSum_append, mul_add, ← hsum, add_le_add_iff_left,
      sub_nonneg]

end

/-! Sums with weights that fall: where the partial sums of one sequence are bounded by those of
another, so is its weighted sum. The partial sums of a sorted list bound those of any choice from
it. -/

section

open Finset

variable {K : Type*} [CommRing K]

def partialSum (f : ℕ → K) (n : ℕ) : K := ∑ i ∈ range n, f i

def discountedSum (f weight : ℕ → K) (n : ℕ) : K := ∑ i ∈ range n, f i * weight i

theorem discountedSum_eq (f weight : ℕ → K) (n : ℕ) :
    discountedSum f weight n = (∑ i ∈ range n, partialSum f (i + 1) * (weight i - weight (i + 1))) +
      partialSum f n * weight n := by
  induction n with
  | zero => simp [discountedSum, partialSum]
  | succ n ih =>
    have hnext : discountedSum f weight (n + 1) = discountedSum f weight n + f n * weight n :=
      sum_range_succ ..
    have hpartial : partialSum f (n + 1) = partialSum f n + f n := sum_range_succ ..
    rw [hnext, ih, sum_range_succ, hpartial]
    ring

section

variable [LinearOrder K] [IsStrictOrderedRing K] {f g weight : ℕ → K} {n : ℕ}

theorem discountedSum_nonneg (hpos : ∀ i, 0 < weight i) (hfall : ∀ i, weight (i + 1) < weight i)
    (h : ∀ j ≤ n, 0 ≤ partialSum f j) :
    0 ≤ discountedSum f weight n ∧ (discountedSum f weight n = 0 ↔ ∀ i < n, f i = 0) := by
  have hterms : ∀ i ∈ range n, 0 ≤ partialSum f (i + 1) * (weight i - weight (i + 1)) :=
    fun i hi => mul_nonneg (h _ (mem_range.mp hi)) (sub_pos.mpr (hfall i)).le
  have hlast : 0 ≤ partialSum f n * weight n := mul_nonneg (h n le_rfl) (hpos n).le
  have hsum := sum_nonneg hterms
  refine ⟨?_, fun hzero i hi => ?_, fun hzero => ?_⟩
  · rw [discountedSum_eq]
    exact add_nonneg hsum hlast
  · rw [discountedSum_eq] at hzero
    have hnone : ∀ j ≤ n, partialSum f j = 0 := by
      intro j hj
      cases j with
      | zero => exact sum_range_zero f
      | succ j =>
        have hterm := (sum_eq_zero_iff_of_nonneg hterms).mp (by linarith) j (mem_range.mpr hj)
        exact (mul_eq_zero.mp hterm).resolve_right (sub_pos.mpr (hfall j)).ne'
    have hstep : partialSum f (i + 1) = partialSum f i + f i := sum_range_succ ..
    rw [hnone _ hi, hnone _ hi.le, zero_add] at hstep
    exact hstep.symm
  · refine sum_eq_zero fun i hi => ?_
    rw [hzero i (mem_range.mp hi), zero_mul]

omit [LinearOrder K] [IsStrictOrderedRing K] in
theorem discountedSum_sub (f g weight : ℕ → K) (n : ℕ) :
    discountedSum (fun i => g i - f i) weight n = discountedSum g weight n - discountedSum f weight n := by
  unfold discountedSum
  rw [← sum_sub_distrib]
  exact sum_congr rfl fun i _ => sub_mul ..

theorem discountedSum_le (hpos : ∀ i, 0 < weight i) (hfall : ∀ i, weight (i + 1) < weight i)
    (h : ∀ j ≤ n, partialSum f j ≤ partialSum g j) :
    discountedSum f weight n ≤ discountedSum g weight n ∧
      (discountedSum f weight n = discountedSum g weight n ↔ ∀ i < n, f i = g i) := by
  have hsub : ∀ j ≤ n, 0 ≤ partialSum (fun i => g i - f i) j := by
    intro j hj
    have hj := h j hj
    unfold partialSum at hj ⊢
    rw [sum_sub_distrib]
    linarith
  obtain ⟨hnonneg, hzero⟩ := discountedSum_nonneg hpos hfall hsub
  rw [discountedSum_sub] at hnonneg hzero
  refine ⟨sub_nonneg.mp hnonneg, ?_⟩
  rw [eq_comm, ← sub_eq_zero, hzero]
  exact forall₂_congr fun i _ => sub_eq_zero.trans eq_comm

end

/-! ## Lists -/

def padded (l : List K) (i : ℕ) : K := l.getD i 0

theorem partialSum_padded (l : List K) (n : ℕ) : partialSum (padded l) n = (l.take n).sum := by
  induction n with
  | zero => simp [partialSum]
  | succ n ih =>
    have hstep : partialSum (padded l) (n + 1) = partialSum (padded l) n + padded l n :=
      sum_range_succ ..
    rw [hstep, ih]
    unfold padded
    rcases Nat.lt_or_ge n l.length with hn | hn
    · rw [List.getD_eq_getElem _ _ hn, List.sum_take_succ _ _ hn]
    · rw [List.getD_eq_default _ _ hn, List.take_of_length_le hn,
        List.take_of_length_le (Nat.le_succ_of_le hn), add_zero]

section

variable [LinearOrder K] [IsStrictOrderedRing K] {l sorted : List K}

theorem sum_take_succ_le {b : K} (hb : ∀ a ∈ sorted, a ≤ b) (hb0 : 0 ≤ b) (n : ℕ) :
    (sorted.take (n + 1)).sum ≤ b + (sorted.take n).sum := by
  rcases Nat.lt_or_ge n sorted.length with hn | hn
  · rw [List.sum_take_succ _ _ hn, add_comm]
    exact add_le_add_left (hb _ (List.getElem_mem hn)) _
  · rw [List.take_of_length_le hn, List.take_of_length_le (Nat.le_succ_of_le hn)]
    exact le_add_of_nonneg_left hb0

theorem sum_le_sum_take_of_sublist (hsorted : sorted.Pairwise fun a b => b ≤ a)
    (hnonneg : ∀ a ∈ sorted, 0 ≤ a) (h : l.Sublist sorted) {n : ℕ} (hn : l.length ≤ n) :
    l.sum ≤ (sorted.take n).sum := by
  induction h generalizing n with
  | slnil => simp
  | cons b hsub ih =>
    obtain ⟨hb, hsorted⟩ := List.pairwise_cons.mp hsorted
    obtain ⟨hb0, hnonneg⟩ := List.forall_mem_cons.mp hnonneg
    have hrest := ih hsorted hnonneg hn
    cases n with
    | zero => exact hrest
    | succ n =>
      rw [List.take_succ_cons, List.sum_cons]
      exact hrest.trans (sum_take_succ_le hb hb0 n)
  | cons_cons b hsub ih =>
    obtain ⟨hb, hsorted⟩ := List.pairwise_cons.mp hsorted
    obtain ⟨hb0, hnonneg⟩ := List.forall_mem_cons.mp hnonneg
    cases n with
    | zero => exact absurd hn (by simp)
    | succ n =>
      rw [List.take_succ_cons, List.sum_cons, List.sum_cons]
      exact add_le_add_right (ih hsorted hnonneg (Nat.le_of_succ_le_succ hn)) b

theorem sum_le_sum_take (hsorted : sorted.Pairwise fun a b => b ≤ a) (hnonneg : ∀ a ∈ sorted, 0 ≤ a)
    (h : l.Subperm sorted) {n : ℕ} (hn : l.length ≤ n) : l.sum ≤ (sorted.take n).sum := by
  obtain ⟨chosen, hperm, hsub⟩ := h
  rw [← hperm.sum_eq]
  rw [← hperm.length_eq] at hn
  exact sum_le_sum_take_of_sublist hsorted hnonneg hsub hn

end

end

end OmniSense.Library
