import Mathlib.Algebra.BigOperators.Group.Finset.Basic
import Mathlib.Algebra.Order.Group.Int
import Mathlib.Data.List.Basic
import Mathlib.Order.Defs.LinearOrder
import Mathlib.Order.Lattice
import OmniSense.Library.Effect

/-! Passes over a list that take what they can: the next rung, the least element, the items that fit. -/

namespace OmniSense.Library

open List Option

/-! Going down a list of rungs, from each to the next only when it gave way. -/

section

variable {α : Type*} {gives : ℕ → α → Prop} [∀ k x, Decidable (gives k x)]

/-- The rungs tried; `gives k x` says that `x`, tried at place `k`, gave way. -/
def descent (gives : ℕ → α → Prop) [∀ k x, Decidable (gives k x)] : List α → List α
  | [] => []
  | x :: rungs => x :: if gives 0 x then descent (fun k => gives (k + 1)) rungs else []

theorem descent_cons (x : α) (rungs : List α) :
    descent gives (x :: rungs) =
      x :: if gives 0 x then descent (fun k => gives (k + 1)) rungs else [] := rfl

theorem descent_prefix (rungs : List α) : descent gives rungs <+: rungs := by
  induction rungs generalizing gives with
  | nil => exact prefix_rfl
  | cons x rungs ih =>
    rw [descent_cons, prefix_cons_inj]
    split_ifs
    · exact ih
    · exact nil_prefix

theorem descent_ne_nil {rungs : List α} (h : rungs ≠ []) : descent gives rungs ≠ [] := by
  obtain ⟨x, rungs, rfl⟩ := exists_cons_of_ne_nil h
  rw [descent_cons]
  exact cons_ne_nil _ _

theorem lt_length_descent {rungs : List α} {k : ℕ} :
    k < (descent gives rungs).length ↔
      k < rungs.length ∧ ∀ j < k, ∀ x ∈ rungs[j]?, gives j x := by
  induction rungs generalizing gives k with
  | nil =>
    exact ⟨fun h => absurd h (Nat.not_lt_zero k), fun h => absurd h.1 (Nat.not_lt_zero k)⟩
  | cons x rungs ih =>
    rw [descent_cons, length_cons, length_cons]
    cases k with
    | zero =>
      exact ⟨fun _ => ⟨Nat.succ_pos _, fun j hj => absurd hj (Nat.not_lt_zero j)⟩,
        fun _ => Nat.succ_pos _⟩
    | succ k =>
      rw [Nat.succ_lt_succ_iff, Nat.succ_lt_succ_iff]
      split_ifs with h
      · rw [ih]
        refine and_congr_right fun _ => ⟨fun hall j hj y hy => ?_, fun hall j hj y hy => ?_⟩
        · cases j with
          | zero =>
            obtain rfl : x = y := Option.some.inj hy
            exact h
          | succ j => exact hall j (Nat.lt_of_succ_lt_succ hj) y hy
        · exact hall (j + 1) (Nat.succ_lt_succ hj) y hy
      · exact ⟨fun hk => absurd hk (Nat.not_lt_zero k),
          fun hk => absurd (hk.2 0 (Nat.succ_pos k) x rfl) h⟩

end

/-! The first of the elements with the least key: a running minimum that a later element replaces
only when it is smaller. -/

section

section

variable {α κ : Type*} [LinearOrder κ] (key : α → κ)

def lesser (best : Option α) (x : α) : Option α :=
  if best.all fun y => key x < key y then some x else best

def leastBy (l : List α) : Option α := l.foldl (lesser key) none

variable {key} {l : List α} {x y : α}

theorem leastBy_concat : leastBy key (l ++ [x]) = lesser key (leastBy key l) x :=
  foldl_concat ..

/-- `y` has the least key. -/
def IsLeastBy (key : α → κ) (l : List α) (y : α) : Prop := y ∈ l ∧ ∀ z ∈ l, key y ≤ key z

theorem leastBy_isSome (h : l ≠ []) : ∃ y, leastBy key l = some y := by
  obtain ⟨front, last, rfl⟩ := eq_nil_or_concat l |>.resolve_left h
  rw [concat_eq_append, leastBy_concat, lesser]
  split_ifs with hlast
  · exact ⟨last, rfl⟩
  · cases hbest : leastBy key front with
    | none =>
      rw [hbest] at hlast
      exact absurd rfl hlast
    | some best => exact ⟨best, rfl⟩

theorem leastBy_isLeast (h : leastBy key l = some y) : IsLeastBy key l y := by
  induction l using List.reverseRecOn generalizing y with
  | nil => cases h
  | append_singleton l x ih =>
    rw [leastBy_concat, lesser] at h
    split_ifs at h with hless
    · cases h
      refine ⟨mem_concat_self, fun z hz => ?_⟩
      rcases mem_append.mp hz with hz | hz
      · cases hbest : leastBy key l with
        | none =>
          obtain ⟨best, hsome⟩ := @leastBy_isSome α κ _ key l (ne_nil_of_mem hz)
          rw [hbest] at hsome
          cases hsome
        | some best =>
          rw [hbest, all_some] at hless
          have hlt : key x < key best := of_decide_eq_true hless
          exact le_trans (le_of_lt hlt) ((ih hbest).2 z hz)
      · obtain rfl := mem_singleton.mp hz
        exact le_rfl
    · obtain ⟨hmem, hle⟩ := ih h
      rw [h, all_some] at hless
      refine ⟨mem_append_left _ hmem, fun z hz => ?_⟩
      rcases mem_append.mp hz with hz | hz
      · exact hle z hz
      · obtain rfl := mem_singleton.mp hz
        exact not_lt.mp fun hlt => hless (decide_eq_true hlt)

theorem leastBy_cons (h : ∀ z ∈ l, key x ≤ key z) : leastBy key (x :: l) = some x := by
  induction l using List.reverseRecOn with
  | nil => rfl
  | append_singleton l z ih =>
    rw [← cons_append, leastBy_concat, ih fun w hw => h w (mem_append_left _ hw), lesser,
      all_some, if_neg]
    rw [decide_eq_true_iff, not_lt]
    exact h z mem_concat_self

theorem map_leastBy {β : Type*} {f : α → β}
    (hsame : ∀ z w, IsLeastBy key l z → IsLeastBy key l w → f z = f w) {l' : List α}
    (hperm : l.Perm l') : (leastBy key l').map f = (leastBy key l).map f := by
  by_cases hnil : l = []
  · subst hnil
    rw [nil_perm.mp hperm]
  · obtain ⟨y, hy⟩ := @leastBy_isSome α κ _ key l hnil
    obtain ⟨y', hy'⟩ := @leastBy_isSome α κ _ key l' fun h => hnil (h ▸ hperm).eq_nil
    obtain ⟨hmem, hle⟩ := leastBy_isLeast hy'
    rw [hy, hy', map_some, map_some]
    refine congrArg some (hsame y' y ⟨hperm.mem_iff.mpr hmem, fun z hz => ?_⟩ (leastBy_isLeast hy))
    exact hle z (hperm.mem_iff.mp hz)

end

end

/-! Filling a budget item by item: an item that may come in and fits is kept and paid for, any other
is skipped. -/

section

structure Fill (ι : Type*) where
  kept : Finset ι
  remaining : ℤ

namespace Fill

variable {ι : Type*} [DecidableEq ι]

section

variable (eligible : Finset ι → ι → Prop) [∀ kept i, Decidable (eligible kept i)] (cost : ι → ℤ)

def put (s : Fill ι) (i : ι) : Fill ι := ⟨insert i s.kept, s.remaining - cost i⟩

def visit (s : Fill ι) (i : ι) : Fill ι :=
  if eligible s.kept i ∧ cost i ≤ s.remaining then s.put cost i else s

end

variable {eligible : Finset ι → ι → Prop} [∀ kept i, Decidable (eligible kept i)] {cost : ι → ℤ}
  {s : Fill ι} {l : List ι}

def Spends (cost : ι → ℤ) (limit : ℤ) (s : Fill ι) : Prop :=
  ∑ i ∈ s.kept, cost i = limit - s.remaining ∧ 0 ≤ s.remaining

variable {limit : ℤ}

theorem Spends.put (h : s.Spends cost limit) {i : ι} (hnew : i ∉ s.kept)
    (hfits : cost i ≤ s.remaining) : (s.put cost i).Spends cost limit := by
  obtain ⟨hsum, -⟩ := h
  constructor
  · change ∑ j ∈ insert i s.kept, cost j = limit - (s.remaining - cost i)
    rw [Finset.sum_insert hnew, hsum]
    omega
  · exact Int.sub_nonneg_of_le hfits

def Fresh (eligible : Finset ι → ι → Prop) : Prop := ∀ kept i, eligible kept i → i ∉ kept

def Narrowing (eligible : Finset ι → ι → Prop) : Prop :=
  ∀ kept kept' i, kept ⊆ kept' → eligible kept' i → eligible kept i

theorem Spends.visit (hfresh : Fresh eligible) (h : s.Spends cost limit) (i : ι) :
    (s.visit eligible cost i).Spends cost limit := by
  unfold Fill.visit
  split_ifs with hin
  · exact h.put (hfresh _ _ hin.1) hin.2
  · exact h

theorem Spends.foldl (hfresh : Fresh eligible) (h : s.Spends cost limit)
    (l : List ι) : (l.foldl (Fill.visit eligible cost) s).Spends cost limit :=
  foldl_done (I := fun _ (t : Fill ι) => t.Spends cost limit) h
    fun _ i _ _ ht => ht.visit hfresh i

theorem kept_visit (s : Fill ι) (i : ι) : s.kept ⊆ (s.visit eligible cost i).kept := by
  unfold visit
  split_ifs
  · exact Finset.subset_insert _ _
  · exact Finset.Subset.refl _

theorem kept_foldl (s : Fill ι) (l : List ι) : s.kept ⊆ (l.foldl (visit eligible cost) s).kept :=
  foldl_done (I := fun _ (t : Fill ι) => s.kept ⊆ t.kept) (Finset.Subset.refl _)
    fun _ i _ t ht => ht.trans (kept_visit t i)

theorem remaining_visit (hcost : ∀ i, 0 ≤ cost i) (s : Fill ι) (i : ι) :
    (s.visit eligible cost i).remaining ≤ s.remaining := by
  unfold visit
  split_ifs
  · exact Int.sub_le_self _ (hcost i)
  · exact le_rfl

theorem foldl_full (hfresh : Fresh eligible) (hnarrow : Narrowing eligible)
    (hcost : ∀ i, 0 ≤ cost i) (s : Fill ι) {l : List ι} {i : ι} (hi : i ∈ l)
    (hin : eligible (l.foldl (visit eligible cost) s).kept i) :
    (l.foldl (visit eligible cost) s).remaining < cost i := by
  induction l using List.reverseRecOn with
  | nil => cases hi
  | append_singleton l last ih =>
    rw [foldl_concat] at hin ⊢
    have hbefore := hnarrow _ _ _ (kept_visit _ last) hin
    rcases mem_append.mp hi with hi | hi
    · exact (remaining_visit hcost _ last).trans_lt (ih hi hbefore)
    · obtain rfl := mem_singleton.mp hi
      unfold visit at hin ⊢
      split_ifs at hin ⊢ with hput
      · exact absurd (Finset.mem_insert_self _ _) (hfresh _ _ hin)
      · exact not_le.mp fun hfits => hput ⟨hbefore, hfits⟩

theorem foldl_distinct (hnodup : l.Nodup) (hnew : ∀ i ∈ l, i ∉ s.kept) :
    l.foldl (visit (fun _ _ => True) cost) s = l.foldl (visit (fun kept i => i ∉ kept) cost) s := by
  induction l generalizing s with
  | nil => rfl
  | cons i rest ih =>
    obtain ⟨hi, hrest⟩ := nodup_cons.mp hnodup
    have hvisit : s.visit (fun _ _ => True) cost i = s.visit (fun kept i => i ∉ kept) cost i := by
      refine if_congr (and_congr_left fun _ => ?_) rfl rfl
      exact iff_of_true trivial (hnew i mem_cons_self)
    rw [foldl_cons, foldl_cons, hvisit]
    refine ih hrest fun j hj hkept => ?_
    have hjs := hnew j (mem_cons_of_mem _ hj)
    unfold visit at hkept
    split_ifs at hkept
    · rcases Finset.mem_insert.mp hkept with rfl | hkept
      · exact hi hj
      · exact hjs hkept
    · exact hjs hkept

end Fill

end

end OmniSense.Library
