import Mathlib.Algebra.Order.Field.Basic
import Mathlib.Data.List.Perm.Basic
import Mathlib.Data.List.Sort
import Mathlib.Tactic.Linarith

/-! Sorted lists with ties: what a stable sort keeps, folds that do not see how ties are arranged,
and medians. -/

namespace OmniSense.Library

open List

/-! `List.insertionSort` is stable: it may be filtered before or after, and elements that the order
does not tell apart stay as they came. -/

section

variable {α : Type*} {r : α → α → Prop} [DecidableRel r]

variable {l : List α} {a : α}

theorem orderedInsert_of_forall (h : ∀ b ∈ l, r a b) : l.orderedInsert r a = a :: l := by
  cases l with
  | nil => rfl
  | cons b l => exact orderedInsert_cons_of_le r l (h b (mem_cons_self ..))

theorem filter_orderedInsert [IsTrans α r] (p : α → Bool) (h : l.Pairwise r) :
    (l.orderedInsert r a).filter p =
      if p a then (l.filter p).orderedInsert r a else l.filter p := by
  induction l with
  | nil =>
    rw [orderedInsert_nil, filter_nil, orderedInsert_nil]
    split_ifs with ha
    · rw [filter_cons_of_pos ha, filter_nil]
    · rw [filter_cons_of_neg ha, filter_nil]
  | cons b l ih =>
    obtain ⟨hb, hl⟩ := pairwise_cons.mp h
    by_cases hab : r a b
    · rw [orderedInsert_cons_of_le r l hab]
      split_ifs with ha
      · have hall : ∀ c ∈ (b :: l).filter p, r a c := by
          intro c hc
          rcases mem_cons.mp (mem_filter.mp hc).1 with rfl | hc
          · exact hab
          · exact trans_of r hab (hb c hc)
        rw [orderedInsert_of_forall hall, filter_cons_of_pos ha]
      · rw [filter_cons_of_neg ha]
    · rw [orderedInsert_of_not_le r l hab]
      by_cases hpb : p b
      · rw [filter_cons_of_pos hpb, filter_cons_of_pos hpb, ih hl]
        split_ifs
        · rw [orderedInsert_of_not_le r _ hab]
        · rfl
      · rw [filter_cons_of_neg hpb, filter_cons_of_neg hpb, ih hl]

theorem filter_insertionSort [Std.Total r] [IsTrans α r] (p : α → Bool) (l : List α) :
    (l.insertionSort r).filter p = (l.filter p).insertionSort r := by
  induction l with
  | nil => rfl
  | cons a l ih =>
    rw [insertionSort_cons, filter_orderedInsert p (pairwise_insertionSort r l), ih]
    split_ifs with ha
    · rw [filter_cons_of_pos ha, insertionSort_cons]
    · rw [filter_cons_of_neg ha]

theorem pairwise_orderedInsert_of_forall [Std.Total r] [IsTrans α r] {R : α → α → Prop}
    {s : List α} (h : ∀ b ∈ s, R a b) (hs : s.Pairwise fun b c => r b c ∧ (r c b → R b c)) :
    (s.orderedInsert r a).Pairwise fun b c => r b c ∧ (r c b → R b c) := by
  induction s with
  | nil => exact pairwise_singleton _ _
  | cons b s ih =>
    obtain ⟨hb, htail⟩ := pairwise_cons.mp hs
    by_cases hab : r a b
    · rw [orderedInsert_cons_of_le r s hab]
      refine pairwise_cons.mpr ⟨fun c hc => ⟨?_, fun _ => h c hc⟩, hs⟩
      rcases mem_cons.mp hc with rfl | hc
      · exact hab
      · exact trans_of r hab (hb c hc).1
    · rw [orderedInsert_of_not_le r s hab]
      have hinsert := ih (fun c hc => h c (mem_cons_of_mem _ hc)) htail
      refine pairwise_cons.mpr ⟨fun c hc => ?_, hinsert⟩
      rcases (mem_orderedInsert r).mp hc with rfl | hc
      · exact ⟨(total_of r c b).resolve_left hab, fun hcb => absurd hcb hab⟩
      · exact hb c hc

theorem pairwise_insertionSort_of_pairwise [Std.Total r] [IsTrans α r] {R : α → α → Prop}
    (h : l.Pairwise R) :
    (l.insertionSort r).Pairwise fun a b => r a b ∧ (r b a → R a b) := by
  induction l with
  | nil => exact List.Pairwise.nil
  | cons a l ih =>
    obtain ⟨ha, hl⟩ := pairwise_cons.mp h
    rw [insertionSort_cons]
    exact pairwise_orderedInsert_of_forall
      (fun b hb => ha b ((mem_insertionSort r).mp hb)) (ih hl)

end

/-! Folding over a list sorted by a key. Two sorted arrangements of the same elements differ only
inside groups of equal keys, so a fold whose steps commute there does not see the arrangement. A
state is *calm* for an element when the step it takes with it commutes with its ties. -/

section

variable {α σ κ : Type*} [LinearOrder κ] (key : α → κ) (f : σ → α → σ) (calm : σ → α → Prop)

def SortedBy (l : List α) : Prop := l.Pairwise fun a b => key a ≤ key b

def TiesCalm (s : σ) (l : List α) : Prop :=
  ∀ pre x post, l = pre ++ x :: post → (∀ p ∈ pre, key p ≠ key x) →
    (∃ y ∈ post, key y = key x ∧ y ≠ x) → calm (pre.foldl f s) x

variable {key f calm}

theorem SortedBy.eq_append_filter {l : List α} (h : SortedBy key l) {k : κ}
    (hk : ∀ a ∈ l, k ≤ key a) :
    l = l.filter (fun a => key a = k) ++ l.filter fun a => key a ≠ k := by
  induction l with
  | nil => rfl
  | cons a l ih =>
    obtain ⟨ha, hl⟩ := pairwise_cons.mp h
    by_cases hak : key a = k
    · have ih := ih hl fun b hb => hk b (mem_cons_of_mem _ hb)
      simpa [hak] using ih
    · have hnone : l.filter (fun b => key b = k) = [] := by
        rw [filter_eq_nil_iff]
        intro b hb hbk
        have hab : key a ≤ k := of_decide_eq_true hbk ▸ ha b hb
        exact hak (le_antisymm hab (hk a (mem_cons_self ..)))
      have hall : (a :: l).filter (fun b => key b ≠ k) = a :: l := by
        rw [filter_eq_self]
        rintro b (_ | ⟨_, hb⟩)
        · simpa using hak
        · simpa using filter_eq_nil_iff.mp hnone b hb
      rw [hall, filter_cons_of_neg (by simpa using hak), hnone, nil_append]

structure Commutes (key : α → κ) (f : σ → α → σ) (calm : σ → α → Prop) : Prop where
  tie : ∀ {s x y}, key x = key y → calm s x → calm s y
  stay : ∀ {s x y}, key x = key y → calm s x → calm (f s x) y
  comm : ∀ {s x y}, key x = key y → calm s x → f (f s x) y = f (f s y) x

variable {l l' : List α}

omit [LinearOrder κ] in
theorem Commutes.foldl_ties (hf : Commutes key f calm) (hp : l.Perm l') {s : σ}
    (hties : ∀ a ∈ l, ∀ b ∈ l, key a = key b) (hcalm : ∀ a ∈ l, calm s a) :
    l.foldl f s = l'.foldl f s := by
  induction hp generalizing s with
  | nil => rfl
  | cons x _ ih =>
    refine ih (fun a ha b hb => hties a (.tail _ ha) b (.tail _ hb)) fun a ha => ?_
    exact hf.stay (hties x (mem_cons_self ..) a (.tail _ ha))
      (hcalm x (mem_cons_self ..))
  | swap x y l =>
    have hyx : key y = key x := hties y (by simp) x (by simp)
    simp only [foldl_cons, hf.comm hyx (hcalm y (by simp))]
  | trans h₁ _ ih₁ ih₂ =>
    rw [ih₁ hties hcalm]
    exact ih₂ (fun a ha b hb => hties a (h₁.mem_iff.mpr ha) b (h₁.mem_iff.mpr hb))
      fun a ha => hcalm a (h₁.mem_iff.mpr ha)

theorem eq_of_perm_of_forall_eq (hp : l.Perm l') {x : α} (h : ∀ a ∈ l, a = x) : l = l' := by
  rw [eq_replicate_of_mem h, eq_replicate_of_mem fun a ha => h a (hp.mem_iff.mpr ha),
    hp.length_eq]

theorem Commutes.foldl_sorted (hf : Commutes key f calm) (hp : l.Perm l') {s : σ}
    (hl : SortedBy key l) (hl' : SortedBy key l') (hc : TiesCalm key f calm s l) :
    l.foldl f s = l'.foldl f s := by
  induction hn : l.length using Nat.strong_induction_on generalizing l l' s with
  | _ n ih =>
  subst hn
  cases hcons : l with
  | nil =>
    rw [hcons] at hp
    rw [hp.nil_eq]
  | cons x rest =>
    rw [← hcons]
    have hx : x ∈ l := by simp [hcons]
    have hmin : ∀ a ∈ l, key x ≤ key a := by
      intro a ha
      rw [hcons] at ha hl
      rcases mem_cons.mp ha with rfl | ha
      · exact le_rfl
      · exact (pairwise_cons.mp hl).1 a ha
    have hsplit := hl.eq_append_filter hmin
    have hsplit' := hl'.eq_append_filter fun a ha => hmin a (hp.mem_iff.mpr ha)
    have hgroup : ∀ a ∈ l.filter (fun a => key a = key x), key a = key x := by
      intro a ha
      simpa using (mem_filter.mp ha).2
    have hperm := hp.filter fun a => decide (key a = key x)
    -- The group either meets a calm state or holds one element only.
    have hfirst : (l.filter fun a => key a = key x).foldl f s =
        (l'.filter fun a => key a = key x).foldl f s := by
      by_cases hmix : ∃ y ∈ rest, key y = key x ∧ y ≠ x
      · have hcx : calm s x := hc [] x rest (by simpa using hcons) (by simp) hmix
        exact hf.foldl_ties hperm
          (fun a ha b hb => (hgroup a ha).trans (hgroup b hb).symm)
          fun a ha => hf.tie (hgroup a ha).symm hcx
      · rw [eq_of_perm_of_forall_eq (x := x) hperm]
        intro a ha
        by_contra hne
        have har : a ∈ rest := by
          have := (mem_filter.mp ha).1
          rw [hcons] at this
          exact (mem_cons.mp this).resolve_left hne
        exact hmix ⟨a, har, hgroup a ha, hne⟩
    have hlen : (l.filter fun a => key a ≠ key x).length < l.length :=
      length_filter_lt_length_iff_exists.mpr ⟨x, hx, by simp⟩
    rw [hsplit, hsplit', foldl_append, foldl_append, ← hfirst]
    refine ih _ hlen (hp.filter _) (hl.filter _) (hl'.filter _) ?_ rfl
    intro pre y post hpre hkeys hmix
    have := hc (l.filter (fun a => key a = key x) ++ pre) y post
      (by rw [append_assoc, ← hpre, ← hsplit]) ?_ hmix
    · rwa [foldl_append] at this
    intro p hp
    rcases mem_append.mp hp with hp | hp
    · have hy : y ∈ l.filter fun a => key a ≠ key x := by rw [hpre]; simp
      have := (mem_filter.mp hy).2
      rw [hgroup p hp]
      exact fun h => by simp [h] at this
    · exact hkeys p hp

end

/-! Ranks in a list, and its median: what adding an element once more makes of it. -/

section

variable {α : Type*} [LinearOrder α] {l : List α} {p : α → Bool} {x y : α} {k : ℕ}

theorem getElem_iff_countP (hsorted : l.Pairwise (· ≤ ·))
    (hp : ∀ a b, a ≤ b → p b = true → p a = true) (hk : k < l.length) :
    p l[k] = true ↔ k < l.countP p := by
  induction l generalizing k with
  | nil => exact absurd hk (Nat.not_lt_zero k)
  | cons a l ih =>
    obtain ⟨ha, hl⟩ := pairwise_cons.mp hsorted
    cases hpa : p a with
    | true =>
      rw [countP_cons_of_pos hpa]
      cases k with
      | zero => exact iff_of_true hpa (Nat.succ_pos _)
      | succ k =>
        rw [getElem_cons_succ, ih hl, Nat.succ_lt_succ_iff]
    | false =>
      have hnone : ∀ b ∈ a :: l, ¬p b = true := by
        intro b hb hpb
        have hle : a ≤ b := (mem_cons.mp hb).elim (fun h => h.ge) (ha b)
        rw [hp a b hle hpb] at hpa
        cases hpa
      rw [countP_eq_zero.mpr hnone]
      exact iff_of_false (hnone _ (getElem_mem hk)) (Nat.not_lt_zero k)

theorem countP_concat_le : (l ++ [x]).countP (· ≤ y) =
    l.countP (· ≤ y) + if x ≤ y then 1 else 0 := by
  rw [countP_append, countP_singleton]
  simp only [decide_eq_true_eq]

theorem countP_concat_lt : (l ++ [x]).countP (· < y) =
    l.countP (· < y) + if x < y then 1 else 0 := by
  rw [countP_append, countP_singleton]
  simp only [decide_eq_true_eq]

end

section

variable {α : Type*} [LinearOrder α] [Zero α] {l : List α} {x y : α} {k : ℕ}

/-- The element of rank `k`, from 0. -/
def ranked (l : List α) (k : ℕ) : α := (l.insertionSort (· ≤ ·)).getD k 0

theorem ranked_iff_countP {p : α → Bool} (hp : ∀ a b, a ≤ b → p b = true → p a = true)
    (hk : k < l.length) : p (ranked l k) = true ↔ k < l.countP p := by
  have hperm := perm_insertionSort (· ≤ ·) l
  have hk' : k < (l.insertionSort (· ≤ ·)).length := hperm.length_eq ▸ hk
  unfold ranked
  rw [getD_eq_getElem?_getD, List.getElem?_eq_getElem hk', Option.getD_some,
    getElem_iff_countP (pairwise_insertionSort _ l) hp hk', hperm.countP_eq]

theorem ranked_le_iff (hk : k < l.length) : ranked l k ≤ y ↔ k < l.countP (· ≤ y) := by
  have hall := ranked_iff_countP (p := fun a => decide (a ≤ y))
    (fun a b hab hb => decide_eq_true (hab.trans (of_decide_eq_true hb))) hk
  rwa [decide_eq_true_eq] at hall

theorem ranked_lt_iff (hk : k < l.length) : ranked l k < y ↔ k < l.countP (· < y) := by
  have hall := ranked_iff_countP (p := fun a => decide (a < y))
    (fun a b hab hb => decide_eq_true (hab.trans_lt (of_decide_eq_true hb))) hk
  rwa [decide_eq_true_eq] at hall

theorem ranked_mono {k' : ℕ} (h : k ≤ k') (hk : k' < l.length) : ranked l k ≤ ranked l k' := by
  have hcount := (ranked_le_iff hk).mp le_rfl
  exact (ranked_le_iff (h.trans_lt hk)).mpr (h.trans_lt hcount)

theorem ranked_concat_of_le (hk : k < l.length) (h : ranked l k ≤ x) :
    ranked (l ++ [x]) k = ranked l k := by
  have hk' : k < (l ++ [x]).length := by rw [length_append]; omega
  apply le_antisymm
  · rw [ranked_le_iff hk', countP_concat_le]
    have := (ranked_le_iff hk).mp (le_refl (ranked l k))
    omega
  · rw [← not_lt, ranked_lt_iff hk', countP_concat_lt, if_neg (not_lt.mpr h), Nat.add_zero,
      ← ranked_lt_iff hk]
    exact lt_irrefl _

theorem length_lt_iff (hne : l ≠ []) :
    l.length < 2 * l.countP (· ≤ y) ↔ ranked l (l.length / 2) ≤ y := by
  have hpos := length_pos_iff.mpr hne
  rw [ranked_le_iff (by omega)]
  omega

theorem le_length_iff (hlong : 2 ≤ l.length) :
    2 * (l.countP (· < y) + 1) ≤ l.length ↔ y ≤ ranked l (l.length / 2 - 1) := by
  refine Iff.trans ?_ not_lt
  rw [ranked_lt_iff (by omega)]
  omega

theorem exists_ranked (hx : x ∈ l) : ∃ k < l.length, ranked l k = x := by
  have hperm := perm_insertionSort (· ≤ ·) l
  obtain ⟨k, hk, rfl⟩ := getElem_of_mem (hperm.mem_iff.mpr hx)
  refine ⟨k, hperm.length_eq ▸ hk, ?_⟩
  unfold ranked
  rw [getD_eq_getElem?_getD, List.getElem?_eq_getElem hk, Option.getD_some]

end

section

variable {K : Type*} [Field K] [LinearOrder K] {l : List K} {x : K}

def median (l : List K) : K :=
  if l.length % 2 = 1 then ranked l (l.length / 2)
  else (ranked l (l.length / 2 - 1) + ranked l (l.length / 2)) / 2

variable [IsStrictOrderedRing K]

theorem median_le_upper (hne : l ≠ []) : median l ≤ ranked l (l.length / 2) := by
  have hpos := length_pos_iff.mpr hne
  have hmono := ranked_mono (l := l) (k := l.length / 2 - 1) (Nat.sub_le _ 1) (by omega)
  unfold median
  split_ifs
  · exact le_rfl
  · linarith

theorem lower_le_median (hne : l ≠ []) : ranked l ((l.length - 1) / 2) ≤ median l := by
  have hpos := length_pos_iff.mpr hne
  have hmono := ranked_mono (l := l) (k := l.length / 2 - 1) (Nat.sub_le _ 1) (by omega)
  unfold median
  split_ifs with hodd
  · rw [show (l.length - 1) / 2 = l.length / 2 by omega]
  · rw [show (l.length - 1) / 2 = l.length / 2 - 1 by omega]
    linarith

theorem median_concat_lt (hx : x ∈ l) (hlt : x < ranked l (l.length / 2))
    (hdiffer : 2 ≤ l.length → ranked l (l.length / 2 - 1) < ranked l (l.length / 2)) :
    median (l ++ [x]) < median l := by
  have hpos := length_pos_iff.mpr (ne_nil_of_mem hx)
  have hlength : (l ++ [x]).length = l.length + 1 := length_append
  rcases Nat.mod_two_eq_zero_or_one l.length with heven | hodd
  · have hlow : x ≤ ranked l (l.length / 2 - 1) := by
      obtain ⟨k, hk, rfl⟩ := exists_ranked hx
      have hbefore : k < l.length / 2 := by
        by_contra hle
        exact absurd hlt (not_lt.mpr (ranked_mono (not_lt.mp hle) hk))
      exact ranked_mono (by omega) (by omega)
    have hmiddle : ranked (l ++ [x]) (l.length / 2) ≤ ranked l (l.length / 2 - 1) := by
      rw [ranked_le_iff (by omega), countP_concat_le, if_pos hlow]
      have := (ranked_le_iff (l := l) (k := l.length / 2 - 1) (by omega)).mp le_rfl
      omega
    have hgap := hdiffer (by omega)
    unfold median
    rw [hlength, if_pos (by omega), if_neg (by omega),
      show (l.length + 1) / 2 = l.length / 2 by omega]
    linarith
  · have hlower : ranked (l ++ [x]) (l.length / 2) < ranked l (l.length / 2) := by
      rw [ranked_lt_iff (by omega), countP_concat_lt, if_pos hlt]
      by_cases hlong : 2 ≤ l.length
      · have := (ranked_lt_iff (by omega)).mp (hdiffer hlong)
        omega
      · omega
    have hupper : ranked (l ++ [x]) (l.length / 2 + 1) ≤ ranked l (l.length / 2) := by
      rw [ranked_le_iff (by omega), countP_concat_le, if_pos hlt.le]
      have := (ranked_le_iff (l := l) (k := l.length / 2) (by omega)).mp le_rfl
      omega
    unfold median
    rw [hlength, if_neg (by omega), if_pos hodd,
      show (l.length + 1) / 2 - 1 = l.length / 2 by omega,
      show (l.length + 1) / 2 = l.length / 2 + 1 by omega]
    linarith

theorem median_concat (hx : x ∈ l) : median l ≤ median (l ++ [x]) ↔
    l.length < 2 * l.countP (· ≤ x) ∨
      ∃ y, 2 * (l.countP (· < y) + 1) ≤ l.length ∧ l.length < 2 * l.countP (· ≤ y) := by
  have hne := ne_nil_of_mem hx
  have hpos := length_pos_iff.mpr hne
  have hlength : (l ++ [x]).length = l.length + 1 := length_append
  have hnew : ranked (l ++ [x]) (l.length / 2) ≤ median (l ++ [x]) := by
    have h := lower_le_median (l := l ++ [x]) (by simp)
    rwa [hlength, Nat.add_sub_cancel] at h
  have hold := median_le_upper hne
  rw [length_lt_iff hne]
  by_cases hlarge : ranked l (l.length / 2) ≤ x
  · rw [ranked_concat_of_le (by omega) hlarge] at hnew
    exact iff_of_true (hold.trans hnew) (.inl hlarge)
  by_cases hties : 2 ≤ l.length ∧ ranked l (l.length / 2) ≤ ranked l (l.length / 2 - 1)
  · have hmiddle := (le_length_iff hties.1).mpr hties.2
    have hkept : ranked l (l.length / 2) ≤ ranked (l ++ [x]) (l.length / 2) := by
      rw [← not_lt, ranked_lt_iff (by omega), countP_concat_lt, if_pos (not_le.mp hlarge)]
      omega
    exact iff_of_true (hold.trans (hkept.trans hnew))
      (.inr ⟨_, hmiddle, (length_lt_iff hne).mpr le_rfl⟩)
  · have hlt := median_concat_lt hx (not_le.mp hlarge) fun hlong =>
      not_le.mp fun hle => hties ⟨hlong, hle⟩
    refine iff_of_false (not_le.mpr hlt) ?_
    rintro (hle | ⟨y, hlow, hhigh⟩)
    · exact hlarge hle
    · have hlong : 2 ≤ l.length := by omega
      exact hties ⟨hlong, ((length_lt_iff hne).mp hhigh).trans ((le_length_iff hlong).mp hlow)⟩

end

end OmniSense.Library
