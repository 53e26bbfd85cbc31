import Mathlib.Algebra.BigOperators.Field
import Mathlib.Algebra.BigOperators.Ring.Finset
import Mathlib.Algebra.Order.Field.Rat
import Mathlib.Algebra.Order.BigOperators.Group.Finset
import Mathlib.Combinatorics.SimpleGraph.Metric
import Mathlib.Combinatorics.SimpleGraph.Walk.Counting
import Mathlib.Data.Finset.CastCard
import Mathlib.Data.Set.Card
import Mathlib.Tactic.FieldSimp
import Mathlib.Tactic.Linarith
import Mathlib.Tactic.Ring

/-! Shortest paths of a graph, how many there are and how many lead through a node, and the sums over
them that betweenness is. -/

namespace OmniSense.Library

open Finset SimpleGraph

variable {V : Type*} (G : SimpleGraph V)

noncomputable def shortestPaths (s t : V) : ℕ := {w : G.Walk s t | w.length = G.dist s t}.ncard

/-- How many of them lead through `v`. -/
noncomputable def shortestPathsThrough (s t v : V) : ℕ :=
  {w : G.Walk s t | w.length = G.dist s t ∧ v ∈ w.support}.ncard

/-! ## Counting walks -/

section

variable [DecidableEq V] [G.LocallyFinite] {G} {s t u v : V}

theorem card_walks_succ (n : ℕ) (P : G.Walk u t → Prop) [DecidablePred P] :
    ((G.finsetWalkLength (n + 1) u t).filter P).card =
      ∑ w : G.neighborSet u, ((G.finsetWalkLength n w t).filter fun p => P (.cons w.2 p)).card := by
  rw [finsetWalkLength, filter_biUnion, card_biUnion]
  · refine sum_congr rfl fun w _ => ?_
    rw [filter_map, card_map]
    rfl
  · intro w _ w' _ hne
    refine disjoint_left.mpr fun p hp hp' => hne ?_
    obtain ⟨q, -, rfl⟩ := mem_map.mp (mem_filter.mp hp).1
    obtain ⟨q', -, heq⟩ := mem_map.mp (mem_filter.mp hp').1
    exact Subtype.ext (Walk.cons.inj heq).1.symm

theorem card_walks_via (m n : ℕ) (u v t : V) :
    ((G.finsetWalkLength (m + n) u t).filter fun p => p.getVert m = v).card =
      (G.finsetWalkLength m u v).card * (G.finsetWalkLength n v t).card := by
  induction m generalizing u with
  | zero =>
    by_cases huv : u = v
    · subst huv
      simp [finsetWalkLength]
    · simp [finsetWalkLength, huv]
  | succ m ih =>
    have hall : (G.finsetWalkLength (m + 1) u v).card =
        ∑ w : G.neighborSet u, (G.finsetWalkLength m w v).card := by
      have hsum := card_walks_succ m (u := u) (t := v) (G := G) fun _ => True
      simpa only [filter_true] using hsum
    rw [Nat.add_right_comm, card_walks_succ, hall, sum_mul]
    exact sum_congr rfl fun w _ => ih w

theorem shortestPaths_eq_card (s t : V) :
    shortestPaths G s t = (G.finsetWalkLength (G.dist s t) s t).card := by
  unfold shortestPaths
  rw [← coe_finsetWalkLength_eq, Set.ncard_coe_finset]

theorem card_walks_eq_zero {n : ℕ} (h : n < G.dist s t) : (G.finsetWalkLength n s t).card = 0 := by
  refine card_eq_zero.mpr (eq_empty_of_forall_notMem fun w hw => ?_)
  have hle := G.dist_le w
  rw [mem_finsetWalkLength_iff.mp hw] at hle
  omega

theorem shortestPaths_pos (h : G.Reachable s t) : 0 < shortestPaths G s t := by
  obtain ⟨w, hw⟩ := h.exists_walk_length_eq_dist
  rw [shortestPaths_eq_card]
  exact card_pos.mpr ⟨w, mem_finsetWalkLength_iff.mpr hw⟩

omit [DecidableEq V] [G.LocallyFinite] in
theorem shortestPaths_comm (s t : V) : shortestPaths G s t = shortestPaths G t s := by
  have himage : {w : G.Walk t s | w.length = G.dist t s} =
      Walk.reverse '' {w : G.Walk s t | w.length = G.dist s t} := by
    ext w
    constructor
    · intro hw
      refine ⟨w.reverse, ?_, Walk.reverse_reverse w⟩
      change w.reverse.length = G.dist s t
      rw [Walk.length_reverse, G.dist_comm]
      exact hw
    · rintro ⟨q, hq, rfl⟩
      change q.reverse.length = G.dist t s
      rw [Walk.length_reverse, G.dist_comm]
      exact hq
  unfold shortestPaths
  rw [himage, Set.ncard_image_of_injective _ Walk.reverse_injective]

omit [DecidableEq V] [G.LocallyFinite] in
theorem mem_support_iff {w : G.Walk s t} (hw : w.length = G.dist s t) (v : V) :
    v ∈ w.support ↔ w.getVert (G.dist s v) = v ∧ G.dist s v + G.dist v t = G.dist s t ∧
      G.Reachable s v ∧ G.Reachable v t := by
  constructor
  · intro hv
    obtain ⟨n, rfl, hn⟩ := Walk.mem_support_iff_exists_getVert.mp hv
    have hfirst := G.dist_le (w.take n)
    have hlast := G.dist_le (w.drop n)
    have hreach := (w.take n).reachable
    have htri := hreach.dist_triangle_left t
    rw [Walk.take_length] at hfirst
    rw [Walk.drop_length] at hlast
    have hdist : G.dist s (w.getVert n) = n := by omega
    rw [hdist]
    exact ⟨rfl, by omega, hreach, (w.drop n).reachable⟩
  · rintro ⟨hv, -⟩
    rw [← hv]
    exact w.getVert_mem_support _

theorem through_eq (s t v : V) [Decidable (G.dist s v + G.dist v t = G.dist s t ∧
      G.Reachable s v ∧ G.Reachable v t)] :
    shortestPathsThrough G s t v =
      if G.dist s v + G.dist v t = G.dist s t ∧ G.Reachable s v ∧ G.Reachable v t then
        shortestPaths G s v * shortestPaths G v t
      else 0 := by
  unfold shortestPathsThrough
  split_ifs with hon
  · rw [shortestPaths_eq_card, shortestPaths_eq_card, ← card_walks_via, hon.1,
      ← Set.ncard_coe_finset]
    congr 1
    ext w
    rw [mem_coe, mem_filter, mem_finsetWalkLength_iff]
    exact and_congr_right fun hw => (mem_support_iff hw v).trans (and_iff_left hon)
  · refine (Set.ncard_eq_zero ?_).mpr (Set.eq_empty_of_forall_notMem fun w hw => ?_)
    · exact (Set.toFinite {w : G.Walk s t | w.length = G.dist s t}).subset fun w hw => hw.1
    · exact hon ((mem_support_iff hw.1 v).mp hw.2).2

end

/-! ## A graph within a finite set of nodes -/

noncomputable section

open Classical

def Within (nodes : Finset V) : Prop := ∀ u w, G.Adj u w → w ∈ nodes

/-- The part of the shortest paths that leads through `v`. -/
def share (s t v : V) : ℚ := shortestPathsThrough G s t v / shortestPaths G s t

/-- What the shortest paths from `s` add to `v`. -/
def dependency (nodes : Finset V) (s v : V) : ℚ := ∑ t ∈ nodes with t ≠ v, share G s t v

def betweenness [LinearOrder V] (nodes : Finset V) (v : V) : ℚ :=
  (∑ e ∈ nodes ×ˢ nodes with e.1 < e.2 ∧ e.1 ≠ v ∧ e.2 ≠ v ∧ G.Reachable e.1 e.2,
    (shortestPathsThrough G e.1 e.2 v : ℚ) / shortestPaths G e.1 e.2) /
      ((nodes.card - 1) * (nodes.card - 2) / 2)

variable {G} {nodes : Finset V} {s t v w : V}

namespace Within

variable (hG : Within G nodes)

include hG

@[reducible] def locallyFinite : G.LocallyFinite := fun u =>
  Fintype.ofFinset (nodes.filter (G.Adj u)) fun w =>
    mem_filter.trans (and_iff_right_of_imp (hG u w))

theorem sum_neighbours (u : V) (f : V → ℕ) :
    letI := hG.locallyFinite
    ∑ w : G.neighborSet u, f w = ∑ w ∈ nodes with G.Adj u w, f w := by
  let _ := hG.locallyFinite
  rw [sum_set_coe]
  refine sum_congr (ext fun w => ?_) fun _ _ => rfl
  rw [Set.mem_toFinset, mem_filter]
  exact (and_iff_right_of_imp (hG u w)).symm

theorem first_step (hne : v ≠ t) (h : G.Reachable v t) : shortestPaths G v t =
    ∑ w ∈ nodes with G.Adj v w ∧ G.dist w t + 1 = G.dist v t, shortestPaths G w t := by
  let _ := hG.locallyFinite
  have hpos := h.pos_dist_of_ne hne
  obtain ⟨n, hn⟩ : ∃ n, G.dist v t = n + 1 := ⟨G.dist v t - 1, by omega⟩
  have hsum := card_walks_succ n (u := v) (t := t) (G := G) fun _ => True
  simp only [filter_true] at hsum
  rw [shortestPaths_eq_card, hn, hsum, hG.sum_neighbours v fun w => (G.finsetWalkLength n w t).card]
  rw [← filter_filter, sum_filter (fun w => G.dist w t + 1 = n + 1)]
  refine sum_congr rfl fun w hw => ?_
  have hadj := (mem_filter.mp hw).2
  split_ifs with hdist
  · rw [shortestPaths_eq_card, Nat.succ_injective hdist]
  · -- A walk that short does not reach `t`.
    have htri := (hadj.reachable).dist_triangle_left t
    rw [hn, dist_eq_one_iff_adj.mpr hadj] at htri
    exact card_walks_eq_zero (by omega)

theorem last_step (hne : t ≠ s) (h : G.Reachable s t) : shortestPaths G s t =
    ∑ u ∈ nodes with G.Adj u t ∧ G.dist s t = G.dist s u + 1, shortestPaths G s u := by
  rw [shortestPaths_comm, hG.first_step hne h.symm]
  refine sum_congr (filter_congr fun u _ => ?_) fun u _ => shortestPaths_comm u s
  rw [G.adj_comm, G.dist_comm (u := u), G.dist_comm (u := t), eq_comm]

theorem paths_pos (h : G.Reachable s t) : (0 : ℚ) < shortestPaths G s t := by
  let _ := hG.locallyFinite
  exact Nat.cast_pos.mpr (shortestPaths_pos h)

theorem paths_self (s : V) : shortestPaths G s s = 1 := by
  let _ := hG.locallyFinite
  rw [shortestPaths_eq_card, dist_self]
  simp [finsetWalkLength]

theorem share_eq (s t v : V) : share G s t v =
    if G.dist s v + G.dist v t = G.dist s t ∧ G.Reachable s v ∧ G.Reachable v t then
      (shortestPaths G s v * shortestPaths G v t : ℚ) / shortestPaths G s t
    else 0 := by
  let _ := hG.locallyFinite
  unfold share
  rw [through_eq]
  split_ifs
  · rw [Nat.cast_mul]
  · rw [Nat.cast_zero, zero_div]

theorem share_self (h : G.Reachable s w) : share G s w w = 1 := by
  have hall : {p : G.Walk s w | p.length = G.dist s w ∧ w ∈ p.support} =
      {p : G.Walk s w | p.length = G.dist s w} :=
    Set.ext fun p => and_iff_left p.end_mem_support
  unfold share shortestPathsThrough
  rw [hall]
  exact div_self (hG.paths_pos h).ne'

omit hG in
theorem next_iff (h : G.Reachable s v) (hadj : G.Adj v w) :
    (G.dist s w = G.dist s v + 1 ∧ G.dist s w + G.dist w t = G.dist s t ∧ G.Reachable w t) ↔
      G.dist s v + G.dist v t = G.dist s t ∧ G.Reachable v t ∧ G.dist w t + 1 = G.dist v t := by
  have hone := dist_eq_one_iff_adj.mpr hadj
  have hsw := h.dist_triangle_left w
  have hst := h.dist_triangle_left t
  have hst' := (h.trans hadj.reachable).dist_triangle_left t
  have hvt := hadj.reachable.dist_triangle_left t
  constructor
  · rintro ⟨hnext, hon, hreach⟩
    exact ⟨by omega, hadj.reachable.trans hreach, by omega⟩
  · rintro ⟨hon, hreach, hnext⟩
    exact ⟨by omega, by omega, hadj.symm.reachable.trans hreach⟩

theorem share_split (hne : v ≠ t) (h : G.Reachable s v) : share G s t v =
    ∑ w ∈ nodes with G.Adj v w ∧ G.dist s w = G.dist s v + 1,
      (shortestPaths G s v : ℚ) / shortestPaths G s w * share G s t w := by
  have hterm : ∀ w ∈ nodes.filter fun w => G.Adj v w ∧ G.dist s w = G.dist s v + 1,
      (shortestPaths G s v : ℚ) / shortestPaths G s w * share G s t w =
        if G.dist s v + G.dist v t = G.dist s t ∧ G.Reachable v t ∧ G.dist w t + 1 = G.dist v t then
          (shortestPaths G s v * shortestPaths G w t : ℚ) / shortestPaths G s t
        else 0 := by
    intro w hw
    obtain ⟨-, hadj, hnext⟩ := mem_filter.mp hw
    have hreach := h.trans hadj.reachable
    have hpos := (hG.paths_pos hreach).ne'
    rw [hG.share_eq]
    by_cases hon : G.dist s w + G.dist w t = G.dist s t ∧ G.Reachable w t
    · rw [if_pos ⟨hon.1, hreach, hon.2⟩, if_pos ((next_iff h hadj).mp ⟨hnext, hon⟩)]
      field_simp
    · rw [if_neg fun hall => hon ⟨hall.1, hall.2.2⟩,
        if_neg fun hall => hon ((next_iff h hadj).mpr hall).2, mul_zero]
  rw [sum_congr rfl hterm, hG.share_eq]
  by_cases hon : G.dist s v + G.dist v t = G.dist s t ∧ G.Reachable v t
  · rw [if_pos ⟨hon.1, h, hon.2⟩, hG.first_step hne hon.2, Nat.cast_sum, mul_sum, sum_div]
    simp only [hon, true_and]
    rw [← sum_filter, filter_filter]
    refine sum_congr (filter_congr fun w _ => ⟨fun hw => ⟨⟨hw.1, ?_⟩, hw.2⟩, fun hw =>
      ⟨hw.1.1, hw.2⟩⟩) fun _ _ => rfl
    exact ((next_iff h hw.1).mpr ⟨hon.1, hon.2, hw.2⟩).1
  · rw [if_neg fun hall => hon ⟨hall.1, hall.2.2⟩]
    exact (sum_eq_zero fun w _ => if_neg fun hall => hon ⟨hall.1, hall.2.1⟩).symm

theorem sum_share (h : G.Reachable s w) (hw : w ∈ nodes) :
    ∑ t ∈ nodes, share G s t w = 1 + dependency G nodes s w := by
  unfold dependency
  rw [filter_ne', add_comm, ← hG.share_self h]
  exact (sum_erase_add nodes (fun t => share G s t w) hw).symm

theorem dependency_eq (h : G.Reachable s v) : dependency G nodes s v =
    ∑ w ∈ nodes with G.Adj v w ∧ G.dist s w = G.dist s v + 1,
      (shortestPaths G s v : ℚ) / shortestPaths G s w * (1 + dependency G nodes s w) := by
  have hsplit : dependency G nodes s v = ∑ t ∈ nodes with t ≠ v,
      ∑ w ∈ nodes with G.Adj v w ∧ G.dist s w = G.dist s v + 1,
        (shortestPaths G s v : ℚ) / shortestPaths G s w * share G s t w :=
    sum_congr rfl fun t ht => hG.share_split (mem_filter.mp ht).2.symm h
  rw [hsplit, sum_comm]
  refine sum_congr rfl fun w hw => ?_
  obtain ⟨hmem, hadj, hnext⟩ := mem_filter.mp hw
  rw [← mul_sum, ← hG.sum_share (h.trans hadj.reachable) hmem]
  congr 1
  -- No shortest path to `v` leads through a node farther away.
  refine sum_subset (filter_subset _ _) fun t ht hnot => ?_
  obtain rfl : t = v := by
    by_contra hne
    exact hnot (mem_filter.mpr ⟨ht, hne⟩)
  rw [hG.share_eq]
  exact if_neg fun hon => by omega

theorem share_comm (s t v : V) : share G s t v = share G t s v := by
  rw [hG.share_eq, hG.share_eq]
  refine if_congr ?_ ?_ rfl
  · rw [G.dist_comm (u := s) (v := v), G.dist_comm (u := v) (v := t), G.dist_comm (u := s) (v := t),
      add_comm, G.reachable_comm (u := s), G.reachable_comm (u := t),
      and_comm (b := G.Reachable v t)]
  · rw [shortestPaths_comm s v, shortestPaths_comm v t, shortestPaths_comm s t, mul_comm]

theorem share_loop (hne : s ≠ v) : share G s s v = 0 := by
  rw [hG.share_eq]
  refine if_neg fun hon => hne (hon.2.1.dist_eq_zero_iff.mp ?_)
  have hsum := hon.1
  rw [dist_self] at hsum
  omega

theorem share_unreachable (h : ¬G.Reachable s t) : share G s t v = 0 := by
  rw [hG.share_eq]
  exact if_neg fun hon => h (hon.2.1.trans hon.2.2)

omit hG in
theorem share_nonneg : 0 ≤ share G s t v := div_nonneg (Nat.cast_nonneg _) (Nat.cast_nonneg _)

theorem dependency_unreachable (h : ¬G.Reachable s v) : dependency G nodes s v = 0 := by
  refine sum_eq_zero fun t _ => ?_
  rw [hG.share_eq]
  exact if_neg fun hon => h hon.2.1

theorem share_le_one : share G s t v ≤ 1 := by
  let _ := hG.locallyFinite
  have hfinite := Set.toFinite {w : G.Walk s t | w.length = G.dist s t}
  have hle := Set.ncard_le_ncard (fun w hw => hw.1 :
    {w : G.Walk s t | w.length = G.dist s t ∧ v ∈ w.support} ⊆ _) hfinite
  exact div_le_one_of_le₀ (Nat.cast_le.mpr hle) (Nat.cast_nonneg _)

end Within

/-! ## All pairs -/

section

variable [LinearOrder V]

theorem sum_pairs (nodes : Finset V) {f : V → V → ℚ} (hsymm : ∀ x y, f x y = f y x)
    (hloop : ∀ x ∈ nodes, f x x = 0) : ∑ x ∈ nodes, ∑ y ∈ nodes, f x y =
      2 * ∑ e ∈ nodes ×ˢ nodes with e.1 < e.2, f e.1 e.2 := by
  have hswap : ∑ e ∈ nodes ×ˢ nodes with ¬e.1 < e.2, f e.1 e.2 =
      ∑ e ∈ nodes ×ˢ nodes with e.1 < e.2, f e.1 e.2 := by
    have hflip : ∑ e ∈ nodes ×ˢ nodes with e.1 < e.2, f e.1 e.2 =
        ∑ e ∈ nodes ×ˢ nodes with e.2 < e.1, f e.1 e.2 := by
      refine sum_equiv (Equiv.prodComm V V) (fun e => ?_) fun e _ => hsymm _ _
      simp only [mem_filter, mem_product, Equiv.prodComm_apply, Prod.fst_swap, Prod.snd_swap]
      rw [and_comm (a := e.1 ∈ nodes)]
    rw [hflip]
    refine (sum_subset (fun e he => ?_) fun e he hnot => ?_).symm
    · obtain ⟨hmem, hlt⟩ := mem_filter.mp he
      exact mem_filter.mpr ⟨hmem, hlt.not_gt⟩
    · obtain ⟨hmem, hge⟩ := mem_filter.mp he
      have hle := not_lt.mp fun hlt => hnot (mem_filter.mpr ⟨hmem, hlt⟩)
      rw [le_antisymm (not_lt.mp hge) hle]
      exact hloop _ (mem_product.mp hmem).1
  rw [← sum_product', ← sum_filter_add_sum_filter_not _ fun e => e.1 < e.2, hswap, two_mul]

theorem sum_other_pairs (nodes : Finset V) (v : V) {f : V → V → ℚ} (hsymm : ∀ x y, f x y = f y x)
    (hloop : ∀ x ∈ nodes, x ≠ v → f x x = 0) : ∑ x ∈ nodes with x ≠ v, ∑ y ∈ nodes with y ≠ v, f x y =
      2 * ∑ e ∈ nodes ×ˢ nodes with e.1 < e.2 ∧ e.1 ≠ v ∧ e.2 ≠ v, f e.1 e.2 := by
  have hpairs := sum_pairs (nodes.filter (· ≠ v)) hsymm fun x hx =>
    hloop x (mem_filter.mp hx).1 (mem_filter.mp hx).2
  rw [hpairs]
  congr 2
  ext e
  simp only [mem_filter, mem_product]
  tauto

theorem sum_dependency (hG : Within G nodes) (v : V) :
    ∑ s ∈ nodes with s ≠ v, dependency G nodes s v =
      2 * ∑ e ∈ nodes ×ˢ nodes with e.1 < e.2 ∧ e.1 ≠ v ∧ e.2 ≠ v ∧ G.Reachable e.1 e.2,
        (shortestPathsThrough G e.1 e.2 v : ℚ) / shortestPaths G e.1 e.2 := by
  have hpairs := sum_other_pairs nodes v (fun s t => hG.share_comm s t v) fun s _ hne =>
    hG.share_loop hne
  have hleft : ∑ s ∈ nodes with s ≠ v, dependency G nodes s v =
      ∑ s ∈ nodes with s ≠ v, ∑ t ∈ nodes with t ≠ v, share G s t v := by
    unfold dependency
    congr!
  rw [hleft, hpairs]
  refine congrArg (2 * ·) (Eq.symm ?_)
  refine sum_subset (fun e he => ?_) fun e he hnot => ?_
  · obtain ⟨hmem, hlt, hfirst, hsecond, -⟩ := mem_filter.mp he
    exact mem_filter.mpr ⟨hmem, hlt, hfirst, hsecond⟩
  · obtain ⟨hmem, hlt, hfirst, hsecond⟩ := mem_filter.mp he
    exact hG.share_unreachable fun h => hnot (mem_filter.mpr ⟨hmem, hlt, hfirst, hsecond, h⟩)

theorem card_other_pairs (hv : v ∈ nodes) :
    ((nodes ×ˢ nodes).filter fun e => e.1 < e.2 ∧ e.1 ≠ v ∧ e.2 ≠ v).card =
      ((nodes.card - 1) * (nodes.card - 2) / 2 : ℚ) := by
  have hpairs := sum_other_pairs nodes v (f := fun x y => if x = y then 0 else 1)
    (fun x y => if_congr eq_comm rfl rfl) fun x _ _ => if_pos rfl
  have hothers : ((nodes.filter (· ≠ v)).card : ℚ) = nodes.card - 1 := by
    rw [filter_ne', cast_card_erase_of_mem hv]
  have hsum : ∀ x ∈ nodes.filter (· ≠ v),
      (∑ y ∈ nodes with y ≠ v, if x = y then (0 : ℚ) else 1) = nodes.card - 2 := by
    intro x hx
    rw [← sum_erase_add _ _ hx, if_pos rfl, add_zero]
    have hone : ∀ y ∈ (nodes.filter (· ≠ v)).erase x, (if x = y then (0 : ℚ) else 1) = 1 :=
      fun y hy => if_neg (ne_of_mem_erase hy).symm
    rw [sum_congr rfl hone, sum_const, nsmul_one, cast_card_erase_of_mem hx, hothers]
    ring
  have hpair : ∀ e ∈ (nodes ×ˢ nodes).filter fun e => e.1 < e.2 ∧ e.1 ≠ v ∧ e.2 ≠ v,
      (if e.1 = e.2 then (0 : ℚ) else 1) = 1 :=
    fun e he => if_neg (mem_filter.mp he).2.1.ne
  rw [sum_congr rfl hsum, sum_congr rfl hpair, sum_const, sum_const, nsmul_one, nsmul_eq_mul,
    hothers] at hpairs
  linarith

theorem betweenness_nonneg (hv : v ∈ nodes) : 0 ≤ betweenness G nodes v := by
  unfold betweenness
  rw [← card_other_pairs hv]
  exact div_nonneg (sum_nonneg fun _ _ => Within.share_nonneg) (Nat.cast_nonneg _)

theorem betweenness_le_one (hG : Within G nodes) (hv : v ∈ nodes) : betweenness G nodes v ≤ 1 := by
  unfold betweenness
  rw [← card_other_pairs hv]
  refine div_le_one_of_le₀ ?_ (Nat.cast_nonneg _)
  have hsum : (∑ e ∈ nodes ×ˢ nodes with e.1 < e.2 ∧ e.1 ≠ v ∧ e.2 ≠ v ∧ G.Reachable e.1 e.2,
      share G e.1 e.2 v) ≤ _ := sum_le_card_nsmul _ _ 1 fun _ _ => hG.share_le_one
  refine hsum.trans ?_
  rw [nsmul_one]
  refine Nat.cast_le.mpr (card_le_card fun e he => ?_)
  obtain ⟨hmem, hlt, hfirst, hsecond, -⟩ := mem_filter.mp he
  exact mem_filter.mpr ⟨hmem, hlt, hfirst, hsecond⟩

end

end

end OmniSense.Library
