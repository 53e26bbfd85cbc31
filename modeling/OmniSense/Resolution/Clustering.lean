import Mathlib
import OmniSense.Library.Sums
import OmniSense.Library.UnionFind
import OmniSense.Resolution.Blocking

/-! Clusters of records, and the average linkage that refines them. -/

namespace OmniSense.Resolution

open List

/-! Components of accepted pairs, their refinement by average linkage, and the re-joining of what
a `must_link` override spans. -/

section

open Library UnionFind

/-- `round(q, digits)`: half to even. -/
def roundTo (digits : ℕ) (q : ℚ) : ℚ :=
  let scaled := q * 10 ^ digits
  let low := ⌊scaled⌋
  let rounded :=
    if scaled - low < 1 / 2 then low
    else if 1 / 2 < scaled - low then low + 1
    else if low % 2 = 0 then low else low + 1
  rounded / 10 ^ digits

def minWithinClusterLinkage : ℚ := 60 / 100
def maxRefinementComponent : ℕ := 64

/-! ## Components -/

/-- `_UnionFind.components`, after the accepted unions. -/
def components (ids : List String) (accepted : List Pair) : List (List String) :=
  sortBlocks (((start ids).unionAll accepted).group fun rid => [rid]).values

section

variable {ids : List String} {accepted : List Pair}
  (haccepted : ∀ p ∈ accepted, p.1 ∈ ids ∧ p.2 ∈ ids)

include haccepted

theorem components_perm : (components ids accepted).flatten.Perm ids := by
  have hgroup := (unionAll_start ids haccepted).group_perm fun rid => [rid]
  rw [flatMap_singleton'] at hgroup
  exact (sortBlocks_perm _).trans hgroup

theorem components_nonempty : [] ∉ components ids accepted := by
  intro hmem
  obtain ⟨c, hc, hsorted⟩ := mem_sortBlocks.mp hmem
  have hnil : c = [] := (hsorted ▸ sorted_perm c).symm.eq_nil
  have hsets := unionAll_start ids haccepted
  exact hsets.group_nonempty _ (fun _ _ => cons_ne_nil _ _) (hnil ▸ hc)

theorem together_components {x y : String} :
    Together (components ids accepted) x y ↔ x ∈ ids ∧ y ∈ ids ∧ Linked accepted x y := by
  unfold components
  rw [together_sortBlocks, (unionAll_start ids haccepted).together_group]
  simp only [mem_singleton]
  constructor
  · rintro ⟨_, hi, _, hj, hlinked, rfl, rfl⟩
    exact ⟨hi, hj, hlinked⟩
  · rintro ⟨hx, hy, hlinked⟩
    exact ⟨x, hx, y, hy, hlinked, rfl, rfl⟩

end

/-! ## Refinement -/

section

variable (similarity : Dict Pair ℚ) (floor : ℚ)

def similarityOf (a b : String) : ℚ := (similarity.get? (pairKey a b)).getD 0

def averageLinkage (left right : List String) : ℚ :=
  (left.map fun a => (right.map (similarityOf similarity a)).sum).sum /
    (left.length * right.length : ℕ)

variable (cs : List (List String))

def linkageAt (p : ℕ × ℕ) : ℚ :=
  averageLinkage similarity (cs.getD p.1 []) (cs.getD p.2 [])

def bestKey (p : ℕ × ℕ) : ℚ ×ₗ List String :=
  toLex (-roundTo 9 (linkageAt similarity cs p), sorted (cs.getD p.1 [] ++ cs.getD p.2 []))

def bestPair : Option (ℕ × ℕ) :=
  ((pairsOf (List.range cs.length)).filter fun p => ¬linkageAt similarity cs p < floor).argmin
    (bestKey similarity cs)

def singletons (members : List String) : List (List String) :=
  (sorted members).map fun member => [member]

def refineComponent (members : List String) : List (List String) :=
  if (singletons members).length < 2 then singletons members
  else sorted
    (agglomerate (bestPair similarity floor) (singletons members).length (singletons members))

variable {similarity floor}

theorem bestPair_lt {cs : List (List String)} {i j : ℕ}
    (h : bestPair similarity floor cs = some (i, j)) : i < j ∧ j < cs.length :=
  mem_pairsOf_range.mp (mem_of_mem_filter (argmin_mem h))

theorem bestPair_none {cs : List (List String)} (h : bestPair similarity floor cs = none) :
    cs.Pairwise fun c c' => averageLinkage similarity c c' < floor := by
  rw [pairwise_iff_getElem]
  intro i j hi hj hij
  have hempty := filter_eq_nil_iff.mp (argmin_eq_none.mp h) (i, j)
    (mem_pairsOf_range.mpr ⟨hij, hj⟩)
  have hlow : linkageAt similarity cs (i, j) < floor := by simpa using hempty
  unfold linkageAt at hlow
  rwa [getD_eq_getElem _ _ hi, getD_eq_getElem _ _ hj] at hlow

variable (members : List String)

theorem flatten_singletons : (singletons members).flatten.Perm members := by
  unfold singletons
  rw [← flatMap_def, flatMap_singleton']
  exact sorted_perm members

variable (similarity floor) in
theorem refineComponent_perm : (refineComponent similarity floor members).flatten.Perm members := by
  unfold refineComponent
  split_ifs
  · exact flatten_singletons members
  · refine (sorted_perm _).flatten.trans ?_
    refine agglomerate_keeps (P := fun cs => cs.flatten.Perm members) (fun cs i j hbest hcs => ?_) _
      (flatten_singletons members)
    obtain ⟨hij, hj⟩ := bestPair_lt hbest
    exact (joinAt_perm hij hj).trans hcs

theorem refineComponent_nonempty : [] ∉ refineComponent similarity floor members := by
  have hsingle : [] ∉ singletons members := by simp [singletons]
  unfold refineComponent
  split_ifs
  · exact hsingle
  · rw [mem_sorted]
    refine agglomerate_keeps (P := fun cs => [] ∉ cs) (fun cs i j hbest hcs => ?_) _ hsingle
    obtain ⟨hij, hj⟩ := bestPair_lt hbest
    exact joinAt_nonempty hij hj hcs

/-- **Refinement stops when no two clusters reach the floor.** -/
theorem refineComponent_separates {members : List String} {c c' : List String}
    (hc : c ∈ refineComponent similarity floor members)
    (hc' : c' ∈ refineComponent similarity floor members) (hne : c ≠ c') :
    averageLinkage similarity c c' < floor ∨ averageLinkage similarity c' c < floor := by
  let Apart := fun c c' => averageLinkage similarity c c' < floor ∨
    averageLinkage similarity c' c < floor
  have hsymm : Std.Symm Apart := ⟨fun _ _ => Or.symm⟩
  have hforall : ∀ {cs : List (List String)},
      (cs.Pairwise fun c c' => averageLinkage similarity c c' < floor) → c ∈ cs → c' ∈ cs →
      Apart c c' := by
    intro cs hcs hc hc'
    have happart : cs.Pairwise Apart := hcs.imp Or.inl
    exact happart.forall hc hc' hne
  unfold refineComponent at hc hc'
  split_ifs at hc hc' with hlen
  · refine hforall ?_ hc hc'
    match singletons members, hlen with
    | [], _ => exact .nil
    | [c], _ => exact pairwise_singleton _ c
  · have hlt : ∀ cs i j, bestPair similarity floor cs = some (i, j) → i < j ∧ j < cs.length :=
      fun _ _ _ => bestPair_lt
    have hdone := agglomerate_done hlt (le_refl (singletons members).length)
    exact hforall (bestPair_none hdone) (mem_sorted.mp hc) (mem_sorted.mp hc')

theorem le_averageLinkage (hnonneg : ∀ a b, 0 ≤ similarityOf similarity a b) {left right : List String}
    {a b : String} (ha : a ∈ left) (hb : b ∈ right) :
    similarityOf similarity a b / (left.length * right.length : ℕ) ≤
      averageLinkage similarity left right := by
  have hrow : ∀ a, ∀ s ∈ right.map (similarityOf similarity a), 0 ≤ s := by
    intro a s hs
    obtain ⟨b, -, rfl⟩ := mem_map.mp hs
    exact hnonneg a b
  have hrows : ∀ s ∈ left.map fun a => (right.map (similarityOf similarity a)).sum, 0 ≤ s := by
    intro s hs
    obtain ⟨a, -, rfl⟩ := mem_map.mp hs
    exact sum_nonneg (hrow a)
  have hle : similarityOf similarity a b ≤ (right.map (similarityOf similarity a)).sum :=
    single_le_sum (hrow a) _ (mem_map_of_mem hb)
  have hsum := single_le_sum hrows _ (mem_map_of_mem ha)
  exact div_le_div_of_nonneg_right (hle.trans hsum) (Nat.cast_nonneg _)

end

/-! ## Required links -/

/-- `{rid: i for i, cluster in enumerate(refined) for rid in cluster}`. -/
def owner (refined : List (List String)) : Dict String ℕ :=
  .ofList (refined.zipIdx.flatMap fun e => e.1.map fun rid => (rid, e.2))

def spannedClusters (refined : List (List String)) (required : List Pair) : List Pair :=
  (sortedBy (toLex : Pair → String ×ₗ String) required).filterMap fun p =>
    match (owner refined).get? p.1, (owner refined).get? p.2 with
    | some i, some j => some (i.repr, j.repr)
    | _, _ => none

def positions (refined : List (List String)) : List String :=
  (List.range refined.length).map Nat.repr

def clusterAt (refined : List (List String)) (position : String) : List String :=
  refined.getD (position.toNat?.getD 0) []

def applyRequiredLinks (refined : List (List String)) (required : List Pair) :
    List (List String) :=
  if required = [] then refined
  else
    sortBlocks (((start (positions refined)).unionAll (spannedClusters refined required)).group
      (clusterAt refined)).values

section

variable {refined : List (List String)} {required : List Pair}

theorem get?_owner (hnodup : refined.flatten.Nodup) {rid : String} {i : ℕ} :
    (owner refined).get? rid = some i ↔ ∃ c, refined[i]? = some c ∧ rid ∈ c := by
  have hkeys : (refined.zipIdx.flatMap fun e => e.1.map fun rid => (rid, e.2)).map Prod.fst =
      refined.flatten := by
    rw [map_flatMap]
    simp only [map_map, Function.comp_def, map_id']
    rw [flatMap_def, ← zipIdx_map_fst 0 refined]
    simp
  unfold owner
  rw [Dict.get?_ofList (hkeys ▸ hnodup), mem_flatMap]
  constructor
  · rintro ⟨e, he, hmem⟩
    obtain ⟨rid, hrid, heq⟩ := mem_map.mp hmem
    obtain ⟨rfl, rfl⟩ := Prod.mk.inj heq
    exact ⟨e.1, mem_zipIdx_iff_getElem?.mp he, hrid⟩
  · rintro ⟨c, hc, hrid⟩
    exact ⟨(c, i), mem_zipIdx_iff_getElem?.mpr hc, mem_map.mpr ⟨rid, hrid, rfl⟩⟩

theorem mem_spannedClusters {q : Pair} : q ∈ spannedClusters refined required ↔
    ∃ p ∈ required, ∃ i j, (owner refined).get? p.1 = some i ∧
      (owner refined).get? p.2 = some j ∧ q = (i.repr, j.repr) := by
  unfold spannedClusters
  rw [mem_filterMap]
  constructor
  · rintro ⟨p, hp, hq⟩
    refine ⟨p, (sortedBy_perm _ _).mem_iff.mp hp, ?_⟩
    split at hq
    · rename_i i j hi hj
      exact ⟨i, j, hi, hj, (Option.some.inj hq).symm⟩
    · cases hq
  · rintro ⟨p, hp, i, j, hi, hj, rfl⟩
    refine ⟨p, (sortedBy_perm _ _).mem_iff.mpr hp, ?_⟩
    rw [hi, hj]

theorem clusterAt_repr (i : ℕ) : clusterAt refined i.repr = refined.getD i [] := by
  unfold clusterAt
  rw [Nat.toNat?_repr]
  rfl

theorem flatMap_positions (refined : List (List String)) :
    (positions refined).flatMap (clusterAt refined) = refined.flatten := by
  have hget : (List.range refined.length).map (fun i => refined.getD i []) = refined := by
    refine ext_getElem (by simp) fun i hi hi' => ?_
    rw [getElem_map, getElem_range, getD_eq_getElem _ _ hi']
  unfold positions
  rw [flatMap_map]
  simp only [clusterAt_repr]
  rw [flatMap_def, hget]

theorem mem_clusterAt_owner (hnodup : refined.flatten.Nodup) {rid : String} {i : ℕ}
    (h : (owner refined).get? rid = some i) :
    i.repr ∈ positions refined ∧ rid ∈ clusterAt refined i.repr := by
  obtain ⟨c, hc, hrid⟩ := (get?_owner hnodup).mp h
  have hlt := (List.getElem?_eq_some_iff.mp hc).1
  refine ⟨mem_map_of_mem (mem_range.mpr hlt), ?_⟩
  rw [clusterAt_repr, getD_eq_getElem?_getD, hc]
  exact hrid

section

variable (hnodup : refined.flatten.Nodup)
include hnodup

theorem spannedClusters_mem : ∀ q ∈ spannedClusters refined required,
    q.1 ∈ positions refined ∧ q.2 ∈ positions refined := by
  intro q hq
  obtain ⟨p, -, i, j, hi, hj, rfl⟩ := mem_spannedClusters.mp hq
  exact ⟨(mem_clusterAt_owner hnodup hi).1, (mem_clusterAt_owner hnodup hj).1⟩

theorem applyRequiredLinks_perm :
    (applyRequiredLinks refined required).flatten.Perm refined.flatten := by
  unfold applyRequiredLinks
  split_ifs
  · exact .refl _
  · refine (sortBlocks_perm _).trans ?_
    rw [← flatMap_positions refined]
    exact (unionAll_start _ (spannedClusters_mem hnodup)).group_perm _

theorem applyRequiredLinks_nonempty (hempty : [] ∉ refined) :
    [] ∉ applyRequiredLinks refined required := by
  have hcluster : ∀ position ∈ positions refined, clusterAt refined position ≠ [] := by
    intro position hmem hnil
    obtain ⟨i, hi, rfl⟩ := mem_map.mp hmem
    rw [clusterAt_repr, getD_eq_getElem _ _ (mem_range.mp hi)] at hnil
    exact hempty (hnil ▸ getElem_mem _)
  unfold applyRequiredLinks
  split_ifs
  · exact hempty
  · intro hmem
    obtain ⟨c, hc, hsorted⟩ := mem_sortBlocks.mp hmem
    have hnil : c = [] := (hsorted ▸ sorted_perm c).symm.eq_nil
    have hsets := unionAll_start _ (@spannedClusters_mem _ required hnodup)
    exact hsets.group_nonempty _ hcluster (hnil ▸ hc)

theorem Together.applyRequiredLinks {x y : String} (h : Together refined x y) :
    Together (applyRequiredLinks refined required) x y := by
  unfold Resolution.applyRequiredLinks
  split_ifs
  · exact h
  · obtain ⟨c, hc, hx, hy⟩ := h
    obtain ⟨i, hi⟩ := mem_iff_getElem?.mp hc
    have howner : ∀ {z}, z ∈ c → (owner refined).get? z = some i := fun hz =>
      (get?_owner hnodup).mpr ⟨c, hi, hz⟩
    obtain ⟨hpos, hxi⟩ := mem_clusterAt_owner hnodup (howner hx)
    rw [together_sortBlocks, (unionAll_start _ (spannedClusters_mem hnodup)).together_group]
    exact ⟨_, hpos, _, hpos, .refl _, hxi, (mem_clusterAt_owner hnodup (howner hy)).2⟩

/-- **A required pair is together after the re-joining.** -/
theorem together_required {p : Pair} (hp : p ∈ required) (hl : p.1 ∈ refined.flatten)
    (hr : p.2 ∈ refined.flatten) : Together (applyRequiredLinks refined required) p.1 p.2 := by
  have howner : ∀ {z}, z ∈ refined.flatten → ∃ i, (owner refined).get? z = some i := by
    intro z hz
    obtain ⟨c, hc, hzc⟩ := mem_flatten.mp hz
    obtain ⟨i, hi⟩ := mem_iff_getElem?.mp hc
    exact ⟨i, (get?_owner hnodup).mpr ⟨c, hi, hzc⟩⟩
  obtain ⟨i, hi⟩ := howner hl
  obtain ⟨j, hj⟩ := howner hr
  have hspanned : (i.repr, j.repr) ∈ spannedClusters refined required :=
    mem_spannedClusters.mpr ⟨p, hp, i, j, hi, hj, rfl⟩
  unfold Resolution.applyRequiredLinks
  rw [if_neg (ne_nil_of_mem hp), together_sortBlocks,
    (unionAll_start _ (spannedClusters_mem hnodup)).together_group]
  obtain ⟨hipos, hli⟩ := mem_clusterAt_owner hnodup hi
  obtain ⟨hjpos, hrj⟩ := mem_clusterAt_owner hnodup hj
  exact ⟨_, hipos, _, hjpos, .rel _ _ hspanned, hli, hrj⟩

end

end

end

/-! Average linkage: what holds of the clusters that refinement returns, for every similarity map
and every floor. -/

section

open Library

def meanSimilarity (similarity : Dict Pair ℚ) (c : List String) : ℚ :=
  pairSum (similarityOf similarity) c / (pairsOf c).length

variable {similarity : Dict Pair ℚ} {floor : ℚ} {cs : List (List String)} {c c' : List String}

theorem similarityOf_comm (a b : String) :
    similarityOf similarity a b = similarityOf similarity b a := by
  unfold similarityOf
  rw [pairKey_comm]

theorem averageLinkage_comm : averageLinkage similarity c c' = averageLinkage similarity c' c := by
  have hsum : crossSum (similarityOf similarity) c c' = crossSum (similarityOf similarity) c' c :=
    crossSum_comm similarityOf_comm c c'
  unfold crossSum at hsum
  unfold averageLinkage
  rw [hsum, Nat.mul_comm]

/-! ## The mean of a cluster -/

def Cohesive (similarity : Dict Pair ℚ) (floor : ℚ) (c : List String) : Prop :=
  0 ≤ pairSum (fun a b => similarityOf similarity a b - floor) c

theorem Cohesive.mean (h : Cohesive similarity floor c) (hpairs : 2 ≤ c.length) :
    floor ≤ meanSimilarity similarity c := by
  have hpos : (0 : ℚ) < (pairsOf c).length := by
    match c, hpairs with
    | a :: b :: c, _ =>
      have hlength : (pairsOf (a :: b :: c)).length ≠ 0 := by simp [pairsOf]
      exact_mod_cast Nat.pos_of_ne_zero hlength
  unfold Cohesive at h
  rw [pairSum_sub_const, nsmul_eq_mul, sub_nonneg] at h
  unfold meanSimilarity
  rw [le_div_iff₀ hpos, mul_comm]
  exact h

theorem cohesive_singleton (member : String) : Cohesive similarity floor [member] :=
  le_of_eq rfl

theorem Cohesive.join (h : Cohesive similarity floor c) (h' : Cohesive similarity floor c')
    (hlinkage : floor ≤ averageLinkage similarity c c') (hne : c ≠ []) (hne' : c' ≠ []) :
    Cohesive similarity floor (sorted (c ++ c')) := by
  have hpos : (0 : ℚ) < (c.length * c'.length : ℕ) := by
    exact_mod_cast Nat.mul_pos (length_pos_of_ne_nil hne) (length_pos_of_ne_nil hne')
  have hcross : 0 ≤ crossSum (fun a b => similarityOf similarity a b - floor) c c' := by
    rw [crossSum_sub_const, nsmul_eq_mul, sub_nonneg]
    unfold averageLinkage at hlinkage
    rw [le_div_iff₀ hpos, mul_comm] at hlinkage
    exact hlinkage
  have hsymm : ∀ a b, similarityOf similarity a b - floor = similarityOf similarity b a - floor :=
    fun a b => by rw [similarityOf_comm]
  unfold Cohesive at h h' ⊢
  rw [pairSum_perm hsymm (sorted_perm (c ++ c')), pairSum_append]
  exact add_nonneg (add_nonneg h h') hcross

theorem mem_joinAt {i j : ℕ} (hij : i < j) (hj : j < cs.length) (h : c ∈ joinAt cs i j) :
    c ∈ cs ∨ c = sorted (cs.getD i [] ++ cs.getD j []) := by
  rcases mem_append.mp (mem_sorted.mp h) with hold | hnew
  · exact .inl ((perm_eraseTwo hij hj).mem_iff.mp (.tail _ (.tail _ hold)))
  · exact .inr (mem_singleton.mp hnew)

def Refined (similarity : Dict Pair ℚ) (floor : ℚ) (cs : List (List String)) : Prop :=
  [] ∉ cs ∧ ∀ c ∈ cs, Cohesive similarity floor c

theorem Refined.joinAt {i j : ℕ} (h : Refined similarity floor cs)
    (hbest : bestPair similarity floor cs = some (i, j)) :
    Refined similarity floor (joinAt cs i j) := by
  obtain ⟨hij, hj⟩ := bestPair_lt hbest
  have hpicked := of_mem_filter (argmin_mem hbest)
  have hreaches : floor ≤ linkageAt similarity cs (i, j) := not_lt.mp (of_decide_eq_true hpicked)
  have hi : cs.getD i [] ∈ cs := by
    rw [getD_eq_getElem _ _ (hij.trans hj)]
    exact getElem_mem _
  have hj' : cs.getD j [] ∈ cs := by
    rw [getD_eq_getElem _ _ hj]
    exact getElem_mem _
  refine ⟨joinAt_nonempty hij hj h.1, fun c hc => ?_⟩
  rcases mem_joinAt hij hj hc with hold | rfl
  · exact h.2 c hold
  · exact (h.2 _ hi).join (h.2 _ hj') hreaches (fun heq => h.1 (heq ▸ hi))
      fun heq => h.1 (heq ▸ hj')

variable (members : List String)

theorem refined_singletons : Refined similarity floor (singletons members) := by
  unfold singletons
  refine ⟨by simp, fun c hc => ?_⟩
  obtain ⟨member, _, rfl⟩ := mem_map.mp hc
  exact cohesive_singleton member

theorem refined_refineComponent :
    Refined similarity floor (refineComponent similarity floor members) := by
  have hstart : Refined similarity floor (singletons members) := refined_singletons members
  unfold refineComponent
  split_ifs
  · exact hstart
  · have hrun := agglomerate_keeps
      (fun cs i j hbest hcs => Refined.joinAt hcs hbest) (singletons members).length hstart
    exact ⟨fun h => hrun.1 (mem_sorted.mp h), fun c hc => hrun.2 c (mem_sorted.mp hc)⟩

/-! ## The end of the rounds -/

theorem bestPair_bound : ∀ cs i j, bestPair similarity floor cs = some (i, j) →
    i < j ∧ j < cs.length :=
  fun _ _ _ => bestPair_lt

theorem refineComponent_apart : (refineComponent similarity floor members).Pairwise fun c c' =>
      averageLinkage similarity c c' < floor := by
  unfold refineComponent
  split_ifs with hlength
  · match singletons members, hlength with
    | [], _ => exact .nil
    | [c], _ => exact pairwise_singleton _ c
  · have hdone : bestPair similarity floor (agglomerate (bestPair similarity floor)
        (singletons members).length (singletons members)) = none :=
      agglomerate_done bestPair_bound (le_refl _)
    refine (sorted_perm _).symm.pairwise (bestPair_none hdone) fun h => ?_
    rw [averageLinkage_comm]
    exact h

theorem refineComponent_rounds {n : ℕ} (h : members.length ≤ n) :
    sorted (agglomerate (bestPair similarity floor) n (singletons members)) =
      refineComponent similarity floor members := by
  have hlength : (singletons members).length = members.length := by
    unfold singletons
    rw [length_map, (sorted_perm members).length_eq]
  rw [agglomerate_more bestPair_bound (hlength.trans_le h)]
  unfold refineComponent
  split_ifs with hfew
  · have hnone : bestPair similarity floor (singletons members) = none := by
      rw [Option.eq_none_iff_forall_ne_some]
      rintro ⟨i, j⟩ hsome
      have hij := bestPair_lt hsome
      omega
    rw [agglomerate_of_none hnone]
    match singletons members, hfew with
    | [], _ => rfl
    | [c], _ => rfl
  · rfl

theorem refineComponent_congr {members members' : List String} (h : members.Perm members') :
    refineComponent similarity floor members = refineComponent similarity floor members' := by
  unfold refineComponent singletons
  rw [sorted_congr h]

/-- **Refinement is average-linkage clustering**: it ends with a partition of the members, in which
the pairs of every cluster reach the floor on average and no two clusters do, and which does not
depend on the order of the members. -/
theorem refineComponent_correct (similarity : Dict Pair ℚ) (floor : ℚ) (members : List String) :
    (∀ n, members.length ≤ n → sorted (agglomerate (bestPair similarity floor) n
      (singletons members)) = refineComponent similarity floor members) ∧
    (refineComponent similarity floor members).flatten.Perm members ∧
    [] ∉ refineComponent similarity floor members ∧
    (∀ c ∈ refineComponent similarity floor members, 2 ≤ c.length →
      floor ≤ meanSimilarity similarity c) ∧
    ((refineComponent similarity floor members).Pairwise fun c c' =>
      averageLinkage similarity c c' < floor ∧ averageLinkage similarity c' c < floor) ∧
    ∀ members', members.Perm members' →
      refineComponent similarity floor members' = refineComponent similarity floor members := by
  have hrefined : Refined similarity floor (refineComponent similarity floor members) :=
    refined_refineComponent members
  refine ⟨fun n => refineComponent_rounds members, refineComponent_perm similarity floor members,
    hrefined.1, fun c hc hpairs => (hrefined.2 c hc).mean hpairs, ?_,
    fun members' h => (refineComponent_congr h).symm⟩
  refine (refineComponent_apart members).imp fun h => ⟨h, ?_⟩
  rw [averageLinkage_comm]
  exact h

end

end OmniSense.Resolution
