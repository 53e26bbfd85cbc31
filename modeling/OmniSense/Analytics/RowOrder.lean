import OmniSense.Analytics.Centrality
import OmniSense.Analytics.Communities

/-! What the order of the rows can reach. The weights never depend on it, but the node list is
sorted only when it is built: the ids that the rows bring are appended as they come. The scores
are sums over the nodes and forget their order; the greedy passes visit the nodes in it. -/

namespace OmniSense.Analytics

open Library List Function

structure SameGraph (p q : Projection) : Prop where
  nodup : p.nodes.Nodup
  perm : p.nodes.Perm q.nodes
  adjacency : p.adjacency = q.adjacency

namespace SameGraph

variable {p q : Projection} (h : SameGraph p q)

include h

theorem neighbours (node : String) : p.neighbours node = q.neighbours node := by
  have hnodup : (p.nodes.map id).Nodup := by rw [map_id]; exact h.nodup
  unfold Projection.neighbours
  rw [sortedBy_congr hnodup h.perm, h.adjacency]

theorem size : p.size = q.size := h.perm.length_eq

theorem weightedDegree (node : String) : p.weightedDegree node = q.weightedDegree node := by
  unfold Projection.weightedDegree
  rw [h.neighbours]

theorem edgeCount : p.edgeCount = q.edgeCount := by
  unfold Projection.edgeCount
  simp only [h.neighbours]
  rw [(h.perm.map _).sum_eq]

theorem scored (scores : String → ℚ) : p.scored scores = q.scored scores := by
  unfold Projection.scored
  simp only [h.perm.mem_iff]

end SameGraph

/-! ## PageRank -/

namespace PageRank

def given (p : Projection) (scores : String → ℚ) (node x : String) : ℚ :=
  if p.weightedDegree node ≤ 0 then 0
  else ((p.neighbours node).map fun entry =>
    if x = entry.1 then scores node / p.weightedDegree node * entry.2 else 0).sum

theorem foldl_send (share : ℚ) (entries : List (String × ℚ)) (incoming : String → ℚ) (x : String) :
    entries.foldl (send share) incoming x =
      incoming x + (entries.map fun entry => if x = entry.1 then share * entry.2 else 0).sum := by
  induction entries generalizing incoming with
  | nil => simp
  | cons entry entries ih =>
    rw [foldl_cons, ih, map_cons, sum_cons, ← add_assoc]
    congr 1
    unfold send
    by_cases hx : x = entry.1
    · subst hx
      rw [update_self, if_pos rfl]
    · rw [update_of_ne hx, if_neg hx, add_zero]

theorem spreadFrom_eq (p : Projection) (scores : String → ℚ) (s : Spread) (node : String) :
    spreadFrom p scores s node =
      { incoming := fun x => s.incoming x + given p scores node x
        danglingMass := s.danglingMass + if p.weightedDegree node ≤ 0 then scores node else 0 } := by
  unfold spreadFrom given
  split_ifs with hdegree
  · simp
  · have hincoming := funext fun x => foldl_send (scores node / p.weightedDegree node)
      (p.neighbours node) s.incoming x
    rw [hincoming, add_zero]

variable {p q : Projection}

theorem spread_congr (h : SameGraph p q) (scores : String → ℚ) :
    spread p scores = spread q scores := by
  have hstep : spreadFrom p scores = spreadFrom q scores := by
    unfold spreadFrom
    simp only [h.neighbours, h.weightedDegree]
  unfold spread
  rw [hstep]
  refine h.perm.foldl_eq' (fun x _ y _ s => ?_) _
  simp only [spreadFrom_eq]
  congr 1
  · funext z
    rw [add_right_comm]
  · rw [add_right_comm]

variable (damping : ℚ) (teleport scores : String → ℚ)

theorem settleNode_comm (danglingMass : ℚ) (s : Settled) (x y : String) :
    settleNode damping teleport scores danglingMass
        (settleNode damping teleport scores danglingMass s x) y =
      settleNode damping teleport scores danglingMass
        (settleNode damping teleport scores danglingMass s y) x := by
  by_cases hxy : x = y
  · rw [hxy]
  · unfold settleNode
    dsimp only
    rw [update_of_ne (Ne.symm hxy), update_of_ne hxy,
      update_comm hxy, add_right_comm]

theorem pass_congr (h : SameGraph p q) :
    pass p damping teleport scores = pass q damping teleport scores := by
  unfold pass
  rw [spread_congr h]
  exact h.perm.foldl_eq' (fun x _ y _ s => settleNode_comm ..) _

theorem iterate_congr (h : SameGraph p q) (tolerance : ℚ)
    (remaining iterations : ℕ) : iterate p damping teleport tolerance remaining iterations scores =
      iterate q damping teleport tolerance remaining iterations scores := by
  induction remaining generalizing iterations scores with
  | zero => rfl
  | succ remaining ih =>
    unfold iterate
    dsimp only
    rw [pass_congr damping teleport scores h, ih]

theorem teleport_congr (h : SameGraph p q) (personalization : Option (String → Option ℚ)) :
    PageRank.teleport p personalization = PageRank.teleport q personalization := by
  unfold PageRank.teleport
  cases personalization with
  | none => rw [h.size]
  | some personalization =>
    dsimp only
    rw [(h.perm.map _).sum_eq]

end PageRank

variable {p q : Projection}

theorem pagerank_congr (h : SameGraph p q) (damping : ℚ) (maxIterations : ℕ)
    (tolerance : ℚ) (personalization : Option (String → Option ℚ)) :
    pagerank p damping maxIterations tolerance personalization =
      pagerank q damping maxIterations tolerance personalization := by
  unfold pagerank
  simp only [h.size, h.edgeCount, h.scored, PageRank.teleport_congr h, PageRank.iterate_congr _ _ _ h]

/-! ## Betweenness -/

namespace Betweenness

theorem search_congr (h : SameGraph p q) (n : ℕ) (s : Search) :
    search p n s = search q n s := by
  induction n generalizing s with
  | zero => rfl
  | succ n ih =>
    unfold search
    cases s.queue with
    | nil => rfl
    | cons current queue =>
      dsimp only
      rw [h.neighbours, ih]

theorem settle_add (source : String) (s : Search) (dependency held added : String → ℚ)
    (node : String) : settle source s ⟨dependency, held + added⟩ node =
      ⟨(settle source s ⟨dependency, added⟩ node).dependency,
        held + (settle source s ⟨dependency, added⟩ node).betweenness⟩ := by
  unfold settle
  dsimp only
  congr 1
  split_ifs with hsource
  · rfl
  · funext x
    by_cases hx : x = node
    · subst hx
      simp [add_assoc]
    · simp [hx]

theorem foldl_settle_add (source : String) (s : Search) (stack : List String)
    (dependency held added : String → ℚ) :
    (stack.foldl (settle source s) ⟨dependency, held + added⟩).betweenness =
      held + (stack.foldl (settle source s) ⟨dependency, added⟩).betweenness := by
  induction stack generalizing dependency added with
  | nil => rfl
  | cons node stack ih =>
    rw [foldl_cons, foldl_cons, settle_add, ih]

def contribution (p : Projection) (source : String) : String → ℚ := addSource p 0 source

theorem addSource_eq (p : Projection) (betweenness : String → ℚ) (source : String) :
    addSource p betweenness source = betweenness + contribution p source := by
  unfold contribution addSource
  rw [← foldl_settle_add, add_zero]

theorem addSource_congr (h : SameGraph p q) : addSource p = addSource q := by
  unfold addSource
  simp only [h.size, search_congr h]

end Betweenness

theorem betweenness_congr (h : SameGraph p q) {asked : Option ℤ}
    (hall : Betweenness.sampleSize p.size asked = p.size) (normalized : Bool) :
    betweennessCentrality p asked normalized = betweennessCentrality q asked normalized := by
  have hall' : Betweenness.sampleSize q.size asked = q.size := h.size ▸ hall
  have hsum : p.nodes.foldl (Betweenness.addSource p) (fun _ => 0) =
      q.nodes.foldl (Betweenness.addSource q) fun _ => 0 := by
    rw [Betweenness.addSource_congr h]
    refine h.perm.foldl_eq' (fun x _ y _ s => ?_) _
    simp only [Betweenness.addSource_eq]
    rw [add_right_comm]
  unfold betweennessCentrality Betweenness.sources
  dsimp only
  rw [if_pos hall, if_pos hall', hsum, hall, hall', h.size, h.edgeCount, h.perm.length_eq]
  simp only [h.scored]

/-! ## Rows in another order -/

section

variable {log1p : ℕ → ℚ} {isolatedNodes : List String} {rows rows' : List Row}

theorem sameGraph_of_perm (h : rows.Perm rows') :
    SameGraph (projectionFromRows log1p isolatedNodes rows)
      (projectionFromRows log1p isolatedNodes rows') where
  nodup := nodup_nodes ..
  perm := by
    refine (perm_ext_iff_of_nodup (nodup_nodes ..) (nodup_nodes ..)).mpr fun x => ?_
    rw [mem_nodes, mem_nodes, mem_append, mem_append, (h.flatMap_right _).mem_iff]
  adjacency := by
    funext x y
    rw [adjacency_projectionFromRows, adjacency_projectionFromRows, (h.map _).sum_eq]

theorem projection_eq_iff (h : rows.Perm rows') :
    projectionFromRows log1p isolatedNodes rows = projectionFromRows log1p isolatedNodes rows' ↔
      newIds log1p isolatedNodes rows = newIds log1p isolatedNodes rows' := by
  have hnodes := nodes_eq_append_newIds log1p isolatedNodes
  constructor
  · intro heq
    have := congrArg Projection.nodes heq
    rw [hnodes, hnodes] at this
    exact append_cancel_left this
  · intro heq
    have hgraph : SameGraph (projectionFromRows log1p isolatedNodes rows)
        (projectionFromRows log1p isolatedNodes rows') := sameGraph_of_perm h
    rw [Projection.mk.injEq]
    exact ⟨by rw [hnodes, hnodes, heq], hgraph.adjacency⟩

/-- No result depends on the order of the rows when both orders first name the new ids in the same
order; PageRank never does, and betweenness does not when it starts from every node. -/
theorem rows_in_any_order (h : rows.Perm rows') :
    (∀ damping maxIterations tolerance personalization,
      pagerank (projectionFromRows log1p isolatedNodes rows) damping maxIterations tolerance
          personalization =
        pagerank (projectionFromRows log1p isolatedNodes rows') damping maxIterations tolerance
          personalization) ∧
    (∀ asked normalized,
      Betweenness.sampleSize (isolatedNodes ++ rows.flatMap (Row.ends log1p)).dedup.length asked =
          (isolatedNodes ++ rows.flatMap (Row.ends log1p)).dedup.length →
        betweennessCentrality (projectionFromRows log1p isolatedNodes rows) asked normalized =
          betweennessCentrality (projectionFromRows log1p isolatedNodes rows') asked normalized) ∧
    (newIds log1p isolatedNodes rows = newIds log1p isolatedNodes rows' →
      (∀ hexdigest resolution minCommunitySize maxPasses,
        louvain hexdigest (projectionFromRows log1p isolatedNodes rows) resolution
            minCommunitySize maxPasses =
          louvain hexdigest (projectionFromRows log1p isolatedNodes rows') resolution
            minCommunitySize maxPasses) ∧
      (∀ hexdigest maxIterations minCommunitySize,
        labelPropagation hexdigest (projectionFromRows log1p isolatedNodes rows) maxIterations
            minCommunitySize =
          labelPropagation hexdigest (projectionFromRows log1p isolatedNodes rows') maxIterations
            minCommunitySize) ∧
      ∀ asked normalized,
        betweennessCentrality (projectionFromRows log1p isolatedNodes rows) asked normalized =
          betweennessCentrality (projectionFromRows log1p isolatedNodes rows') asked
            normalized) := by
  have hgraph : SameGraph (projectionFromRows log1p isolatedNodes rows)
      (projectionFromRows log1p isolatedNodes rows') := sameGraph_of_perm h
  refine ⟨fun _ _ _ _ => pagerank_congr hgraph .., fun asked normalized hall => ?_, fun hids => ?_⟩
  · rw [← size_projectionFromRows] at hall
    exact betweenness_congr hgraph hall normalized
  · rw [(projection_eq_iff h).mpr hids]
    exact ⟨fun _ _ _ _ => rfl, fun _ _ _ => rfl, fun _ _ => rfl⟩

end

/-- `math.log1p(1)` as a double. -/
def logOfTwo : ℚ := 6243314768165359 / 9007199254740992

def link (source target : String) : Row := ⟨some source, some target, none, none⟩

def path : List Row := [link "a" "b", link "b" "c", link "c" "d", link "d" "e"]

theorem triangle_in_two_orders :
    (louvain id (projectionFromRows (fun _ => logOfTwo) []
        [link "a" "b", link "b" "c", link "a" "c"]) 1 3 20 =
      louvain id (projectionFromRows (fun _ => logOfTwo) []
        [link "a" "b", link "a" "c", link "b" "c"]) 1 3 20) ∧
    betweennessCentrality (projectionFromRows (fun _ => logOfTwo) [] path) none true =
      betweennessCentrality (projectionFromRows (fun _ => logOfTwo) [] path.reverse) none true :=
  ⟨((rows_in_any_order (.cons _ (.swap ..))).2.2 (by decide +kernel)).1 _ _ _ _,
    (rows_in_any_order path.reverse_perm.symm).2.1 _ _ (by decide +kernel)⟩

/-- The same path gives the community of the end that it was read from. -/
theorem reversed_path_moves_community :
    ¬∀ rows rows' : List Row, rows.Perm rows' →
      (louvain id (projectionFromRows (fun _ => logOfTwo) [] rows) DEFAULT_RESOLUTION
          DEFAULT_MIN_COMMUNITY_SIZE MAX_PASSES).communities.map Community.members =
        (louvain id (projectionFromRows (fun _ => logOfTwo) [] rows') DEFAULT_RESOLUTION
          DEFAULT_MIN_COMMUNITY_SIZE MAX_PASSES).communities.map Community.members := by
  intro hall
  have hsame := hall path path.reverse path.reverse_perm.symm
  revert hsame
  decide +kernel

end OmniSense.Analytics
