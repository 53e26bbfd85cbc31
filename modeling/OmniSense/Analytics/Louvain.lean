import OmniSense.Analytics.Modularity
import OmniSense.Library.Sums

/-! What Louvain promises: a move is made only where the modularity rises, the communities and what
is left over partition the nodes, and no worse partition than the singletons is chosen. -/

namespace OmniSense.Analytics

open Library Finset Function

/-! ## Local moving -/

section

variable (level : Projection) (resolution : ℚ)

def Moving.start : Moving where
  communityOf := fun node => level.nodes.idxOf node
  sumTot := fun community => ((level.nodes[community]?).map level.weightedDegree).getD 0
  moved := false

/-- The states that the rounds of `_local_moving` go through. -/
inductive Visited : Moving → Prop
  | start : Visited (Moving.start level)
  | visit {s : Moving} {node : String} (hnode : node ∈ level.nodes) (hs : Visited s) :
    Visited (moveNode level resolution s node)
  | round {s : Moving} (moved : Bool) (hs : Visited s) : Visited { s with moved := moved }

variable (s : Moving)

/-- `sum_tot` holds the degree of each community. -/
def Moving.Sums : Prop :=
  ∀ community, s.sumTot community = ∑ x ∈ level.nodes.toFinset with s.communityOf x = community,
    Graph.degree level.nodes.toFinset level.adjacency x

variable (node : String)

/-- `sum_tot` while a node is out of its community. -/
def Moving.without : ℕ → ℚ :=
  Function.update s.sumTot (s.communityOf node)
    (s.sumTot (s.communityOf node) - level.weightedDegree node)

def Moving.gain (candidate : ℕ) : ℚ :=
  ((weightTo level s.communityOf node).get? candidate).getD 0 -
    resolution * level.weightedDegree node * s.without level node candidate / level.totalWeight

def Moving.best : ℕ × ℚ :=
  ((sortedBy Prod.fst (weightTo level s.communityOf node).items).map Prod.fst).foldl
    (fun best candidate =>
      if candidate = s.communityOf node then best
      else if s.gain level resolution node candidate > best.2 + MIN_MODULARITY_GAIN then
        (candidate, s.gain level resolution node candidate)
      else best) (s.communityOf node, s.gain level resolution node (s.communityOf node))

theorem moveNode_eq :
    moveNode level resolution s node =
      { communityOf := Function.update s.communityOf node (s.best level resolution node).1
        sumTot := Function.update (s.without level node) (s.best level resolution node).1
          (s.without level node (s.best level resolution node).1 + level.weightedDegree node)
        moved := s.moved || (s.best level resolution node).1 ≠ s.communityOf node } := by
  have hunfold : moveNode level resolution s node =
      if (s.best level resolution node).1 ≠ s.communityOf node then
        { communityOf := Function.update s.communityOf node (s.best level resolution node).1
          sumTot := Function.update (s.without level node) (s.best level resolution node).1
            (s.without level node (s.best level resolution node).1 + level.weightedDegree node)
          moved := true }
      else
        { s with
          sumTot := Function.update (s.without level node) (s.best level resolution node).1
            (s.without level node (s.best level resolution node).1 +
              level.weightedDegree node) } := rfl
  rw [hunfold]
  by_cases hmoved : (s.best level resolution node).1 = s.communityOf node
  · rw [if_neg (not_not.mpr hmoved)]
    simp [hmoved]
  · rw [if_pos hmoved]
    simp [hmoved]

variable {level resolution} {s : Moving} {node : String}

theorem best_gains : (s.best level resolution node).1 = s.communityOf node ∨
    s.gain level resolution node (s.communityOf node) <
      s.gain level resolution node (s.best level resolution node).1 := by
  have hfold : ∀ (candidates : List ℕ) (best : ℕ × ℚ),
      best.2 = s.gain level resolution node best.1 →
      (best.1 = s.communityOf node ∨ s.gain level resolution node (s.communityOf node) <
        s.gain level resolution node best.1) →
      let after := candidates.foldl (fun best candidate =>
        if candidate = s.communityOf node then best
        else if s.gain level resolution node candidate > best.2 + MIN_MODULARITY_GAIN then
          (candidate, s.gain level resolution node candidate)
        else best) best
      after.1 = s.communityOf node ∨ s.gain level resolution node (s.communityOf node) <
        s.gain level resolution node after.1 := by
    intro candidates
    induction candidates with
    | nil => exact fun best _ h => h
    | cons candidate candidates ih =>
      intro best hgain h
      rw [List.foldl_cons]
      split_ifs with hcurrent hbetter
      · exact ih best hgain h
      · refine ih _ rfl (Or.inr ?_)
        have hpositive : (0 : ℚ) < MIN_MODULARITY_GAIN := by decide +kernel
        rcases h with hbest | hbest
        · rw [hgain, hbest] at hbetter
          linarith
        · rw [hgain] at hbetter
          linarith
      · exact ih best hgain h
  exact hfold _ _ rfl (Or.inl rfl)

theorem start_sums (h : level.Simple) : (Moving.start level).Sums level := by
  intro community
  change ((level.nodes[community]?).map level.weightedDegree).getD 0 =
    ∑ x ∈ level.nodes.toFinset with level.nodes.idxOf x = community, _
  cases hnode : level.nodes[community]? with
  | none =>
    refine (sum_eq_zero fun x hx => ?_).symm
    obtain ⟨hmem, hindex⟩ := mem_filter.mp hx
    rw [← hindex, List.getElem?_idxOf (List.mem_toFinset.mp hmem)] at hnode
    cases hnode
  | some node =>
    have hsingle : (level.nodes.toFinset.filter fun x => level.nodes.idxOf x = community) =
        {node} := by
      ext x
      rw [mem_filter, List.mem_toFinset, mem_singleton]
      constructor
      · rintro ⟨hmem, rfl⟩
        rw [List.getElem?_idxOf hmem] at hnode
        exact Option.some.inj hnode
      · rintro rfl
        obtain ⟨hlt, heq⟩ := List.getElem?_eq_some_iff.mp hnode
        refine ⟨heq ▸ List.getElem_mem hlt, ?_⟩
        rw [← heq]
        exact h.nodup.idxOf_getElem _ hlt
    rw [hsingle, sum_singleton]
    exact PageRank.weightedDegree_eq h.nodup node

theorem without_eq (h : level.Simple) (hs : s.Sums level) (hnode : node ∈ level.nodes)
    (community : ℕ) : s.without level node community =
      ∑ x ∈ level.nodes.toFinset.erase node with s.communityOf x = community,
        Graph.degree level.nodes.toFinset level.adjacency x := by
  have hsplit : s.sumTot community = (if s.communityOf node = community then
        Graph.degree level.nodes.toFinset level.adjacency node else 0) +
      ∑ x ∈ level.nodes.toFinset.erase node with s.communityOf x = community,
        Graph.degree level.nodes.toFinset level.adjacency x := by
    rw [hs community, sum_filter, sum_filter]
    exact (add_sum_erase _ _ (List.mem_toFinset.mpr hnode)).symm
  have hdegree : level.weightedDegree node =
      Graph.degree level.nodes.toFinset level.adjacency node :=
    PageRank.weightedDegree_eq h.nodup node
  unfold Moving.without
  by_cases hown : community = s.communityOf node
  · subst hown
    rw [update_self, hsplit, if_pos rfl, hdegree, add_sub_cancel_left]
  · rw [update_of_ne hown, hsplit, if_neg (Ne.symm hown), zero_add]

theorem gain_eq (h : level.Simple) (hs : s.Sums level) (hnode : node ∈ level.nodes)
    (candidate : ℕ) :
    Graph.pull level.nodes.toFinset level.adjacency resolution s.communityOf node candidate =
      s.gain level resolution node candidate / level.totalWeight := by
  have hinto : ((weightTo level s.communityOf node).get? candidate).getD 0 =
      ∑ y ∈ level.nodes.toFinset with s.communityOf y = candidate, level.adjacency node y := by
    have hheld := held_bumps (level.neighbours node) (fun entry => s.communityOf entry.1) Prod.snd
      .empty candidate
    rw [PageRank.sum_neighbours h.nodup
      (fun n weight => if s.communityOf n = candidate then weight else 0) (fun n => ite_self 0)
      node, ← sum_filter] at hheld
    exact hheld.trans (zero_add _)
  rw [Graph.pull_eq (h.loopless node) (List.mem_toFinset.mpr hnode)]
  unfold Moving.gain
  rw [hinto, without_eq h hs hnode, totalWeight_eq h.nodup, PageRank.weightedDegree_eq h.nodup]
  rfl

theorem moveNode_sums (h : level.Simple) (hs : s.Sums level) (hnode : node ∈ level.nodes) :
    (moveNode level resolution s node).Sums level := by
  intro community
  rw [moveNode_eq]
  generalize (s.best level resolution node).1 = best
  have hrest : (∑ x ∈ level.nodes.toFinset.erase node with
        Function.update s.communityOf node best x = community,
          Graph.degree level.nodes.toFinset level.adjacency x) =
      ∑ x ∈ level.nodes.toFinset.erase node with s.communityOf x = community,
        Graph.degree level.nodes.toFinset level.adjacency x := by
    rw [filter_congr fun x hx => by rw [update_of_ne (ne_of_mem_erase hx)]]
  rw [sum_filter, ← add_sum_erase _ _ (List.mem_toFinset.mpr hnode), ← sum_filter, hrest,
    ← without_eq h hs hnode]
  simp only [update_self]
  by_cases hbest : community = best
  · subst hbest
    rw [update_self, if_pos rfl, add_comm, PageRank.weightedDegree_eq h.nodup]
    rfl
  · rw [update_of_ne hbest, if_neg (Ne.symm hbest), zero_add]

theorem visited_sums (h : level.Simple) (hs : Visited level resolution s) : s.Sums level := by
  induction hs with
  | start => exact start_sums h
  | visit hnode _ ih => exact moveNode_sums h ih hnode
  | round _ _ ih => exact ih

theorem moveNode_rises (h : level.Simple) (hweight : 0 < level.totalWeight) (hs : s.Sums level)
    (hnode : node ∈ level.nodes) :
    (moveNode level resolution s node).communityOf = s.communityOf ∨
      Graph.modularity level.nodes.toFinset level.adjacency resolution s.communityOf <
        Graph.modularity level.nodes.toFinset level.adjacency resolution
          (moveNode level resolution s node).communityOf := by
  rw [moveNode_eq]
  have hgains : (s.best level resolution node).1 = s.communityOf node ∨ _ := best_gains
  rcases hgains with hbest | hbest
  · left
    rw [hbest, update_eq_self]
  · right
    have hpull := div_lt_div_of_pos_right hbest hweight
    rw [← gain_eq h hs hnode, ← gain_eq h hs hnode] at hpull
    rw [Graph.modularity_move h.symm (List.mem_toFinset.mpr hnode)]
    linarith

/-! ## The rounds -/

theorem visited_foldl {nodes : List String} (hnodes : ∀ node ∈ nodes, node ∈ level.nodes)
    (hs : Visited level resolution s) :
    Visited level resolution (nodes.foldl (moveNode level resolution) s) := by
  induction nodes generalizing s with
  | nil => exact hs
  | cons node nodes ih =>
    exact ih (fun n hn => hnodes n (List.mem_cons_of_mem _ hn))
      (.visit (hnodes node (List.mem_cons_self ..)) hs)

theorem visited_moveRounds (rounds : ℕ) (hs : Visited level resolution s) :
    ∃ last, Visited level resolution last ∧
      (moveRounds level resolution rounds s).2 = last.communityOf := by
  induction rounds generalizing s with
  | zero => exact ⟨s, hs, rfl⟩
  | succ rounds ih =>
    have hround : Visited level resolution
        (level.nodes.foldl (moveNode level resolution) { s with moved := false }) :=
      visited_foldl (fun _ hn => hn) (.round false hs)
    unfold moveRounds
    dsimp only
    split_ifs
    · exact ih (.round _ hround)
    · exact ⟨_, hround, rfl⟩

theorem visited_localMoving (hweight : 0 < level.totalWeight) :
    ∃ last, Visited level resolution last ∧
      (localMoving level resolution).2 = last.communityOf := by
  unfold localMoving
  rw [if_neg (not_le.mpr hweight)]
  exact visited_moveRounds MAX_PASSES .start

end

/-! ## The levels -/

theorem collapseEdge_simple {communityOf : String → ℕ} {s : Collapse} (h : s.aggregated.Simple)
    (node : String) (entry : String × ℚ) :
    (collapseEdge communityOf node s entry).aggregated.Simple := by
  unfold collapseEdge
  dsimp only
  split_ifs <;> first | exact h | exact h.addEdge ..

theorem aggregate_simple (level : Projection) (communityOf : String → ℕ) :
    (aggregate level communityOf).Simple := by
  have hentries : ∀ (node : String) (entries : List (String × ℚ)) (s : Collapse),
      s.aggregated.Simple →
        (entries.foldl (collapseEdge communityOf node) s).aggregated.Simple := by
    intro node entries
    induction entries with
    | nil => exact fun s h => h
    | cons entry entries ih => exact fun s h => ih _ (collapseEdge_simple h node entry)
  have hnodes : ∀ (nodes : List String) (s : Collapse), s.aggregated.Simple →
      (nodes.foldl (fun s node => (level.neighbours node).foldl (collapseEdge communityOf node) s)
        s).aggregated.Simple := by
    intro nodes
    induction nodes with
    | nil => exact fun s h => h
    | cons node nodes ih => exact fun s h => ih _ (hentries node _ s h)
  exact hnodes _ _ (.ofNodes _)

/-- The graphs that `_local_moving` is run on. -/
inductive Level (p : Projection) (resolution : ℚ) : Projection → Prop
  | original : Level p resolution p
  | aggregated {level : Projection} (hlevel : Level p resolution level) :
    Level p resolution (aggregate level (localMoving level resolution).2)

theorem level_simple {p level : Projection} {resolution : ℚ} (h : p.Simple)
    (hlevel : Level p resolution level) : level.Simple := by
  cases hlevel with
  | original => exact h
  | aggregated => exact aggregate_simple ..

/-! ## The passes -/

def Louvain.start (p : Projection) (resolution : ℚ) : Louvain where
  placement := id
  level := p
  membership := fun node => p.nodes.idxOf node
  score := modularity p toString (fun node => some (p.nodes.idxOf node)) resolution
  passes := 0

def chosenMembership (p : Projection) (resolution : ℚ) (maxPasses : ℤ) : String → ℕ :=
  (louvainPasses p resolution maxPasses.toNat 1 (.start p resolution)).membership

section

variable {p : Projection} {resolution : ℚ}

def Louvain.Scored (p : Projection) (resolution : ℚ) (s : Louvain) : Prop :=
  s.score = modularity p toString (fun node => some (s.membership node)) resolution

theorem offer_scored {s : Louvain} (h : s.Scored p resolution) (candidate : String → ℕ)
    (passIndex : ℕ) :
    let offered := s.offer candidate
      (modularity p toString (fun node => some (candidate node)) resolution) passIndex
    offered.Scored p resolution ∧ s.score ≤ offered.score := by
  have hpositive : (0 : ℚ) < MIN_MODULARITY_GAIN := by decide +kernel
  unfold Louvain.offer
  split_ifs with hbetter
  · refine ⟨rfl, ?_⟩
    linarith
  · exact ⟨h, le_rfl⟩

theorem louvainPasses_scored (remaining passIndex : ℕ) {s : Louvain} (h : s.Scored p resolution) :
    (louvainPasses p resolution remaining passIndex s).Scored p resolution ∧
      s.score ≤ (louvainPasses p resolution remaining passIndex s).score := by
  induction remaining generalizing passIndex s with
  | zero => exact ⟨h, le_rfl⟩
  | succ remaining ih =>
    have hoffer := offer_scored (s := { s with
      placement := fun node => toString ((localMoving s.level resolution).2 (s.placement node)) })
      h (indexMembership
        (fun node => toString ((localMoving s.level resolution).2 (s.placement node))) p.nodes)
      passIndex
    unfold louvainPasses
    dsimp only at hoffer ⊢
    split_ifs
    · obtain ⟨hscored, hle⟩ := ih (passIndex + 1) (s := { Louvain.offer _ _ _ _ with
        level := aggregate _ _ }) hoffer.1
      exact ⟨hscored, hoffer.2.trans hle⟩
    · exact hoffer

theorem singletons_le_chosen (maxPasses : ℤ) :
    modularity p toString (fun node => some (p.nodes.idxOf node)) resolution ≤
      modularity p toString (fun node => some (chosenMembership p resolution maxPasses node))
        resolution := by
  have hstart : (Louvain.start p resolution).Scored p resolution := rfl
  obtain ⟨hscored, hle⟩ := louvainPasses_scored maxPasses.toNat 1 hstart
  exact hle.trans_eq hscored

/-! ## The communities -/

theorem grouped_perm (membership : String → ℕ) (nodes : List String) :
    (grouped membership nodes).flatten.Perm nodes := by
  have hgroups : nodes.foldl (fun groups node =>
        groups.alter (membership node) fun held => held.getD [] ++ [node]) Dict.empty =
      groupInto membership (fun node => [node]) (· ++ ·) nodes := by
    congr 1
    funext groups node
    congr 1
    funext held
    cases held <;> rfl
  have hflatten : (groupInto membership (fun node => [node]) (· ++ ·) nodes).values.flatten.Perm
      (nodes.flatMap fun node => [node]) := groupInto_perm _ nodes
  unfold grouped
  rw [hgroups]
  refine ((((sortedBy_perm _ _).map Prod.snd).flatten).trans hflatten).trans ?_
  rw [List.flatMap_singleton']

theorem flatMap_members (hexdigest : String → String) (p : Projection)
    (groups : List (List String)) :
    ((groups.map (measure hexdigest p)).flatMap Community.members).Perm groups.flatten := by
  induction groups with
  | nil => exact .refl _
  | cons members groups ih => exact (sorted_perm members).append ih

theorem finalize_perm (hexdigest : String → String) (membership : String → ℕ)
    (minCommunitySize : ℤ) (passes : ℕ) :
    let result := finalize hexdigest p membership resolution minCommunitySize passes
    (result.communities.flatMap Community.members ++ result.unassigned).Perm p.nodes := by
  have hsplit : (((grouped membership p.nodes).filter fun members =>
        minCommunitySize ≤ members.length) ++ ((grouped membership p.nodes).filter fun members =>
          (members.length : ℤ) < minCommunitySize)).Perm (grouped membership p.nodes) := by
    have hnot : (fun members : List String => decide ((members.length : ℤ) < minCommunitySize)) =
        fun members => !decide (minCommunitySize ≤ members.length) := by
      funext members
      rw [Bool.eq_iff_iff]
      simp
    rw [hnot]
    exact List.filter_append_perm ..
  refine ((flatMap_members ..).append (sorted_perm _)).trans ?_
  rw [← List.flatten_append]
  exact hsplit.flatten.trans (grouped_perm ..)

def Projection.inside (p : Projection) (members : List String) : ℚ :=
  pairSum (fun x y => if x ∈ members ∧ y ∈ members then p.adjacency x y else 0) p.nodes

def Projection.crossing (p : Projection) (members : List String) : ℚ :=
  pairSum (fun x y => if (x ∈ members) ≠ (y ∈ members) then p.adjacency x y else 0) p.nodes

theorem sum_selected (entries : List (String × ℚ)) (selected : String → Bool) :
    ((entries.filter fun entry => selected entry.1).map Prod.snd).sum =
      (entries.map fun entry => if selected entry.1 = true then entry.2 else 0).sum := by
  induction entries with
  | nil => rfl
  | cons entry entries ih =>
    rw [List.map_cons, List.sum_cons, ← ih, List.filter_cons]
    split_ifs
    · rw [List.map_cons, List.sum_cons]
    · rw [zero_add]

theorem sum_halfEdges (h : p.Undirected) {members : List String} (hnodup : members.Nodup)
    (hsub : ∀ x ∈ members, x ∈ p.nodes) (selected : String → Bool) :
    (((members.flatMap p.neighbours).filter fun entry => selected entry.1).map Prod.snd).sum =
      crossSum (fun x y => if x ∈ members ∧ selected y = true then p.adjacency x y else 0)
        p.nodes p.nodes := by
  have hrows : ∀ l : List String,
      (((l.flatMap p.neighbours).filter fun entry => selected entry.1).map Prod.snd).sum =
        (l.map fun x => (p.nodes.map fun y =>
          if selected y = true then p.adjacency x y else 0).sum).sum := by
    intro l
    induction l with
    | nil => rfl
    | cons x l ih =>
      rw [List.flatMap_cons, List.filter_append, List.map_append, List.sum_append, ih, List.map_cons,
        List.sum_cons, sum_selected, PageRank.sum_neighbours h.nodup
          (fun n weight => if selected n = true then weight else 0) (fun n => ite_self 0) x,
        PageRank.sum_nodes h.nodup]
  have hmembers : members.toFinset = p.nodes.toFinset.filter fun x => x ∈ members := by
    ext x
    rw [List.mem_toFinset, mem_filter, List.mem_toFinset]
    exact ⟨fun hx => ⟨hsub x hx, hx⟩, fun hx => hx.2⟩
  unfold crossSum
  rw [hrows, ← List.sum_toFinset _ hnodup, hmembers, sum_filter, PageRank.sum_nodes h.nodup]
  refine sum_congr rfl fun x _ => ?_
  by_cases hx : x ∈ members
  · simp only [hx, true_and, if_true]
  · simp only [hx, false_and, if_false, List.map_const', List.sum_replicate, smul_zero]

theorem measure_weights (h : p.Simple) (hexdigest : String → String) {members : List String}
    (hnodup : members.Nodup) (hsub : ∀ x ∈ members, x ∈ p.nodes) :
    (measure hexdigest p members).internalWeight = p.inside members ∧
      (measure hexdigest p members).externalWeight = p.crossing members := by
  constructor
  · have hinside := sum_halfEdges h.toUndirected hnodup hsub fun y => decide (y ∈ members)
    have hdouble : pairSum (fun x y =>
        (if x ∈ members ∧ decide (y ∈ members) = true then p.adjacency x y else 0) +
          if y ∈ members ∧ decide (x ∈ members) = true then p.adjacency y x else 0) p.nodes =
        2 * p.inside members := by
      unfold Projection.inside pairSum
      rw [← List.sum_map_mul_left]
      congr 2
      funext pair
      dsimp only
      rw [h.symm pair.2 pair.1]
      simp only [decide_eq_true_eq, and_comm (a := pair.2 ∈ members)]
      ring
    change (((members.flatMap p.neighbours).filter fun entry => decide (entry.1 ∈ members)).map
      Prod.snd).sum / 2 = _
    rw [hinside, crossSum_self fun x => by rw [h.loopless, ite_self], hdouble,
      mul_div_cancel_left₀ _ (two_ne_zero)]
  · have hcrossing := sum_halfEdges h.toUndirected hnodup hsub fun y => decide (y ∉ members)
    change (((members.flatMap p.neighbours).filter fun entry => decide (entry.1 ∉ members)).map
      Prod.snd).sum = _
    rw [hcrossing, crossSum_self fun x => by rw [h.loopless, ite_self]]
    congr 1
    funext x y
    rw [h.symm y x]
    by_cases hx : x ∈ members <;> by_cases hy : y ∈ members <;> simp [hx, hy]

theorem finalize_communities (h : p.Simple) (hexdigest : String → String)
    (membership : String → ℕ) (minCommunitySize : ℤ) (passes : ℕ) :
    ∀ c ∈ (finalize hexdigest p membership resolution minCommunitySize passes).communities,
      minCommunitySize ≤ c.members.length ∧ c.internalWeight = p.inside c.members ∧
        c.externalWeight = p.crossing c.members := by
  intro c hc
  obtain ⟨members, hmembers, rfl⟩ := List.mem_map.mp hc
  obtain ⟨hgroup, hsize⟩ := List.mem_filter.mp hmembers
  have hperm := grouped_perm membership p.nodes
  have hsub : members.Sublist (grouped membership p.nodes).flatten :=
    List.sublist_flatten_of_mem hgroup
  have hnodup : members.Nodup := (hperm.nodup_iff.mpr h.nodup).sublist hsub
  obtain ⟨hinside, hcrossing⟩ := measure_weights h hexdigest hnodup fun x hx =>
    hperm.mem_iff.mp (hsub.subset hx)
  have hsorted : ∀ x, x ∈ sorted members ↔ x ∈ members := fun x => mem_sorted
  refine ⟨?_, ?_, ?_⟩
  · change minCommunitySize ≤ ((sorted members).length : ℤ)
    rw [(sorted_perm members).length_eq]
    exact of_decide_eq_true hsize
  · change (measure hexdigest p members).internalWeight = p.inside (sorted members)
    unfold Projection.inside
    simp only [hsorted]
    exact hinside
  · change (measure hexdigest p members).externalWeight = p.crossing (sorted members)
    unfold Projection.crossing
    simp only [hsorted]
    exact hcrossing

end

/-- Louvain only improves. -/
theorem louvain_improves {p : Projection} (h : p.Simple) (hexdigest : String → String)
    (resolution : ℚ) (minCommunitySize maxPasses : ℤ) :
    (∀ level, Level p resolution level → 0 < level.totalWeight →
      (∃ last, Visited level resolution last ∧
        (localMoving level resolution).2 = last.communityOf) ∧
      ∀ s, Visited level resolution s → ∀ node ∈ level.nodes,
        (moveNode level resolution s node).communityOf ≠ s.communityOf →
          modularity level toString (fun n => some (s.communityOf n)) resolution <
            modularity level toString
              (fun n => some ((moveNode level resolution s node).communityOf n)) resolution) ∧
    let result := louvain hexdigest p resolution minCommunitySize maxPasses
    (result.communities.flatMap Community.members ++ result.unassigned).Perm p.nodes ∧
    (∀ c ∈ result.communities, minCommunitySize ≤ c.members.length ∧
      c.internalWeight = p.inside c.members ∧ c.externalWeight = p.crossing c.members) ∧
    (p.size ≠ 0 → 0 < p.totalWeight → ∃ passes,
      result = finalize hexdigest p (chosenMembership p resolution maxPasses) resolution
        minCommunitySize passes) ∧
    modularity p toString (fun node => some (p.nodes.idxOf node)) resolution ≤
      modularity p toString (fun node => some (chosenMembership p resolution maxPasses node))
        resolution := by
  refine ⟨fun level hlevel hweight => ⟨visited_localMoving hweight, ?_⟩, ?_, ?_, ?_, ?_⟩
  · intro s hs node hnode hmoved
    have hsimple := level_simple h hlevel
    rw [modularity_eq hsimple.toUndirected, modularity_eq hsimple.toUndirected]
    exact (moveNode_rises hsimple hweight (visited_sums hsimple hs) hnode).resolve_left hmoved
  · unfold louvain
    split_ifs with hsize hweight
    · rw [List.length_eq_zero_iff.mp hsize]
      exact .refl _
    · exact .refl _
    · exact finalize_perm ..
  · unfold louvain
    split_ifs with hsize hweight
    · exact fun c hc => absurd hc List.not_mem_nil
    · exact fun c hc => absurd hc List.not_mem_nil
    · exact finalize_communities h hexdigest _ minCommunitySize _
  · intro hsize hweight
    unfold louvain
    rw [if_neg hsize, if_neg (not_le.mpr hweight)]
    exact ⟨_, rfl⟩
  · exact singletons_le_chosen maxPasses

def triangle : Projection := .build [] [("a", "b", 1), ("b", "c", 1), ("a", "c", 1)]

theorem louvain_improves_triangle :
    ((louvain id triangle 1 3 20).communities.flatMap Community.members ++
      (louvain id triangle 1 3 20).unassigned).Perm ["a", "b", "c"] :=
  (louvain_improves (Projection.Simple.build [] [("a", "b", 1), ("b", "c", 1), ("a", "c", 1)]) id 1
    3 20).2.1

end OmniSense.Analytics
