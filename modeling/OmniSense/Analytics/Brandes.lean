import OmniSense.Analytics.RowOrder
import OmniSense.Library.ShortestPaths

/-! Betweenness from every source is the betweenness of the graph: the breadth-first search finds
the distances and counts the shortest paths, and the stack gathers from the far end. -/

namespace OmniSense.Analytics

open Library List Function Betweenness

def Projection.graph (p : Projection) : SimpleGraph String :=
  .fromRel fun x y => x ∈ p.nodes ∧ y ∈ p.nodes ∧ p.adjacency x y ≠ 0

namespace Projection.Undirected

variable {p : Projection} (hp : p.Undirected) {x y : String}

include hp

theorem adj_iff :
    p.graph.Adj x y ↔ x ≠ y ∧ x ∈ p.nodes ∧ y ∈ p.nodes ∧ p.adjacency x y ≠ 0 := by
  unfold Projection.graph
  rw [SimpleGraph.fromRel_adj, hp.symm y x]
  tauto

theorem within : Within p.graph p.nodes.toFinset := fun _ _ h =>
  mem_toFinset.mpr (hp.adj_iff.mp h).2.2.1

theorem nodup_neighbours (node : String) : ((p.neighbours node).map Prod.fst).Nodup := by
  unfold Projection.neighbours
  rw [map_map]
  change (List.map id _).Nodup
  rw [map_id]
  exact ((sortedBy_perm id p.nodes).nodup_iff.mpr hp.nodup).filter _

omit hp in
theorem mem_neighbours : y ∈ (p.neighbours x).map Prod.fst ↔ y ∈ p.nodes ∧ p.adjacency x y ≠ 0 := by
  unfold Projection.neighbours
  rw [map_map]
  change y ∈ List.map id _ ↔ _
  rw [map_id, mem_filter, (sortedBy_perm id p.nodes).mem_iff, decide_eq_true_iff]

end Projection.Undirected

namespace Betweenness

/-! ## One node of the queue -/

/-- `x` has not been seen before, or is as far as the neighbours of `current` are. -/
def Reached (current : String) (s : Search) (x : String) : Prop :=
  s.distance x < 0 ∨ s.distance x = s.distance current + 1

instance (current : String) (s : Search) : DecidablePred (Reached current s) := fun _ =>
  inferInstanceAs (Decidable (_ ∨ _))

/-- What the search is after the neighbours of `current`. -/
def visited (current : String) (neighbours : List String) (s : Search) : Search where
  stack := s.stack
  predecessors := fun x => s.predecessors x ++
    if x ∈ neighbours ∧ Reached current s x then [current] else []
  pathCount := fun x => s.pathCount x +
    if x ∈ neighbours ∧ Reached current s x then s.pathCount current else 0
  distance := fun x =>
    if x ∈ neighbours ∧ s.distance x < 0 then s.distance current + 1 else s.distance x
  queue := s.queue ++ neighbours.filter fun x => s.distance x < 0

variable {s : Search} {current : String} {source : String} {p : Projection}

theorem not_reached_self (h : 0 ≤ s.distance current) : ¬Reached current s current := by
  unfold Reached
  omega

theorem visit_eq (h : 0 ≤ s.distance current) (x : String) :
    visit current s x = visited current [x] s := by
  unfold visit discover visited Reached
  simp only [mem_singleton]
  by_cases hnew : s.distance x < 0
  · have hne : current ≠ x := by
      rintro rfl
      omega
    simp only [hnew, if_true, update_self, update_of_ne hne]
    rw [Search.mk.injEq]
    refine ⟨rfl, funext fun y => ?_, funext fun y => ?_, funext fun y => ?_, ?_⟩
    · by_cases hy : y = x <;> simp [hy, hnew]
    · by_cases hy : y = x <;> simp [hy, hnew]
    · by_cases hy : y = x <;> simp [hy, hnew]
    · simp [hnew]
  · have hnone : ∀ y, ¬(y = x ∧ s.distance y < 0) := by
      rintro y ⟨rfl, hy⟩
      exact hnew hy
    rw [if_neg hnew]
    simp only [hnone, if_false]
    by_cases hreached : s.distance x = s.distance current + 1
    · rw [if_pos hreached, Search.mk.injEq]
      refine ⟨rfl, funext fun y => ?_, funext fun y => ?_, rfl, ?_⟩
      · by_cases hy : y = x <;> simp [hy, hreached]
      · by_cases hy : y = x <;> simp [hy, hreached]
      · simp [hnew]
    · have hall : ∀ y, ¬(y = x ∧ (s.distance y < 0 ∨ s.distance y = s.distance current + 1)) := by
        rintro y ⟨rfl, hy⟩
        exact hy.elim hnew hreached
      simp [hreached, hall, hnew]

theorem foldl_visit (h : 0 ≤ s.distance current)
    {neighbours : List String} (hnodup : neighbours.Nodup) :
    neighbours.foldl (visit current) s = visited current neighbours s := by
  induction neighbours using List.reverseRecOn with
  | nil => simp [visited]
  | append_singleton neighbours x ih =>
    obtain ⟨hneighbours, -, hfresh⟩ := nodup_append.mp hnodup
    have hnotin : x ∉ neighbours := fun hx => hfresh x hx x (mem_singleton_self x) rfl
    rw [foldl_append, ih hneighbours, foldl_cons, foldl_nil]
    obtain ⟨t, ht⟩ : ∃ t, t = visited current neighbours s := ⟨_, rfl⟩
    have hdistance : ∀ y, t.distance y =
        if y ∈ neighbours ∧ s.distance y < 0 then s.distance current + 1 else s.distance y :=
      fun y => by rw [ht]; rfl
    have hcurrent : t.distance current = s.distance current := by
      rw [hdistance, if_neg fun hnew => absurd hnew.2 (not_lt.mpr h)]
    have hx : t.distance x = s.distance x := by
      rw [hdistance, if_neg fun hmem => hnotin hmem.1]
    have hpaths : t.pathCount current = s.pathCount current := by
      rw [ht]
      dsimp only [visited]
      rw [if_neg fun hmem => not_reached_self h hmem.2, add_zero]
    have hreached : Reached current t x ↔ Reached current s x := by
      unfold Reached
      rw [hcurrent, hx]
    have hmem : ∀ y, y ∈ neighbours ++ [x] ↔ y ∈ neighbours ∨ y = x := fun y => by
      rw [mem_append, mem_singleton]
    rw [← ht, visit_eq (hcurrent ▸ h), visited, visited, Search.mk.injEq]
    simp only [hpaths, hcurrent, hmem, mem_singleton]
    refine ⟨?_, funext fun y => ?_, funext fun y => ?_, funext fun y => ?_, ?_⟩
    · rw [ht, visited]
    · by_cases hy : y = x
      · rw [hy]
        simp only [hreached, hnotin, true_and, false_or]
        simp [ht, visited, hnotin]
      · simp [hy, ht, visited]
    · by_cases hy : y = x
      · rw [hy]
        simp only [hreached, hnotin, true_and, false_or]
        simp [ht, visited, hnotin]
      · simp [hy, ht, visited]
    · by_cases hy : y = x
      · rw [hy]
        simp [hx]
      · simp [hy, hdistance]
    · rw [filter_append, ← append_assoc]
      simp only [filter_singleton, hx]
      rw [ht, visited]

/-! ## The search -/

open Classical

/-- `x` is one step farther than its neighbour `u`. -/
def Next (p : Projection) (s : Search) (u x : String) : Prop :=
  p.graph.Adj u x ∧ s.distance x = s.distance u + 1

structure Explored (p : Projection) (source : String) (s : Search) : Prop where
  found : Found p s
  start : s.distance source = 0
  seen : ∀ x, 0 ≤ s.distance x → x ∈ s.stack ++ s.queue
  sorted : (s.stack ++ s.queue).Pairwise fun x y => s.distance x ≤ s.distance y
  width : ∀ x ∈ s.queue, ∀ y ∈ s.stack ++ s.queue, s.distance y ≤ s.distance x + 1
  closed : ∀ u ∈ s.stack, ∀ x, p.graph.Adj u x →
    0 ≤ s.distance x ∧ s.distance x ≤ s.distance u + 1
  origin : ∀ x, 0 ≤ s.distance x → x ≠ source → ∃ u ∈ s.stack, Next p s u x
  predecessors : ∀ x, s.predecessors x = s.stack.filter fun u => Next p s u x
  counted : ∀ x, s.pathCount x =
    (if x = source then 1 else 0) + ((s.predecessors x).map s.pathCount).sum

theorem explored_start (h : source ∈ p.nodes) : Explored p source (start source) := by
  have honly : ∀ x, 0 ≤ (start source).distance x → x = source := by
    intro x hx
    by_contra hne
    simp [start, hne] at hx
  refine ⟨⟨nodup_singleton source, fun x hx => ?_⟩, ?_, fun x hx => ?_,
    pairwise_singleton .., ?_, fun u hu => absurd hu not_mem_nil, ?_, fun x => rfl, ?_⟩
  · rw [mem_singleton.mp hx]
    exact ⟨h, by simp [start]⟩
  · simp [start]
  · rw [honly x hx]
    exact mem_singleton_self source
  · intro x hx y hy
    rw [mem_singleton.mp hx, mem_singleton.mp hy]
    omega
  · intro x hx hne
    exact absurd (honly x hx) hne
  · intro x
    simp [start, update_apply]

def pop (p : Projection) (current : String) (queue : List String) (s : Search) : Search :=
  visited current ((p.neighbours current).map Prod.fst)
    { s with queue := queue, stack := s.stack ++ [current] }

namespace Explored

variable {p : Projection} {source current x : String} {s : Search} {queue : List String}

theorem distance_pop_old (h : 0 ≤ s.distance x) :
    (pop p current queue s).distance x = s.distance x :=
  if_neg fun hnew => absurd hnew.2 (not_lt.mpr h)

theorem distance_pop_new (hx : x ∈ (p.neighbours current).map Prod.fst) (h : s.distance x < 0) :
    (pop p current queue s).distance x = s.distance current + 1 := if_pos ⟨hx, h⟩

theorem distance_pop_far (hx : x ∉ (p.neighbours current).map Prod.fst) :
    (pop p current queue s).distance x = s.distance x := if_neg fun hnew => hx hnew.1

variable (hp : p.Undirected) (h : Explored p source s) (hqueue : s.queue = current :: queue)

include h

theorem next_old {u : String} (hu : u ∈ s.stack) :
    Next p (pop p current queue s) u x ↔ Next p s u x := by
  refine and_congr_right fun hadj => ?_
  rw [distance_pop_old (h.closed u hu x hadj).1,
    distance_pop_old (h.found.known u (mem_append_left _ hu)).2]

include hqueue

theorem known_current : current ∈ p.nodes ∧ 0 ≤ s.distance current := by
  refine h.found.known current ?_
  rw [hqueue]
  exact mem_append_right _ mem_cons_self

theorem le_current {u : String} (hu : u ∈ s.stack) : s.distance u ≤ s.distance current := by
  have hsorted := h.sorted
  rw [hqueue] at hsorted
  exact (pairwise_append.mp hsorted).2.2 u hu current mem_cons_self

theorem le_next {y : String} (hy : y ∈ s.stack ++ s.queue) :
    s.distance y ≤ s.distance current + 1 := by
  refine h.width current ?_ y hy
  rw [hqueue]
  exact mem_cons_self

omit h in
theorem order_pop : (pop p current queue s).stack ++ (pop p current queue s).queue =
    s.stack ++ s.queue ++ ((p.neighbours current).map Prod.fst).filter (s.distance · < 0) := by
  rw [hqueue]
  simp [pop, visited]

include hp

theorem adj_current : p.graph.Adj current x ↔
    current ≠ x ∧ x ∈ (p.neighbours current).map Prod.fst := by
  rw [hp.adj_iff, Projection.Undirected.mem_neighbours]
  have hnode := (h.known_current hqueue).1
  tauto

theorem next_current : Next p (pop p current queue s) current x ↔
    x ∈ (p.neighbours current).map Prod.fst ∧ Reached current s x := by
  have hcurrent := (h.known_current hqueue).2
  unfold Next Reached
  rw [h.adj_current hp hqueue, distance_pop_old hcurrent]
  constructor
  · rintro ⟨⟨-, hx⟩, hdistance⟩
    refine ⟨hx, (lt_or_ge (s.distance x) 0).imp_right fun hseen => ?_⟩
    rwa [distance_pop_old hseen] at hdistance
  · rintro ⟨hx, hreached⟩
    have hne : current ≠ x := by
      rintro rfl
      exact not_reached_self hcurrent hreached
    refine ⟨⟨hne, hx⟩, ?_⟩
    rcases lt_or_ge (s.distance x) 0 with hnew | hseen
    · exact distance_pop_new hx hnew
    · rw [distance_pop_old hseen]
      exact hreached.resolve_left (not_lt.mpr hseen)

theorem foldl_pop : ((p.neighbours current).map Prod.fst).foldl (visit current)
    { s with queue := queue, stack := s.stack ++ [current] } = pop p current queue s :=
  foldl_visit (s := { s with queue := queue, stack := s.stack ++ [current] })
    (h.known_current hqueue).2 (hp.nodup_neighbours current)

theorem found_pop : Found p (Betweenness.pop p current queue s) := by
  have hsame : s.stack ++ s.queue = s.stack ++ [current] ++ queue := by
    rw [hqueue, append_assoc, singleton_append]
  have hpopped : Found p { s with queue := queue, stack := s.stack ++ [current] } :=
    ⟨hsame ▸ h.found.nodup, hsame ▸ h.found.known⟩
  have hnodes : ∀ x ∈ (p.neighbours current).map Prod.fst, x ∈ p.nodes := fun x hx =>
    (Projection.Undirected.mem_neighbours.mp hx).1
  have hfound := (found_foldl_visit hnodes hpopped
    (mem_append_right _ (mem_singleton_self current))).1
  rwa [h.foldl_pop hp hqueue] at hfound

omit hp in
theorem sorted_pop : ((Betweenness.pop p current queue s).stack ++
    (Betweenness.pop p current queue s).queue).Pairwise fun x y =>
      (Betweenness.pop p current queue s).distance x ≤
        (Betweenness.pop p current queue s).distance y := by
  have hnew : ∀ x ∈ ((p.neighbours current).map Prod.fst).filter (s.distance · < 0),
      (Betweenness.pop p current queue s).distance x = s.distance current + 1 := by
    intro x hx
    obtain ⟨hmem, hneg⟩ := mem_filter.mp hx
    exact distance_pop_new hmem (of_decide_eq_true hneg)
  have hold : ∀ x ∈ s.stack ++ s.queue,
      (Betweenness.pop p current queue s).distance x = s.distance x :=
    fun x hx => distance_pop_old (h.found.known x hx).2
  rw [order_pop hqueue]
  refine pairwise_append.mpr ⟨h.sorted.imp_of_mem fun hx hy hle => ?_,
    pairwise_of_forall_mem_list fun x hx y hy => ?_, fun x hx y hy => ?_⟩
  · rwa [hold _ hx, hold _ hy]
  · rw [hnew x hx, hnew y hy]
  · rw [hold x hx, hnew y hy]
    exact h.le_next hqueue hx

theorem predecessors_pop (x : String) : (pop p current queue s).predecessors x =
    s.predecessors x ++ if Next p (pop p current queue s) current x then [current] else [] :=
  congrArg _ (if_congr (h.next_current hp hqueue).symm rfl rfl)

theorem pathCount_pop (x : String) : (pop p current queue s).pathCount x = s.pathCount x +
    if Next p (pop p current queue s) current x then s.pathCount current else 0 :=
  congrArg _ (if_congr (h.next_current hp hqueue).symm rfl rfl)

theorem pop : Explored p source (Betweenness.pop p current queue s) := by
  obtain ⟨hnode, hcurrent⟩ := h.known_current hqueue
  have horder := order_pop (p := p) hqueue
  -- What is seen after the pop was seen before, or is a neighbour.
  have hseen : ∀ x, 0 ≤ (Betweenness.pop p current queue s).distance x → 0 ≤ s.distance x ∨
      x ∈ (p.neighbours current).map Prod.fst ∧ s.distance x < 0 := by
    intro x hx
    refine (le_or_gt 0 (s.distance x)).imp_right fun hneg => ⟨?_, hneg⟩
    by_contra hfar
    rw [distance_pop_far hfar] at hx
    omega
  have hbound : ∀ x, 0 ≤ (Betweenness.pop p current queue s).distance x →
      (Betweenness.pop p current queue s).distance x ≤ s.distance current + 1 := by
    intro x hx
    rcases hseen x hx with hold | ⟨hmem, hneg⟩
    · rw [distance_pop_old hold]
      exact h.le_next hqueue (h.seen x hold)
    · exact (distance_pop_new hmem hneg).le
  refine ⟨h.found_pop hp hqueue, ?_, fun x hx => ?_, h.sorted_pop hqueue, fun x hx y hy => ?_,
    fun u hu x hadj => ?_, fun x hx hne => ?_, fun x => ?_, fun x => ?_⟩
  · rw [distance_pop_old h.start.ge, h.start]
  · rw [horder]
    rcases hseen x hx with hold | ⟨hmem, hneg⟩
    · exact mem_append_left _ (h.seen x hold)
    · exact mem_append_right _ (mem_filter.mpr ⟨hmem, decide_eq_true hneg⟩)
  · have hlast := hbound y ((h.found_pop hp hqueue).known y hy).2
    have hfirst : s.distance current ≤ (Betweenness.pop p current queue s).distance x := by
      have hsame : (Betweenness.pop p current queue s).distance current = s.distance current :=
        distance_pop_old hcurrent
      rw [← hsame]
      refine (pairwise_append.mp (h.sorted_pop hqueue)).2.2 current ?_ x hx
      exact mem_append_right _ (mem_singleton_self current)
    omega
  · rcases mem_append.mp hu with hu | hu
    · have hclosed := h.closed u hu x hadj
      rw [distance_pop_old hclosed.1,
        distance_pop_old (h.found.known u (mem_append_left _ hu)).2]
      exact hclosed
    · rw [mem_singleton.mp hu] at hadj ⊢
      have hmem := ((h.adj_current hp hqueue).mp hadj).2
      rw [distance_pop_old hcurrent]
      have hreal : 0 ≤ (Betweenness.pop p current queue s).distance x := by
        rcases lt_or_ge (s.distance x) 0 with hneg | hold
        · rw [distance_pop_new hmem hneg]
          omega
        · rwa [distance_pop_old hold]
      exact ⟨hreal, hbound x hreal⟩
  · rcases hseen x hx with hold | ⟨hmem, hneg⟩
    · obtain ⟨u, hu, hnext⟩ := h.origin x hold hne
      exact ⟨u, mem_append_left _ hu, (h.next_old hu).mpr hnext⟩
    · exact ⟨current, mem_append_right _ (mem_singleton_self current),
        (h.next_current hp hqueue).mpr ⟨hmem, .inl hneg⟩⟩
  · refine (h.predecessors_pop hp hqueue x).trans ?_
    change _ = (s.stack ++ [current]).filter _
    rw [h.predecessors, filter_append]
    refine congrArg₂ _ (filter_congr fun u hu => ?_) ?_
    · rw [decide_eq_decide]
      exact (h.next_old hu).symm
    · split_ifs with hnext <;> simp [hnext]
  · have hstack : ∀ u ∈ s.stack ++ [current],
        (Betweenness.pop p current queue s).pathCount u = s.pathCount u := by
      intro u hu
      have hnot : ¬Reached current s u := by
        rcases mem_append.mp hu with hu | hu
        · have hle := h.le_current hqueue hu
          have hnonneg := (h.found.known u (mem_append_left _ hu)).2
          unfold Reached
          omega
        · rw [mem_singleton.mp hu]
          exact not_reached_self hcurrent
      exact (congrArg _ (if_neg fun hmem => hnot hmem.2)).trans (add_zero _)
    have hmap : (s.predecessors x).map (Betweenness.pop p current queue s).pathCount =
        (s.predecessors x).map s.pathCount := by
      refine map_congr_left fun u hu => hstack u (mem_append_left _ ?_)
      rw [h.predecessors] at hu
      exact (mem_filter.mp hu).1
    rw [h.predecessors_pop hp hqueue, map_append, sum_append, hmap, ← add_assoc,
      ← h.counted, h.pathCount_pop hp hqueue]
    congr 1
    split_ifs
    · rw [map_singleton, sum_singleton]
      exact (hstack current (mem_append_right _ (mem_singleton_self current))).symm
    · rfl

end Explored

theorem Explored.search (hp : p.Undirected)
    (h : Explored p source s) (n : ℕ) : Explored p source (search p n s) := by
  induction n generalizing s with
  | zero => exact h
  | succ n ih =>
    unfold search
    cases hqueue : s.queue with
    | nil => exact h
    | cons current queue =>
      dsimp only
      rw [h.foldl_pop hp hqueue]
      exact ih (h.pop hp hqueue)

/-! ## What it has found -/

namespace Explored

open SimpleGraph

variable {p : Projection} {source u x : String} {s : Search} (h : Explored p source s)
  (hdone : s.queue = [])

include h

theorem dist_le (hx : 0 ≤ s.distance x) :
    p.graph.Reachable source x ∧ (p.graph.dist source x : ℤ) ≤ s.distance x := by
  obtain ⟨n, hn⟩ := Int.eq_ofNat_of_zero_le hx
  induction n generalizing x with
  | zero =>
    by_cases hsource : x = source
    · rw [hsource, h.start, dist_self]
      exact ⟨.refl _, le_rfl⟩
    · obtain ⟨u, hu, hnext⟩ := h.origin x hx hsource
      have hnonneg := (h.found.known u (mem_append_left _ hu)).2
      have hdistance := hnext.2
      omega
  | succ n ih =>
    have hsource : x ≠ source := by
      rintro rfl
      have hstart := h.start
      omega
    obtain ⟨u, hu, hadj, hdistance⟩ := h.origin x hx hsource
    obtain ⟨hreach, hle⟩ := ih (h.found.known u (mem_append_left _ hu)).2 (by omega)
    have htri := hreach.dist_triangle_left x
    rw [dist_eq_one_iff_adj.mpr hadj] at htri
    exact ⟨hreach.trans hadj.reachable, by omega⟩

include hdone

theorem mem_stack (hx : 0 ≤ s.distance x) : x ∈ s.stack := by
  have hseen := h.seen x hx
  rwa [hdone, append_nil] at hseen

theorem distance_le {y : String} (w : p.graph.Walk y x) (hy : 0 ≤ s.distance y) :
    0 ≤ s.distance x ∧ s.distance x ≤ s.distance y + w.length := by
  induction w with
  | nil => exact ⟨hy, by simp⟩
  | cons hadj w ih =>
    obtain ⟨hnonneg, hle⟩ := h.closed _ (h.mem_stack hdone hy) _ hadj
    obtain ⟨hlast, hlength⟩ := ih hnonneg
    refine ⟨hlast, ?_⟩
    rw [Walk.length_cons]
    push_cast
    omega

theorem distance_eq (hx : p.graph.Reachable source x) :
    s.distance x = p.graph.dist source x := by
  obtain ⟨w, hw⟩ := hx.exists_walk_length_eq_dist
  obtain ⟨hnonneg, hle⟩ := h.distance_le hdone w h.start.ge
  have hge := (h.dist_le hnonneg).2
  rw [h.start, hw] at hle
  omega

theorem mem_stack_iff : x ∈ s.stack ↔ p.graph.Reachable source x := by
  constructor
  · intro hx
    exact (h.dist_le (h.found.known x (mem_append_left _ hx)).2).1
  · intro hx
    refine h.mem_stack hdone ?_
    rw [h.distance_eq hdone hx]
    omega

theorem next_iff (hx : p.graph.Reachable source x) : Next p s u x ↔
    p.graph.Adj u x ∧ p.graph.dist source x = p.graph.dist source u + 1 := by
  refine and_congr_right fun hadj => ?_
  rw [h.distance_eq hdone hx, h.distance_eq hdone (hx.trans hadj.symm.reachable)]
  omega

theorem mem_predecessors (hx : p.graph.Reachable source x) : u ∈ s.predecessors x ↔
    p.graph.Adj u x ∧ p.graph.dist source x = p.graph.dist source u + 1 := by
  rw [h.predecessors, mem_filter, decide_eq_true_iff, h.next_iff hdone hx]
  refine and_iff_right_of_imp fun hnext => ?_
  exact (h.mem_stack_iff hdone).mpr (hx.trans hnext.1.symm.reachable)

omit hdone in
theorem nodup_stack : s.stack.Nodup := (nodup_append.mp h.found.nodup).1

theorem pathCount_eq (hp : p.Undirected) (hx : p.graph.Reachable source x) :
    s.pathCount x = shortestPaths p.graph source x := by
  induction hn : p.graph.dist source x using Nat.strong_induction_on generalizing x with
  | _ n ih =>
    have hlast : ∀ u ∈ s.predecessors x, s.pathCount u = shortestPaths p.graph source u := by
      intro u hu
      obtain ⟨hadj, hdist⟩ := (h.mem_predecessors hdone hx).mp hu
      exact ih _ (by omega) (hx.trans hadj.symm.reachable) rfl
    rw [h.counted, map_congr_left hlast]
    by_cases hsource : x = source
    · subst hsource
      have hnone : s.predecessors x = [] := by
        refine eq_nil_iff_forall_not_mem.mpr fun u hu => ?_
        have hdist := ((h.mem_predecessors hdone hx).mp hu).2
        rw [dist_self] at hdist
        omega
      rw [if_pos rfl, hnone, hp.within.paths_self]
      simp
    · have hnodup : (s.predecessors x).Nodup := by
        rw [h.predecessors]
        exact h.nodup_stack.filter _
      rw [if_neg hsource, zero_add, ← sum_toFinset _ hnodup,
        hp.within.last_step hsource hx, Nat.cast_sum]
      refine Finset.sum_congr (Finset.ext fun u => ?_) fun _ _ => rfl
      rw [mem_toFinset, h.mem_predecessors hdone hx, Finset.mem_filter]
      exact (and_iff_right_of_imp fun hnext => hp.within _ _ hnext.1.symm).symm

end Explored

/-! ## What it gathers -/

theorem foldl_gather (c dependency : String → ℚ) {node : String} {predecessors : List String}
    (hnodup : predecessors.Nodup) (hnode : node ∉ predecessors) (v : String) :
    predecessors.foldl (fun dependency predecessor => Function.update dependency predecessor
        (dependency predecessor + c predecessor * (1 + dependency node))) dependency v =
      dependency v + if v ∈ predecessors then c v * (1 + dependency node) else 0 := by
  induction predecessors using List.reverseRecOn generalizing v with
  | nil => simp
  | append_singleton predecessors u ih =>
    obtain ⟨hnodup, -, hfresh⟩ := nodup_append.mp hnodup
    have hnotin : u ∉ predecessors := fun hu => hfresh u hu u (mem_singleton_self u) rfl
    have hnode : node ∉ predecessors := fun hmem => hnode (mem_append_left _ hmem)
    have hsame := ih hnodup hnode
    rw [foldl_append, foldl_cons, foldl_nil, hsame node, hsame u, if_neg hnode,
      if_neg hnotin, add_zero, add_zero]
    by_cases hv : v = u
    · subst hv
      rw [update_self, if_pos (mem_append_right _ (mem_singleton_self v))]
    · rw [update_of_ne hv, hsame v]
      simp [hv]

namespace Explored

open SimpleGraph

variable {p : Projection} {source : String} {s : Search} (h : Explored p source s)
  (hdone : s.queue = []) (hp : p.Undirected)

include h hdone hp

theorem sum_above {above rest : List String} {node : String}
    (hstack : s.stack = rest ++ node :: above) :
    (above.map fun w => if node ∈ s.predecessors w then
        (shortestPaths p.graph source node : ℚ) / shortestPaths p.graph source w *
          (1 + dependency p.graph p.nodes.toFinset source w)
      else 0).sum = dependency p.graph p.nodes.toFinset source node := by
  have hmem : ∀ {w}, w ∈ above → p.graph.Reachable source w := fun hw =>
    (h.mem_stack_iff hdone).mp (hstack ▸ mem_append_right _ (mem_cons_of_mem _ hw))
  have hnode : p.graph.Reachable source node :=
    (h.mem_stack_iff hdone).mp (hstack ▸ mem_append_right _ mem_cons_self)
  have hnodup := h.nodup_stack
  have hsorted := h.sorted
  rw [hdone, append_nil, hstack] at hsorted
  rw [hstack] at hnodup
  have habove := (nodup_cons.mp (nodup_append.mp hnodup).2.1).2
  rw [← sum_toFinset _ habove, ← Finset.sum_filter, hp.within.dependency_eq hnode]
  refine Finset.sum_congr (Finset.ext fun w => ?_) fun _ _ => rfl
  rw [Finset.mem_filter, Finset.mem_filter, mem_toFinset]
  constructor
  · rintro ⟨hw, hpred⟩
    obtain ⟨hadj, hdist⟩ := (h.mem_predecessors hdone (hmem hw)).mp hpred
    exact ⟨hp.within _ _ hadj, hadj, hdist⟩
  · rintro ⟨-, hadj, hdist⟩
    have hreach := hnode.trans hadj.reachable
    refine ⟨?_, (h.mem_predecessors hdone hreach).mpr ⟨hadj, hdist⟩⟩
    -- What is below `node` on the stack is no farther than `node` is.
    have hw := (h.mem_stack_iff hdone).mpr hreach
    rw [hstack] at hw
    rcases mem_append.mp hw with hw | hw
    · have hle := (pairwise_append.mp hsorted).2.2 w hw node mem_cons_self
      rw [h.distance_eq hdone hreach, h.distance_eq hdone hnode] at hle
      omega
    · exact (mem_cons.mp hw).resolve_left fun heq => hadj.ne heq.symm

theorem foldl_settle {above rest : List String} (hstack : s.stack = rest ++ above) (v : String) :
    (above.reverse.foldl (settle source s) ⟨fun _ => 0, 0⟩).dependency v =
        (above.map fun w => if v ∈ s.predecessors w then
            (shortestPaths p.graph source v : ℚ) / shortestPaths p.graph source w *
              (1 + dependency p.graph p.nodes.toFinset source w)
          else 0).sum ∧
      (above.reverse.foldl (settle source s) ⟨fun _ => 0, 0⟩).betweenness v =
        if v ∈ above ∧ v ≠ source then dependency p.graph p.nodes.toFinset source v else 0 := by
  induction above generalizing rest v with
  | nil => simp
  | cons node above ih =>
    have hsame := ih (hstack.trans (append_cons ..))
    have hnode : node ∉ s.predecessors node := by
      rw [h.predecessors, mem_filter, decide_eq_true_iff]
      exact fun hnext => hnext.2.1.ne rfl
    have hnodup : (s.predecessors node).Nodup := by
      rw [h.predecessors]
      exact h.nodup_stack.filter _
    have hreach : p.graph.Reachable source node :=
      (h.mem_stack_iff hdone).mp (hstack ▸ mem_append_right _ mem_cons_self)
    have hfresh : node ∉ above := by
      have hall := h.nodup_stack
      rw [hstack] at hall
      exact (nodup_cons.mp (nodup_append.mp hall).2.1).1
    rw [reverse_cons, foldl_append, foldl_cons, foldl_nil]
    obtain ⟨t, ht⟩ : ∃ t, t = above.reverse.foldl (settle source s) ⟨fun _ => 0, 0⟩ := ⟨_, rfl⟩
    simp only [← ht] at hsame ⊢
    have hdependency : t.dependency node = dependency p.graph p.nodes.toFinset source node :=
      (hsame node).1.trans (h.sum_above hdone hp hstack)
    have hgather := foldl_gather (fun u => s.pathCount u / s.pathCount node) t.dependency hnodup
      hnode
    constructor
    · refine (hgather v).trans ?_
      rw [(hsame v).1, hdependency, map_cons, sum_cons, add_comm]
      congr 1
      refine if_ctx_congr Iff.rfl (fun hv => ?_) fun _ => rfl
      obtain ⟨hadj, -⟩ := (h.mem_predecessors hdone hreach).mp hv
      rw [h.pathCount_eq hdone hp hreach,
        h.pathCount_eq hdone hp (hreach.trans hadj.symm.reachable)]
    · have hgathered := hgather node
      rw [if_neg hnode, add_zero, hdependency] at hgathered
      by_cases hsource : node = source
      · refine (congrFun (if_pos hsource) v).trans ((hsame v).2.trans ?_)
        refine if_congr (and_congr_left fun hne => ?_) rfl rfl
        rw [mem_cons, or_iff_right fun heq => hne (heq.trans hsource)]
      · refine (congrFun (if_neg hsource) v).trans ?_
        by_cases hv : v = node
        · rw [hv, update_self, (hsame node).2, if_neg fun hmem => hfresh hmem.1, zero_add,
            if_pos ⟨mem_cons_self, hsource⟩]
          exact hgathered
        · rw [update_of_ne hv, (hsame v).2]
          refine if_congr (and_congr_left' ?_) rfl rfl
          rw [mem_cons, or_iff_right hv]

end Explored

theorem contribution_eq (hp : p.Undirected)
    (hsource : source ∈ p.nodes) (v : String) : contribution p source v =
      if source ≠ v then dependency p.graph p.nodes.toFinset source v else 0 := by
  have h := (explored_start hsource).search hp p.size
  have hdone := search_done hsource
  refine (h.foldl_settle hdone hp (nil_append _).symm v).2.trans ?_
  have hstack := h.mem_stack_iff hdone (x := v)
  by_cases hreach : p.graph.Reachable source v
  · refine if_congr ?_ rfl rfl
    rw [and_iff_right (hstack.mpr hreach)]
    exact ne_comm
  · rw [if_neg fun hmem => hreach (hstack.mp hmem.1), hp.within.dependency_unreachable hreach,
      ite_self]

theorem foldl_addSource (p : Projection) (sources : List String) (betweenness : String → ℚ)
    (v : String) : sources.foldl (addSource p) betweenness v =
      betweenness v + (sources.map fun source => contribution p source v).sum := by
  induction sources generalizing betweenness with
  | nil => simp
  | cons source sources ih =>
    rw [foldl_cons, ih, addSource_eq, map_cons, sum_cons, ← add_assoc]
    rfl

end Betweenness

/-- From every source the scores are the betweenness of the graph. -/
theorem betweennessCentrality_eq {p : Projection} (hp : p.Undirected) (hsize : 3 ≤ p.size)
    {v : String} (hv : v ∈ p.nodes) :
    (betweennessCentrality p (some p.size) true).scores v =
        some (betweenness p.graph p.nodes.toFinset v) ∧
      0 ≤ betweenness p.graph p.nodes.toFinset v ∧ betweenness p.graph p.nodes.toFinset v ≤ 1 := by
  have hmem := mem_toFinset.mpr hv
  refine ⟨?_, betweenness_nonneg hmem, betweenness_le_one hp.within hmem⟩
  have hcard : p.nodes.toFinset.card = p.size := toFinset_card_of_nodup hp.nodup
  have hsample : sampleSize p.size (some p.size) = p.size := by
    unfold sampleSize
    rw [Option.getD_some]
    dsimp only
    omega
  have hsum : p.nodes.foldl (addSource p) (fun _ => 0) v =
      ∑ source ∈ p.nodes.toFinset with source ≠ v,
        dependency p.graph p.nodes.toFinset source v := by
    rw [foldl_addSource, zero_add, Finset.sum_filter, sum_toFinset _ hp.nodup]
    exact congrArg List.sum (map_congr_left fun source hsource =>
      contribution_eq hp hsource v)
  unfold betweennessCentrality
  rw [if_neg (by omega)]
  dsimp only
  unfold sources Projection.scored
  rw [hsample, if_pos rfl, if_pos hv, if_neg (lt_irrefl _)]
  dsimp only
  rw [hsum, sum_dependency hp.within]
  unfold betweenness
  rw [hcard]
  congr 1
  simp only [if_true]
  ring

/-- Two of the three nodes of a path are joined through the third, and no others by it. -/
theorem betweennessCentrality_path :
    (betweennessCentrality (.build ["d"] [("a", "b", 1), ("b", "c", 1)]) (some 4) true).scores "b" =
      some (betweenness (Projection.build ["d"] [("a", "b", 1), ("b", "c", 1)]).graph
        (Projection.build ["d"] [("a", "b", 1), ("b", "c", 1)]).nodes.toFinset "b") :=
  (betweennessCentrality_eq (Projection.Undirected.build ["d"] [("a", "b", 1), ("b", "c", 1)])
    (by decide) (by decide)).1

end OmniSense.Analytics
