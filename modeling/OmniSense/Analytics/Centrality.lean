import Mathlib.Algebra.Order.Group.Unbundled.Abs
import Mathlib.Data.List.Perm.Subperm
import Mathlib.Data.Rat.Cast.Defs
import OmniSense.Analytics.Projection

/-! PageRank and betweenness over a projection. -/

namespace OmniSense.Analytics

open Library List

structure CentralityResult where
  scores : String → Option ℚ
  iterations : ℕ
  converged : Bool
  nodeCount : ℕ
  edgeCount : ℕ

def Projection.scored (p : Projection) (scores : String → ℚ) : String → Option ℚ := fun node =>
  if node ∈ p.nodes then some (scores node) else none

/-! ## PageRank -/

inductive PageRankError
  | damping
  -- No positive weight on any node: the walk would have nowhere to teleport to.
  | personalization
  deriving DecidableEq

namespace PageRank

structure Spread where
  incoming : String → ℚ
  danglingMass : ℚ

structure Settled where
  incoming : String → ℚ
  delta : ℚ

/-- `incoming[neighbour] += share * weight`. -/
def send (share : ℚ) (incoming : String → ℚ) (entry : String × ℚ) : String → ℚ :=
  Function.update incoming entry.1 (incoming entry.1 + share * entry.2)

variable (p : Projection)

def spreadFrom (scores : String → ℚ) (s : Spread) (node : String) : Spread :=
  if p.weightedDegree node ≤ 0 then { s with danglingMass := s.danglingMass + scores node }
  else
    { s with
      incoming := (p.neighbours node).foldl (send (scores node / p.weightedDegree node)) s.incoming }

def spread (scores : String → ℚ) : Spread := p.nodes.foldl (spreadFrom p scores) ⟨fun _ => 0, 0⟩

section

variable (damping : ℚ) (teleport : String → ℚ)

def settleNode (scores : String → ℚ) (danglingMass : ℚ) (s : Settled) (node : String) : Settled :=
  let updated := (1 - damping) * teleport node +
    damping * (s.incoming node + danglingMass * teleport node)
  { incoming := Function.update s.incoming node updated
    delta := s.delta + |updated - scores node| }

def pass (scores : String → ℚ) : Settled :=
  let s := spread p scores
  p.nodes.foldl (settleNode damping teleport scores s.danglingMass) ⟨s.incoming, 0⟩

def iterate (tolerance : ℚ) : ℕ → ℕ → (String → ℚ) → (String → ℚ) × ℕ × Bool
  | 0, iterations, scores => (scores, iterations, false)
  | remaining + 1, iterations, scores =>
    let settled := pass p damping teleport scores
    if settled.delta < tolerance then (settled.incoming, iterations + 1, true)
    else iterate tolerance remaining (iterations + 1) settled.incoming

end

def teleport : Option (String → Option ℚ) → Except PageRankError (String → ℚ)
  | none => .ok fun _ => 1 / p.size
  | some personalization =>
    let filtered := fun node => ((personalization node).filter (0 < ·)).getD 0
    let total := (p.nodes.map filtered).sum
    if total ≤ 0 then .error .personalization else .ok fun node => filtered node / total

end PageRank

def pagerank (p : Projection) (damping : ℚ) (maxIterations : ℕ) (tolerance : ℚ)
    (personalization : Option (String → Option ℚ)) : Except PageRankError CentralityResult :=
  if ¬(0 < damping ∧ damping < 1) then .error .damping
  else if p.size = 0 then .ok ⟨fun _ => none, 0, true, 0, 0⟩
  else do
    let teleport ← PageRank.teleport p personalization
    let ranked := PageRank.iterate p damping teleport tolerance maxIterations 0 fun _ => 1 / p.size
    return ⟨p.scored ranked.1, ranked.2.1, ranked.2.2, p.size, p.edgeCount⟩

/-! ## Betweenness -/

def BETWEENNESS_SAMPLE_THRESHOLD : ℕ := 2000

namespace Betweenness

structure Search where
  stack : List String
  predecessors : String → List String
  pathCount : String → ℚ
  distance : String → ℤ
  queue : List String

def start (source : String) : Search where
  stack := []
  predecessors := fun _ => []
  pathCount := Function.update (fun _ => 0) source 1
  distance := Function.update (fun _ => -1) source 0
  queue := [source]

def discover (current : String) (s : Search) (neighbour : String) : Search :=
  if s.distance neighbour < 0 then
    { s with
      distance := Function.update s.distance neighbour (s.distance current + 1)
      queue := s.queue ++ [neighbour] }
  else s

def visit (current : String) (s : Search) (neighbour : String) : Search :=
  let s := discover current s neighbour
  if s.distance neighbour = s.distance current + 1 then
    { s with
      pathCount := Function.update s.pathCount neighbour
        (s.pathCount neighbour + s.pathCount current)
      predecessors := Function.update s.predecessors neighbour
        (s.predecessors neighbour ++ [current]) }
  else s

/-- `while queue`, which pops each node at most once. -/
def search (p : Projection) : ℕ → Search → Search
  | 0, s => s
  | n + 1, s =>
    match s.queue with
    | [] => s
    | current :: queue =>
      search p n (((p.neighbours current).map Prod.fst).foldl (visit current)
        { s with queue := queue, stack := s.stack ++ [current] })

structure Found (p : Projection) (s : Search) : Prop where
  nodup : (s.stack ++ s.queue).Nodup
  known : ∀ x ∈ s.stack ++ s.queue, x ∈ p.nodes ∧ 0 ≤ s.distance x

variable {p : Projection} {s : Search}

theorem found_visit (h : Found p s) {current neighbour : String}
    (hcurrent : current ∈ s.stack) (hneighbour : neighbour ∈ p.nodes) :
    Found p (visit current s neighbour) ∧ (visit current s neighbour).stack = s.stack := by
  have hdiscover : Found p (discover current s neighbour) ∧
      (discover current s neighbour).stack = s.stack := by
    unfold discover
    split_ifs with hnew
    · have hfresh : neighbour ∉ s.stack ++ s.queue := fun hmem =>
        absurd (h.known _ hmem).2 (not_le.mpr hnew)
      have hdistance := (h.known _ (mem_append_left _ hcurrent)).2
      refine ⟨⟨?_, fun x hx => ?_⟩, rfl⟩
      · rw [← append_assoc, ← concat_eq_append]
        exact h.nodup.concat hfresh
      · rw [← append_assoc, mem_append, mem_singleton] at hx
        rcases hx with hx | rfl
        · have hne : x ≠ neighbour := fun heq => hfresh (heq ▸ hx)
          refine ⟨(h.known x hx).1, ?_⟩
          dsimp only
          rw [Function.update_of_ne hne]
          exact (h.known x hx).2
        · refine ⟨hneighbour, ?_⟩
          dsimp only
          rw [Function.update_self]
          omega
    · exact ⟨h, rfl⟩
  unfold visit
  dsimp only
  split_ifs
  · exact ⟨⟨hdiscover.1.nodup, hdiscover.1.known⟩, hdiscover.2⟩
  · exact hdiscover

theorem found_foldl_visit {current : String} {neighbours : List String}
    (hneighbours : ∀ x ∈ neighbours, x ∈ p.nodes) (h : Found p s)
    (hcurrent : current ∈ s.stack) : Found p (neighbours.foldl (visit current) s) ∧
      (neighbours.foldl (visit current) s).stack = s.stack := by
  induction neighbours generalizing s with
  | nil => exact ⟨h, rfl⟩
  | cons neighbour neighbours ih =>
    obtain ⟨hfound, hstack⟩ := found_visit h hcurrent (hneighbours _ (mem_cons_self ..))
    rw [foldl_cons, ← hstack]
    exact ih (fun x hx => hneighbours x (mem_cons_of_mem _ hx)) hfound (hstack ▸ hcurrent)

theorem queue_nil_of_found (h : Found p s) {n : ℕ}
    (hn : p.size ≤ s.stack.length + n) : (search p n s).queue = [] := by
  induction n generalizing s with
  | zero =>
    have hsubset : s.stack ++ s.queue ⊆ p.nodes := fun x hx => (h.known x hx).1
    have hlength := (subperm_of_subset h.nodup hsubset).length_le
    rw [length_append] at hlength
    unfold Projection.size at hn
    have hnone : s.queue.length = 0 := by omega
    exact eq_nil_of_length_eq_zero hnone
  | succ n ih =>
    unfold search
    cases hqueue : s.queue with
    | nil => exact hqueue
    | cons current queue =>
      have hpopped : Found p { s with queue := queue, stack := s.stack ++ [current] } := by
        have hsame : s.stack ++ s.queue = s.stack ++ [current] ++ queue := by
          rw [hqueue, append_assoc, singleton_append]
        exact ⟨hsame ▸ h.nodup, hsame ▸ h.known⟩
      have hneighbours : ∀ x ∈ (p.neighbours current).map Prod.fst, x ∈ p.nodes := by
        intro x hx
        unfold Projection.neighbours at hx
        rw [map_map, mem_map] at hx
        obtain ⟨y, hy, rfl⟩ := hx
        exact (sortedBy_perm id p.nodes).mem_iff.mp (mem_filter.mp hy).1
      obtain ⟨hfound, hstack⟩ := found_foldl_visit hneighbours hpopped
        (mem_append_right _ (mem_singleton_self _))
      refine ih hfound ?_
      rw [hstack, length_append, length_singleton]
      omega

theorem search_done {source : String} (h : source ∈ p.nodes) :
    (search p p.size (start source)).queue = [] := by
  have hstart : Found p (start source) := by
    refine ⟨nodup_singleton source, fun x hx => ?_⟩
    obtain rfl := mem_singleton.mp hx
    exact ⟨h, by simp [start]⟩
  exact queue_nil_of_found hstart (by simp [start])

structure Tally where
  dependency : String → ℚ
  betweenness : String → ℚ

/-- `while stack`, for the node popped. -/
def settle (source : String) (s : Search) (t : Tally) (node : String) : Tally :=
  let dependency := (s.predecessors node).foldl (fun dependency predecessor =>
    Function.update dependency predecessor (dependency predecessor +
      s.pathCount predecessor / s.pathCount node * (1 + dependency node))) t.dependency
  { dependency := dependency
    betweenness := if node = source then t.betweenness else
      Function.update t.betweenness node (t.betweenness node + dependency node) }

def addSource (p : Projection) (betweenness : String → ℚ) (source : String) : String → ℚ :=
  let s := search p p.size (start source)
  (s.stack.reverse.foldl (settle source s) ⟨fun _ => 0, betweenness⟩).betweenness

/-- `max(1, min(sample_size, size))`. -/
def sampleSize (size : ℕ) (asked : Option ℤ) : ℕ :=
  let sample := asked.getD (if size ≤ BETWEENNESS_SAMPLE_THRESHOLD then size
    else BETWEENNESS_SAMPLE_THRESHOLD)
  (max 1 (min sample size)).toNat

def sources (p : Projection) (sample : ℕ) : List String :=
  if sample = p.size then p.nodes
  else (List.range sample).map fun index => p.nodes.getD (index * p.size / sample) ""

end Betweenness

def betweennessCentrality (p : Projection) (asked : Option ℤ) (normalized : Bool) :
    CentralityResult :=
  if p.size < 3 then ⟨p.scored fun _ => 0, 0, true, p.size, p.edgeCount⟩
  else
    let sample := Betweenness.sampleSize p.size asked
    let sources := Betweenness.sources p sample
    let betweenness := sources.foldl (Betweenness.addSource p) fun _ => 0
    let sampled : ℚ := if sample < p.size then 1 / 2 * (p.size / sample) else 1 / 2
    let scale := if normalized then sampled / ((p.size - 1) * (p.size - 2) / 2) else sampled
    ⟨p.scored fun node => betweenness node * scale, sources.length, sample = p.size, p.size,
      p.edgeCount⟩

end OmniSense.Analytics
