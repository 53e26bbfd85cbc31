import Mathlib.Data.Prod.Lex
import OmniSense.Analytics.Projection
import OmniSense.Library.Dict

/-! Louvain and label propagation. Both move nodes greedily, in the order of the node list. -/

namespace OmniSense.Analytics

open Library

def DEFAULT_RESOLUTION : ℚ := 1

def DEFAULT_MIN_COMMUNITY_SIZE : ℤ := 3

def MAX_PASSES : ℕ := 20

def MIN_MODULARITY_GAIN : ℚ := 1 / 10000000

structure Community where
  communityId : String
  members : List String
  internalWeight : ℚ
  externalWeight : ℚ
  deriving DecidableEq

structure CommunityResult where
  communities : List Community
  unassigned : List String
  modularity : ℚ
  passes : ℕ
  deriving DecidableEq

/-- `d[key] = d.get(key, 0.0) + weight`. -/
def bump {κ : Type*} [DecidableEq κ] (d : Dict κ ℚ) (key : κ) (weight : ℚ) : Dict κ ℚ :=
  d.alter key fun held => held.getD 0 + weight

/-! ## Modularity -/

section

variable {κ : Type*} [DecidableEq κ]

structure Tallies (κ : Type*) where
  internal : Dict κ ℚ
  degrees : Dict κ ℚ

def tallyNode (p : Projection) (assignment : String → Option κ) (t : Tallies κ) (node : String) :
    Tallies κ :=
  match assignment node with
  | none => t
  | some community =>
    { degrees := bump t.degrees community (p.weightedDegree node)
      internal := (p.neighbours node).foldl (fun internal entry =>
        if assignment entry.1 = some community then bump internal community entry.2
        else internal) t.internal }

/-- The modularity of a partial partition; `str` is `str` of a community's label. -/
def modularity (p : Projection) (str : κ → String) (assignment : String → Option κ)
    (resolution : ℚ) : ℚ :=
  if p.totalWeight ≤ 0 then 0
  else
    let t := p.nodes.foldl (tallyNode p assignment) ⟨.empty, .empty⟩
    ((sortedBy (fun item => str item.1) t.degrees.items).map fun item =>
      (t.internal.get? item.1).getD 0 / p.totalWeight -
        resolution * (item.2 / p.totalWeight) ^ 2).sum

end

/-- Dense indices for the labels of some nodes, `setdefault(label, len(index_of))` for each node in
turn. -/
def indexOf (label : String → String) (nodes : List String) : Dict String ℕ :=
  nodes.foldl (fun indices node =>
    indices.alter (label node) fun held => held.getD indices.items.length) .empty

def indexMembership (label : String → String) (nodes : List String) (node : String) : ℕ :=
  ((indexOf label nodes).get? (label node)).getD 0

/-! ## What is returned -/

section

variable (hexdigest : String → String)

def communityIdFor (members : List String) : String :=
  "com_" ++ String.ofList ((hexdigest ("\x1f".intercalate (sorted members))).toList.take 24)

def measure (p : Projection) (members : List String) : Community :=
  let halfEdges := members.flatMap p.neighbours
  { communityId := communityIdFor hexdigest members
    members := sorted members
    -- Each inside edge is counted from both ends.
    internalWeight := ((halfEdges.filter fun entry => entry.1 ∈ members).map Prod.snd).sum / 2
    externalWeight := ((halfEdges.filter fun entry => entry.1 ∉ members).map Prod.snd).sum }

def grouped (membership : String → ℕ) (nodes : List String) : List (List String) :=
  let groups : Dict ℕ (List String) := nodes.foldl (fun groups node =>
    groups.alter (membership node) fun held => held.getD [] ++ [node]) .empty
  (sortedBy (fun item : ℕ × List String => toLex (-(item.2.length : ℤ), item.2.headD ""))
    groups.items).map Prod.snd

def finalize (p : Projection) (membership : String → ℕ) (resolution : ℚ) (minCommunitySize : ℤ)
    (passes : ℕ) : CommunityResult :=
  let groups := grouped membership p.nodes
  let communities := (groups.filter fun members => minCommunitySize ≤ members.length).map
    (measure hexdigest p)
  let unassigned := (groups.filter fun members => (members.length : ℤ) < minCommunitySize).flatten
  let kept := Dict.ofList (communities.flatMap fun c => c.members.map fun m => (m, c.communityId))
  { communities := communities
    unassigned := sorted unassigned
    modularity := if kept.items = [] then 0 else modularity p id kept.get? resolution
    passes := passes }

end

/-! ## Louvain -/

structure Moving where
  communityOf : String → ℕ
  sumTot : ℕ → ℚ
  moved : Bool

section

variable (level : Projection) (resolution : ℚ)

def weightTo (communityOf : String → ℕ) (node : String) : Dict ℕ ℚ :=
  (level.neighbours node).foldl (fun weights entry => bump weights (communityOf entry.1) entry.2)
    .empty

def moveNode (s : Moving) (node : String) : Moving :=
  let current := s.communityOf node
  let nodeDegree := level.weightedDegree node
  -- The node is out of its own community while the moves are evaluated.
  let sumTot := Function.update s.sumTot current (s.sumTot current - nodeDegree)
  let weights := weightTo level s.communityOf node
  let gain := fun candidate => (weights.get? candidate).getD 0 -
    resolution * nodeDegree * sumTot candidate / level.totalWeight
  let best := ((sortedBy Prod.fst weights.items).map Prod.fst).foldl (fun best candidate =>
    if candidate = current then best
    else if gain candidate > best.2 + MIN_MODULARITY_GAIN then (candidate, gain candidate)
    else best) (current, gain current)
  let sumTot := Function.update sumTot best.1 (sumTot best.1 + nodeDegree)
  if best.1 ≠ current then
    { communityOf := Function.update s.communityOf node best.1, sumTot := sumTot, moved := true }
  else { s with sumTot := sumTot }

def moveRounds : ℕ → Moving → Bool × (String → ℕ)
  | 0, s => (s.moved, s.communityOf)
  | rounds + 1, s =>
    let round := level.nodes.foldl (moveNode level resolution) { s with moved := false }
    let moved := s.moved || round.moved
    if round.moved then moveRounds rounds { round with moved := moved }
    else (moved, round.communityOf)

def localMoving : Bool × (String → ℕ) :=
  let index := fun node => level.nodes.idxOf node
  if level.totalWeight ≤ 0 then (false, index)
  else
    moveRounds level resolution MAX_PASSES
      { communityOf := index
        sumTot := fun community => ((level.nodes[community]?).map level.weightedDegree).getD 0
        moved := false }

end

structure Collapse where
  aggregated : Projection
  seen : List (String × String)

def collapseEdge (communityOf : String → ℕ) (node : String) (s : Collapse)
    (entry : String × ℚ) : Collapse :=
  let source := toString (communityOf node)
  let target := toString (communityOf entry.1)
  let key := if node < entry.1 then (node, entry.1) else (entry.1, node)
  if source = target then s
  -- The projection stores each edge twice.
  else if s.seen.contains key then s
  else ⟨s.aggregated.addEdge source target entry.2, key :: s.seen⟩

def aggregate (level : Projection) (communityOf : String → ℕ) : Projection :=
  let start : Collapse := ⟨.ofNodes (level.nodes.map fun node => toString (communityOf node)), []⟩
  (level.nodes.foldl (fun s node => (level.neighbours node).foldl (collapseEdge communityOf node) s)
    start).aggregated

structure Louvain where
  placement : String → String
  level : Projection
  membership : String → ℕ
  score : ℚ
  passes : ℕ

def Louvain.offer (s : Louvain) (candidate : String → ℕ) (score : ℚ) (passIndex : ℕ) : Louvain :=
  if score > s.score + MIN_MODULARITY_GAIN then
    { s with membership := candidate, score := score, passes := passIndex }
  else s

def louvainPasses (p : Projection) (resolution : ℚ) : ℕ → ℕ → Louvain → Louvain
  | 0, _, s => s
  | remaining + 1, passIndex, s =>
    let (moved, communityOf) := localMoving s.level resolution
    let placement := fun node => toString (communityOf (s.placement node))
    let candidate := indexMembership placement p.nodes
    let score := modularity p toString (fun node => some (candidate node)) resolution
    let s := { s with placement := placement }.offer candidate score passIndex
    let aggregated := aggregate s.level communityOf
    if moved ∧ aggregated.size < s.level.size then
      louvainPasses p resolution remaining (passIndex + 1) { s with level := aggregated }
    else s

section

variable (hexdigest : String → String)

variable (p : Projection)

def louvain (resolution : ℚ) (minCommunitySize maxPasses : ℤ) : CommunityResult :=
  if p.size = 0 then ⟨[], [], 0, 0⟩
  else if p.totalWeight ≤ 0 then ⟨[], p.nodes, 0, 0⟩
  else
    let membership := fun node => p.nodes.idxOf node
    let s := louvainPasses p resolution maxPasses.toNat 1
      { placement := id
        level := p
        membership := membership
        score := modularity p toString (fun node => some (membership node)) resolution
        passes := 0 }
    finalize hexdigest p s.membership resolution minCommunitySize s.passes

/-! ## Label propagation -/

structure Labelling where
  labels : String → String
  changed : Bool

def bestLabel (labels : String → String) (node : String) : Option String :=
  let weightByLabel := (p.neighbours node).foldl (fun weights entry =>
    bump weights (labels entry.1) entry.2) Dict.empty
  ((sortedBy (fun item : String × ℚ => toLex (-item.2, item.1)) weightByLabel.items).head?).map
    Prod.fst

def relabel (s : Labelling) (node : String) : Labelling :=
  match bestLabel p s.labels node with
  | none => s
  | some best =>
    if best ≠ s.labels node then ⟨Function.update s.labels node best, true⟩ else s

def propagate (p : Projection) : ℕ → ℕ → (String → String) → (String → String) × ℕ
  | 0, iterations, labels => (labels, iterations)
  | remaining + 1, iterations, labels =>
    let s := p.nodes.foldl (relabel p) ⟨labels, false⟩
    if s.changed then propagate p remaining (iterations + 1) s.labels
    else (s.labels, iterations + 1)

def labelPropagation (maxIterations minCommunitySize : ℤ) : CommunityResult :=
  if p.size = 0 then ⟨[], [], 0, 0⟩
  else
    let propagated := propagate p maxIterations.toNat 0 id
    finalize hexdigest p (indexMembership propagated.1 p.nodes) DEFAULT_RESOLUTION
      minCommunitySize propagated.2

end

end OmniSense.Analytics
