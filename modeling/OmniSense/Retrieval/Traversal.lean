import Mathlib.Algebra.Order.Field.Rat
import Mathlib.Data.Prod.Lex
import Mathlib.Data.String.Basic
import OmniSense.Indexing.Addresses
import OmniSense.Library.Blocks
import OmniSense.Library.Dict
import OmniSense.Retrieval.Types

/-! Bounded neighbourhood traversal: from seed entities, hop by hop, to the signals that mention
what was reached. What the reader answers to each of its queries is given; arithmetic is exact. -/

namespace OmniSense.Retrieval

open Library

def HOP_DECAY : ℚ := 3 / 5

def DEFAULT_EDGE_CONFIDENCE : ℚ := 1 / 2

def DEFAULT_SALIENCE : ℚ := 1 / 2

def SIGNAL_LABEL : String := "Signal"

structure Neighbour where
  entityId : String
  name : String
  label : String
  hop : ℕ
  pathScore : ℚ
  viaEdge : String
  deriving DecidableEq

def Neighbour.isSignal (n : Neighbour) : Bool := n.label = SIGNAL_LABEL

/-- A row of the expansion query; a value that is no string, or that `float` refuses, is absent. -/
structure EdgeRow where
  fromId : Option String
  fromLabel : Option String
  toId : Option String
  toName : Option String
  toLabel : Option String
  edgeType : Option String
  confidence : Option ℚ
  deriving DecidableEq

structure MentionRow where
  viaEntity : Option String
  signalId : Option String
  salience : Option ℚ
  chunkIndex : Option ℚ
  deriving DecidableEq

/-- `_text`. -/
def textOf (value : Option String) : String := (value.map strip).getD ""

/-- `_unique`. -/
def uniqueIds (values : List String) : List String :=
  appendNew [] ((values.map strip).filter fun text => text ≠ "")

def clamp (name : String) (requested : Option ℤ) (ceiling : ℕ) : Except String ℕ :=
  match requested with
  | none => .ok ceiling
  | some requested =>
    if requested < 1 then .error s!"{name} must be at least 1, got {requested}"
    else .ok (min requested.toNat ceiling)

/-! ## One hop -/

structure Absorption where
  nodes : Dict String Neighbour
  discovered : List Neighbour
  perParent : Dict String ℕ

def absorbRow (decay : ℚ) (hop : ℕ) (s : Absorption) (row : EdgeRow) : Absorption :=
  let fromId := textOf row.fromId
  let toId := textOf row.toId
  if fromId = "" ∨ toId = "" then s
  else
    match s.nodes.get? fromId with
    | none => s
    | some parent =>
      let perParent := s.perParent.alter fromId fun count => count.getD 0 + 1
      -- A seed's label is learnt from the row it appears in.
      let nodes := if parent.label = "" then
          s.nodes.set fromId { parent with label := textOf row.fromLabel }
        else s.nodes
      let contribution := parent.pathScore * row.confidence.getD DEFAULT_EDGE_CONFIDENCE * decay
      match nodes.get? toId with
      | none =>
        let neighbour : Neighbour :=
          { entityId := toId
            name := textOf row.toName
            label := textOf row.toLabel
            hop := hop
            pathScore := contribution
            viaEdge := textOf row.edgeType }
        { nodes := nodes.set toId neighbour, discovered := s.discovered ++ [neighbour],
          perParent := perParent }
      | some existing =>
        { s with
          nodes := nodes.set toId { existing with pathScore := existing.pathScore + contribution }
          perParent := perParent }

/-- `_absorb`. -/
def absorbRows (hopDecay : ℚ) (rows : List EdgeRow) (nodes : Dict String Neighbour) (hop : ℕ) :
    Absorption :=
  rows.foldl (absorbRow (hopDecay ^ hop) hop) ⟨nodes, [], .empty⟩

def Absorption.hitCap (s : Absorption) (fanoutCap : ℕ) : Bool :=
  s.perParent.values.any fun count => fanoutCap ≤ count

/-! ## The neighbourhood -/

structure GraphTraversal where
  maxDepth : ℕ
  fanoutCap : ℕ
  maxNodes : ℕ
  minEdgeConfidence : ℚ
  hopDecay : ℚ
  maxDepth_pos : 1 ≤ maxDepth
  fanoutCap_pos : 1 ≤ fanoutCap
  maxNodes_pos : 1 ≤ maxNodes
  hopDecay_pos : 0 < hopDecay
  hopDecay_le : hopDecay ≤ 1

structure Neighbourhood where
  nodes : Dict String Neighbour
  hopsRun : ℕ
  truncated : Bool
  seedsFound : ℕ

/-- What the reader answers: the rows of each hop, of the mentions and of the signals reached as
nodes. The frontier and its labels only go into the queries. -/
structure Answers where
  hops : ℕ → List EdgeRow
  mentions : List MentionRow
  direct : List (Option String)

def seeded (seeds : List String) : Dict String Neighbour :=
  .ofList (seeds.map fun seed => (seed, ⟨seed, "", "", 0, 1, ""⟩))

namespace GraphTraversal

variable (backend : GraphTraversal)

def expand (fanoutCap : ℕ) (seeds : List String) (hops : ℕ → List EdgeRow) :
    ℕ → ℕ → Neighbourhood → Neighbourhood
  | 0, _, hood => hood
  | remaining + 1, hop, hood =>
    let absorbed := absorbRows backend.hopDecay (hops hop) hood.nodes hop
    let found := ((hops hop).map fun row => textOf row.fromId).dedup.filter fun id => id ∈ seeds
    let hood : Neighbourhood :=
      { nodes := absorbed.nodes
        hopsRun := hop
        truncated := hood.truncated || absorbed.hitCap fanoutCap
        seedsFound := if hop = 1 then found.length else hood.seedsFound }
    if absorbed.discovered = [] then hood else expand fanoutCap seeds hops remaining (hop + 1) hood

def walk (depth fanoutCap : ℕ) (seeds : List String) (hops : ℕ → List EdgeRow) : Neighbourhood :=
  backend.expand fanoutCap seeds hops depth 1 ⟨seeded seeds, 0, false, 0⟩

end GraphTraversal

def Neighbour.order (n : Neighbour) : ℚ ×ₗ String := toLex (-n.pathScore, n.entityId)

namespace Neighbourhood

def entities (hood : Neighbourhood) : List Neighbour :=
  sortedBy Neighbour.order (hood.nodes.values.filter fun n => !n.isSignal)

def signalNodes (hood : Neighbourhood) : List Neighbour :=
  sortedBy Neighbour.order (hood.nodes.values.filter fun n => n.isSignal)

def byId (nodes : List Neighbour) : Dict String Neighbour :=
  .ofList (nodes.map fun n => (n.entityId, n))

def capped (hood : Neighbourhood) (maxNodes : ℕ) : Neighbourhood :=
  if maxNodes < hood.nodes.items.length then
    { hood with
      nodes := byId ((sortedBy Neighbour.order hood.nodes.values).take maxNodes)
      truncated := true }
  else hood

end Neighbourhood

def GraphTraversal.neighbourhood (backend : GraphTraversal) (seedIds : List String)
    (requestedDepth requestedFanout : Option ℤ) (hops : ℕ → List EdgeRow) :
    Except String Neighbourhood := do
  let depth ← clamp "graph_depth" requestedDepth backend.maxDepth
  let fanoutCap ← clamp "graph_fanout_cap" requestedFanout backend.fanoutCap
  let seeds := uniqueIds seedIds
  if seeds = [] then return ⟨.empty, 0, false, 0⟩
  return (backend.walk depth fanoutCap seeds hops).capped backend.maxNodes

/-! ## Signals -/

/-- `_chunk_index`. -/
def chunkIndexOf (value : Option ℚ) : ℕ := (value.map fun q => (q.num.tdiv q.den).toNat).getD 0

/-- `_accumulate`: an index beats the fallback, and a later index an earlier one. -/
def accumulate (scores : Dict String (ℚ × ℕ)) (signalId : String) (delta : ℚ) (index : ℕ) :
    Dict String (ℚ × ℕ) :=
  scores.alter signalId fun previous => previous.elim (delta, index) fun held =>
    (held.1 + delta, if index = 0 then held.2 else index)

def collectMention (entities : Dict String Neighbour) (scores : Dict String (ℚ × ℕ))
    (row : MentionRow) : Dict String (ℚ × ℕ) :=
  let signalId := textOf row.signalId
  match entities.get? (textOf row.viaEntity) with
  | some via =>
    if signalId = "" then scores
    else accumulate scores signalId (via.pathScore * row.salience.getD DEFAULT_SALIENCE)
      (chunkIndexOf row.chunkIndex)
  | none => scores

def collectDirect (signals : Dict String Neighbour) (scores : Dict String (ℚ × ℕ))
    (signalId : Option String) : Dict String (ℚ × ℕ) :=
  match signals.get? (textOf signalId) with
  | some node => accumulate scores (textOf signalId) node.pathScore 0
  | none => scores

def collectSignals (hood : Neighbourhood) (mentions : List MentionRow)
    (direct : List (Option String)) : Dict String (ℚ × ℕ) :=
  let mentioned := mentions.foldl (collectMention (Neighbourhood.byId hood.entities)) .empty
  direct.foldl (collectDirect (Neighbourhood.byId hood.signalNodes)) mentioned

/-- `_rank`. -/
def rankSignals (scores : Dict String (ℚ × ℕ)) (limit : ℕ) : List Candidate :=
  ((sortedBy (fun item : String × ℚ × ℕ => toLex (-item.2.1, item.1)) scores.items).take
    limit).mapIdx fun position item =>
      { chunkId := Indexing.chunkIdFor item.1 item.2.2
        backend := .graph
        rank := position + 1
        rawScore := item.2.1
        signalId := item.1
        rank_pos := Nat.succ_pos position }

def GraphTraversal.search (backend : GraphTraversal) (seedIds : List String)
    (requestedDepth requestedFanout : Option ℤ) (answers : Answers) (limit : ℤ) :
    Except String (List Candidate) := do
  if limit < 1 then .error s!"limit must be at least 1, got {limit}"
  if seedIds = [] then return []
  let hood ← backend.neighbourhood seedIds requestedDepth requestedFanout answers.hops
  if hood.nodes.items = [] then return []
  return rankSignals (collectSignals hood answers.mentions answers.direct) limit.toNat

end OmniSense.Retrieval
