import Mathlib.Algebra.Order.Ring.Rat
import Mathlib.Data.List.Dedup
import Mathlib.Data.List.Sort
import Mathlib.Data.Prod.Lex
import Mathlib.Data.String.Basic
import OmniSense.Library.Dict
import OmniSense.Models.Common

/-! `GraphWriter.plan`: rows, their grouping into statements, and the batch id. Hashing and
timestamp formatting are what the standard library supplies. -/

namespace OmniSense.Ingest

open Library

/-- `NODE_SPECS` in registry order; `UNKNOWN` has no spec. -/
def nodeSpecs : List EntityType :=
  [.company, .product, .person, .topic, .technology, .region, .event]

inductive EdgeType
  | mentions | competesWith | acquired | uses | complainsAbout | launchedBy | sameAs | duplicateOf
  | unknown
  deriving DecidableEq, Repr

def EdgeType.typeName : EdgeType → String
  | .mentions => "MENTIONS"
  | .competesWith => "COMPETES_WITH"
  | .acquired => "ACQUIRED"
  | .uses => "USES"
  | .complainsAbout => "COMPLAINS_ABOUT"
  | .launchedBy => "LAUNCHED_BY"
  | .sameAs => "SAME_AS"
  | .duplicateOf => "DUPLICATE_OF"
  | .unknown => "UNKNOWN"

def EdgeType.isSymmetric (t : EdgeType) : Bool := t = .competesWith ∨ t = .sameAs

/-- `EDGE_SPECS` in registry order. -/
def edgeSpecs : List EdgeType :=
  [.mentions, .competesWith, .acquired, .uses, .complainsAbout, .launchedBy, .sameAs, .duplicateOf]

inductive Label
  | entity (t : EntityType)
  | signal
  deriving DecidableEq, Repr

def Label.name : Label → String
  | .entity t => t.label
  | .signal => "Signal"

inductive Scalar
  | str (s : String)
  | int (n : ℤ)
  | float (q : ℚ)
  | bool (b : Bool)
  | time (t : ℤ)
  | point (coordinates : List (String × ℚ))
  deriving DecidableEq

inductive Value
  | null
  | scalar (s : Scalar)
  | list (xs : List Scalar)
  | tuple (xs : List Scalar)
  deriving DecidableEq

abbrev Properties := Dict String Value

/-! ## Rows -/

structure NodeWrite where
  entityType : EntityType
  id : String
  tenantId : String
  canonicalName : String
  normalizedName : String
  observedAt : ℤ
  aliases : List String
  newSignalCount : ℕ
  properties : Properties
  has_spec : entityType ∈ nodeSpecs

structure SignalStub where
  id : String
  tenantId : String
  publishedAt : ℤ
  source : String
  platform : String

structure EdgeWrite where
  edgeType : EdgeType
  sourceLabel : Label
  sourceId : String
  targetLabel : Label
  targetId : String
  tenantId : String
  validFrom : ℤ
  observedAt : ℤ
  validTo : Option ℤ
  confidence : Option ℚ
  extractor : Option String
  sourceSignalIds : List String
  newEvidence : ℕ
  evidenceKey : String
  properties : Properties
  has_spec : edgeType ∈ edgeSpecs

/-- What `hashlib` and `datetime` supply: the first 32 hex digits of a SHA-256, and ISO-8601. -/
structure Digest where
  sha256 : String → String
  isoformat : ℤ → String

namespace EdgeWrite

/-- `orient`: `(from_id, from_label, to_id, to_label)`. -/
def oriented (e : EdgeWrite) : String × Label × String × Label :=
  if e.edgeType.isSymmetric ∧ e.targetId < e.sourceId then
    (e.targetId, e.targetLabel, e.sourceId, e.sourceLabel)
  else (e.sourceId, e.sourceLabel, e.targetId, e.targetLabel)

/-- `edge_key` over the oriented endpoints. -/
def key (dg : Digest) (e : EdgeWrite) : String :=
  let (fromId, _, toId, _) := e.oriented
  dg.sha256 ("\x1f".intercalate
    [e.edgeType.typeName, fromId, toId, dg.isoformat e.validFrom, e.evidenceKey])

end EdgeWrite

structure EdgeGroup where
  edgeType : EdgeType
  fromLabel : Label
  toLabel : Label
  deriving DecidableEq

def EdgeWrite.group (e : EdgeWrite) : EdgeGroup :=
  let (_, fromLabel, _, toLabel) := e.oriented
  ⟨e.edgeType, fromLabel, toLabel⟩

structure NodeRow where
  id : String
  tenantId : String
  canonicalName : String
  normalizedName : String
  aliases : List String
  observedAt : ℤ
  newSignalCount : ℕ
  properties : Properties

structure EdgeRow where
  edgeKey : String
  fromId : String
  toId : String
  tenantId : String
  validFrom : ℤ
  validTo : Option ℤ
  observedAt : ℤ
  confidence : Option ℚ
  extractor : Option String
  sourceSignalIds : List String
  newEvidence : ℕ
  properties : Properties

def NodeWrite.toRow (n : NodeWrite) : NodeRow where
  id := n.id
  tenantId := n.tenantId
  canonicalName := n.canonicalName
  normalizedName := n.normalizedName
  aliases := n.aliases
  observedAt := n.observedAt
  newSignalCount := n.newSignalCount
  properties := n.properties

def EdgeWrite.toRow (dg : Digest) (e : EdgeWrite) : EdgeRow where
  edgeKey := e.key dg
  fromId := e.oriented.1
  toId := e.oriented.2.2.1
  tenantId := e.tenantId
  validFrom := e.validFrom
  validTo := e.validTo
  observedAt := e.observedAt
  confidence := e.confidence
  extractor := e.extractor
  sourceSignalIds := e.sourceSignalIds
  newEvidence := e.newEvidence
  properties := e.properties

/-! ## `_merge_rows` -/

/-- The loop body of `_merge_rows` for an open-ended property: two lists union, else later wins. A
tuple is not a list. -/
def mergeValue (value : Value) : Option Value → Value
  | some (.list seen) =>
    match value with
    | .list new => .list (appendNew seen new)
    | v => v
  | _ => value

def mergeProperties (first second : Properties) : Properties :=
  second.items.foldl (fun merged kv =>
    if kv.2 = .null then merged else merged.alter kv.1 (mergeValue kv.2)) first

/-- `_merge_rows` for two rows of one node. -/
def mergeNodeRows (first second : NodeRow) : NodeRow where
  id := second.id
  tenantId := second.tenantId
  canonicalName := second.canonicalName
  normalizedName := second.normalizedName
  aliases := appendNew first.aliases second.aliases
  observedAt := max first.observedAt second.observedAt
  newSignalCount := first.newSignalCount + second.newSignalCount
  properties := mergeProperties first.properties second.properties

/-- `_merge_rows` for two rows of one edge. -/
def mergeEdgeRows (first second : EdgeRow) : EdgeRow where
  edgeKey := second.edgeKey
  fromId := second.fromId
  toId := second.toId
  tenantId := second.tenantId
  validFrom := second.validFrom
  validTo := second.validTo.or first.validTo
  observedAt := max first.observedAt second.observedAt
  confidence := second.confidence.or first.confidence
  extractor := second.extractor.or first.extractor
  sourceSignalIds := appendNew first.sourceSignalIds second.sourceSignalIds
  newEvidence := first.newEvidence + second.newEvidence
  properties := mergeProperties first.properties second.properties

/-! ## Batches and plans -/

structure GraphBatch where
  nodes : List NodeWrite
  signals : List SignalStub
  edges : List EdgeWrite

inductive GraphWrite
  | node (n : NodeWrite)
  | signal (s : SignalStub)
  | edge (e : EdgeWrite)

namespace GraphWrite

def asNode : GraphWrite → Option NodeWrite
  | .node n => some n
  | _ => none

def asSignal : GraphWrite → Option SignalStub
  | .signal s => some s
  | _ => none

def asEdge : GraphWrite → Option EdgeWrite
  | .edge e => some e
  | _ => none

end GraphWrite

def GraphBatch.of (items : List GraphWrite) : GraphBatch :=
  ⟨items.filterMap GraphWrite.asNode, items.filterMap GraphWrite.asSignal,
    items.filterMap GraphWrite.asEdge⟩

def nodeRowsOf (nodes : List NodeWrite) (t : EntityType) : Dict String NodeRow :=
  groupInto NodeWrite.id NodeWrite.toRow mergeNodeRows (nodes.filter fun n => n.entityType = t)

/-- `_group_nodes`: registry order across labels, sorted by id within one. -/
def groupNodes (nodes : List NodeWrite) : List (EntityType × List NodeRow) :=
  (nodeSpecs.filter fun t => !(nodeRowsOf nodes t).items.isEmpty).map fun t =>
    (t, (nodeRowsOf nodes t).values.insertionSort fun a b => a.id ≤ b.id)

/-- `_dedupe_signals`: the last stub of an id wins. -/
def dedupeSignals (signals : List SignalStub) : List SignalStub :=
  (groupInto SignalStub.id id (fun _ later => later) signals).values.insertionSort
    fun a b => a.id ≤ b.id

/-- The rows of one `(type, from_label, to_label)`, one per `edge_key`. -/
def edgeRowsOf (dg : Digest) (edges : List EdgeWrite) (g : EdgeGroup) : Dict String EdgeRow :=
  groupInto (EdgeWrite.key dg) (EdgeWrite.toRow dg) mergeEdgeRows
    (edges.filter fun e => e.group = g)

def edgeGroups (edges : List EdgeWrite) : List EdgeGroup :=
  edgeSpecs.flatMap fun t =>
    ((edges.map EdgeWrite.group).dedup.filter fun g => g.edgeType = t).insertionSort fun a b =>
      (toLex (a.fromLabel.name, a.toLabel.name) : String ×ₗ String) ≤
        toLex (b.fromLabel.name, b.toLabel.name)

/-- `_group_edges`: rows are sorted by the nodes they lock, not by key. -/
def groupEdges (dg : Digest) (edges : List EdgeWrite) : List (EdgeGroup × List EdgeRow) :=
  (edgeGroups edges).map fun g =>
    (g, (edgeRowsOf dg edges g).values.insertionSort fun a b =>
      (toLex (a.fromId, a.toId) : String ×ₗ String) ≤ toLex (b.fromId, b.toId))

def batchIdFor (dg : Digest) (batch : GraphBatch) : String :=
  let parts :=
    batch.nodes.map (fun n =>
      "\x1f".intercalate ["n", n.entityType.label, n.id, toString n.newSignalCount]) ++
    batch.signals.map (fun s => "\x1f".intercalate ["s", s.id]) ++
    batch.edges.map fun e => "\x1f".intercalate ["e", e.key dg, toString e.newEvidence]
  dg.sha256 ("\x1e".intercalate (parts.insertionSort (· ≤ ·)))

structure WritePlan where
  batchId : String
  nodes : List (EntityType × List NodeRow)
  signals : List SignalStub
  edges : List (EdgeGroup × List EdgeRow)

def GraphBatch.plan (dg : Digest) (batch : GraphBatch) : WritePlan where
  batchId := batchIdFor dg batch
  nodes := groupNodes batch.nodes
  signals := dedupeSignals batch.signals
  edges := groupEdges dg batch.edges

def WritePlan.isEmpty (plan : WritePlan) : Prop :=
  plan.nodes.isEmpty ∧ plan.signals.isEmpty ∧ plan.edges.isEmpty

instance (plan : WritePlan) : Decidable plan.isEmpty := inferInstanceAs (Decidable (_ ∧ _))

end OmniSense.Ingest
