import OmniSense.Ingest.Writer

/-! The store and the batcher that fills it. -/

namespace OmniSense.Ingest

/-! The graph as the `MERGE` fragments see it, and `GraphWriter.apply` over it. `created_at` and
`updated_at` come from the server clock and nothing reads them, so records leave them out. -/

section

open Library

inductive PropertyType
  | string | boolean | integer | float | datetime | stringList | floatList | point
  deriving DecidableEq, Repr

def PropertyType.isList : PropertyType → Bool
  | .stringList | .floatList => true
  | _ => false

def maxListPropertyLength : ℕ := 100
def maxSourceSignalIds : ℕ := 50

structure PropertySpec where
  name : String
  type : PropertyType
  accumulates : Bool
  maxLength : ℕ
  isList_of_accumulates : accumulates = true → type.isList = true

/-- `prop` without `accumulates`: a `string[]` does, anything else does not. -/
def PropertySpec.prop (name : String) (type : PropertyType) : PropertySpec where
  name := name
  type := type
  accumulates := type = .stringList
  maxLength := maxListPropertyLength
  isList_of_accumulates h := by
    rw [of_decide_eq_true h]
    rfl

structure GraphSchema where
  nodeProperties : EntityType → List PropertySpec
  edgeProperties : EdgeType → List PropertySpec
  nodup_nodeProperties : ∀ t, ((nodeProperties t).map PropertySpec.name).Nodup

/-- The caller's part of `COMMON_PROPERTIES`, less the named fields of a row. -/
def commonProperties : List PropertySpec :=
  [.prop "description" .string,
    ⟨"embedding", .floatList, false, maxListPropertyLength, Bool.noConfusion⟩,
    .prop "confidence" .float, .prop "merged_from" .stringList]

/-- `own_properties` of each label. -/
def ownProperties : EntityType → List PropertySpec
  | .company =>
    [.prop "legal_name" .string, .prop "ticker" .string, .prop "exchange" .string,
      .prop "domain" .string, .prop "founded_year" .integer, .prop "employee_band" .string,
      .prop "status" .string, .prop "industry_codes" .stringList]
  | .product =>
    [.prop "category" .string, .prop "version" .string, .prop "lifecycle_state" .string,
      .prop "announced_at" .datetime, .prop "released_at" .datetime, .prop "pricing_model" .string]
  | .person =>
    [.prop "given_name" .string, .prop "family_name" .string, .prop "role_title" .string,
      .prop "handles" .stringList, .prop "is_public_figure" .boolean]
  | .topic =>
    [.prop "slug" .string, .prop "parent_topic_id" .string, .prop "keywords" .stringList,
      .prop "is_emergent" .boolean, .prop "first_trended_at" .datetime]
  | .technology =>
    [.prop "category" .string, .prop "maturity" .string, .prop "vendor_company_id" .string]
  | .region =>
    [.prop "iso_code" .string, .prop "level" .string, .prop "parent_region_id" .string,
      .prop "centroid" .point]
  | .event =>
    [.prop "event_type" .string, .prop "occurred_at" .datetime,
      .prop "occurred_at_precision" .string, .prop "region_id" .string, .prop "severity" .float]
  | .unknown => []

theorem nodup_properties (t : EntityType) :
    ((commonProperties ++ ownProperties t).map PropertySpec.name).Nodup := by
  cases t <;> decide

def nodeSchema (edgeProperties : EdgeType → List PropertySpec) : GraphSchema where
  nodeProperties t := commonProperties ++ ownProperties t
  edgeProperties := edgeProperties
  nodup_nodeProperties := nodup_properties

/-- `list_union_expression`. -/
def listUnion {α : Type*} [DecidableEq α] (target source : List α) (cap : ℕ) : List α :=
  (appendNew [] (target ++ source)).take cap

def Value.asList : Option Value → List Scalar
  | some (.list xs) => xs
  | some (.tuple xs) => xs
  | _ => []

def Value.stored : Value → Value
  | .tuple xs => .list xs
  | v => v

/-- One assignment of `_set_expression`. -/
def setProperty (row : Properties) (stored : Properties) (spec : PropertySpec) : Properties :=
  if spec.accumulates then
    stored.alter spec.name fun old =>
      .list (listUnion (Value.asList old) (Value.asList (row.get? spec.name)) spec.maxLength)
  else
    match row.get? spec.name with
    | none => stored
    | some .null => stored
    | some v => stored.alter spec.name fun _ => v.stored

def setProperties (specs : List PropertySpec) (row stored : Properties) : Properties :=
  specs.foldl (setProperty row) stored

structure NodeRecord where
  tenantId : String
  canonicalName : String
  normalizedName : String
  aliases : List String
  properties : Properties
  sourceCount : ℕ
  firstSeen : Option ℤ
  lastSeen : Option ℤ
  schemaVersion : ℕ
  lastBatchId : Option String

structure EdgeRecord where
  tenantId : String
  validFrom : ℤ
  observedAt : ℤ
  validTo : Option ℤ
  confidence : Option ℚ
  extractor : Option String
  sourceSignalIds : List String
  properties : Properties
  evidenceCount : ℕ
  schemaVersion : ℕ
  lastBatchId : Option String

abbrev NodeRef := EntityType × String

structure EdgeRef where
  group : EdgeGroup
  fromId : String
  toId : String
  key : String
  deriving DecidableEq

structure Store where
  nodes : NodeRef → Option NodeRecord
  signals : String → Option SignalStub
  edges : EdgeRef → Option EdgeRecord

def Store.empty : Store := ⟨fun _ => none, fun _ => none, fun _ => none⟩

/-- A `GraphWriter` and what its statements are generated from. -/
structure Writer where
  schema : GraphSchema
  digest : Digest
  schemaVersion : ℕ

namespace Writer

variable (w : Writer) (batchId : String)

/-- The `SET` of `nodes.merge_cypher`: a count moves unless this batch was the last to touch it. -/
def setNode (t : EntityType) (row : NodeRow) (old : Option NodeRecord) : NodeRecord where
  tenantId := row.tenantId
  canonicalName := row.canonicalName
  normalizedName := row.normalizedName
  aliases := listUnion (old.elim [] NodeRecord.aliases) row.aliases maxListPropertyLength
  properties := setProperties (w.schema.nodeProperties t) row.properties
    (old.elim .empty NodeRecord.properties)
  sourceCount := old.elim 0 NodeRecord.sourceCount +
    if old.bind NodeRecord.lastBatchId = some batchId then 0 else row.newSignalCount
  firstSeen := match old.bind NodeRecord.firstSeen with
    | none => some row.observedAt
    | some seen => some (if row.observedAt < seen then row.observedAt else seen)
  lastSeen := match old.bind NodeRecord.lastSeen with
    | none => some row.observedAt
    | some seen => some (if row.observedAt > seen then row.observedAt else seen)
  schemaVersion := w.schemaVersion
  lastBatchId := some batchId

/-- The `SET` of `edges.merge_cypher`; `valid_from` and `observed_at` are set on creation only. -/
def setEdge (t : EdgeType) (row : EdgeRow) (old : Option EdgeRecord) : EdgeRecord where
  tenantId := row.tenantId
  validFrom := old.elim row.validFrom EdgeRecord.validFrom
  observedAt := old.elim row.observedAt EdgeRecord.observedAt
  validTo := row.validTo.or (old.bind EdgeRecord.validTo)
  confidence := row.confidence.or (old.bind EdgeRecord.confidence)
  extractor := row.extractor.or (old.bind EdgeRecord.extractor)
  sourceSignalIds :=
    listUnion (old.elim [] EdgeRecord.sourceSignalIds) row.sourceSignalIds maxSourceSignalIds
  properties := setProperties (w.schema.edgeProperties t) row.properties
    (old.elim .empty EdgeRecord.properties)
  evidenceCount := old.elim 0 EdgeRecord.evidenceCount +
    if old.bind EdgeRecord.lastBatchId = some batchId then 0 else row.newEvidence
  schemaVersion := w.schemaVersion
  lastBatchId := some batchId

end Writer

/-- `MATCH (a:Label {id: .., tenant_id: ..})`. -/
def Store.holds (s : Store) (label : Label) (id tenantId : String) : Bool :=
  match label with
  | .entity t => (s.nodes (t, id)).any fun n => n.tenantId = tenantId
  | .signal => (s.signals id).any fun n => n.tenantId = tenantId

def Store.matchesEnds (s : Store) (g : EdgeGroup) (row : EdgeRow) : Bool :=
  s.holds g.fromLabel row.fromId row.tenantId && s.holds g.toLabel row.toId row.tenantId

def EdgeRow.ref (g : EdgeGroup) (row : EdgeRow) : EdgeRef := ⟨g, row.fromId, row.toId, row.edgeKey⟩

/-- What each statement returns as `written`, in order. -/
structure Counts where
  nodes : List ℕ
  signals : List ℕ
  edges : List ℕ

namespace Writer

variable (w : Writer)

def runNodes (batchId : String) (groups : List (EntityType × List NodeRow))
    (nodes : NodeRef → Option NodeRecord) : NodeRef → Option NodeRecord :=
  groups.foldl (fun nodes g =>
    upsertAll (fun row => (g.1, row.id)) (w.setNode batchId g.1) g.2 nodes) nodes

def runSignals (rows : List SignalStub) (signals : String → Option SignalStub) :
    String → Option SignalStub := upsertAll SignalStub.id (fun row _ => row) rows signals

def runEdges (batchId : String) (s : Store) (groups : List (EdgeGroup × List EdgeRow)) :
    EdgeRef → Option EdgeRecord :=
  groups.foldl (fun edges g =>
    upsertAll (EdgeRow.ref g.1) (w.setEdge batchId g.1.edgeType)
      (g.2.filter fun row => s.matchesEnds g.1 row) edges) s.edges

def commitPlan (plan : WritePlan) (s : Store) : Store :=
  let s := { s with nodes := w.runNodes plan.batchId plan.nodes s.nodes }
  let s := { s with signals := runSignals plan.signals s.signals }
  { s with edges := w.runEdges plan.batchId s plan.edges }

end Writer

def WritePlan.expected (plan : WritePlan) : Counts :=
  ⟨plan.nodes.map fun g => g.2.length, if plan.signals = [] then [] else [plan.signals.length],
    plan.edges.map fun g => g.2.length⟩

/-- A `MERGE` counts every row, an edge statement those whose endpoints were there. -/
def WritePlan.written (plan : WritePlan) (s : Store) : Counts :=
  { plan.expected with
    edges := plan.edges.map fun g => g.2.countP fun row => s.matchesEnds g.1 row }

/-! ## `apply` -/

/-- `_missing_endpoint_ids`, sorted. -/
def missingEndpointIds (batch : GraphBatch) (g : EdgeGroup) : List String :=
  let known := batch.nodes.map NodeWrite.id ++ batch.signals.map SignalStub.id
  let ids := (batch.edges.filter fun e => e.group = g).flatMap fun e =>
    [e.oriented.1, e.oriented.2.2.1]
  ((ids.dedup).filter fun i => i ∉ known).insertionSort (· ≤ ·)

inductive GraphWriteError
  | driver
  | edges (group : EdgeGroup) (got expected : ℕ) (missing : List String)

/-- `_verify`. Node and signal statements always write what was expected of them. -/
def WritePlan.verify (plan : WritePlan) (batch : GraphBatch) (s : Store) :
    Except GraphWriteError Unit :=
  match plan.edges.find? fun g => (g.2.countP fun row => s.matchesEnds g.1 row) ≠ g.2.length with
  | none => .ok ()
  | some g =>
    .error (.edges g.1 (g.2.countP fun row => s.matchesEnds g.1 row) g.2.length
      ((missingEndpointIds batch g.1).take 10))

structure WriteOutcome where
  batchId : String
  nodesWritten : ℕ
  signalsWritten : ℕ
  edgesWritten : ℕ
  statementCount : ℕ

inductive TxOutcome
  | rolledBack
  | unacknowledged
  | answered
  deriving DecidableEq, Repr

def TxOutcome.commits : TxOutcome → Bool
  | .rolledBack => false
  | _ => true

namespace Writer

variable (w : Writer)

def apply (batch : GraphBatch) (tx : TxOutcome) (s : Store) :
    Store × Except GraphWriteError WriteOutcome :=
  let plan := batch.plan w.digest
  if plan.isEmpty then
    (s, .ok ⟨plan.batchId, 0, 0, 0, 0⟩)
  else
    match tx with
    | .rolledBack => (s, .error .driver)
    | .unacknowledged => (w.commitPlan plan s, .error .driver)
    | .answered =>
      let s' := w.commitPlan plan s
      (s', (plan.verify batch s').map fun _ =>
        let counts := plan.written s'
        ⟨plan.batchId, counts.nodes.sum, counts.signals.sum, counts.edges.sum,
          counts.nodes.length + counts.signals.length + counts.edges.length⟩)

end Writer

end

/-! `WriteBatcher` over a `GraphWriter`, at the granularity of its awaits: a flush takes a prefix
of the buffer, tries it until it is written, and only then removes it. -/

structure BatcherConfig where
  maxBatchRows : ℕ
  maxAge : ℚ
  capacityBatches : ℕ
  maxAttempts : ℕ
  -- Whether `on_dead_letter` is wired.
  deadLetter : Bool
  one_le_maxBatchRows : 1 ≤ maxBatchRows
  maxAge_pos : 0 < maxAge
  one_le_capacityBatches : 1 ≤ capacityBatches

variable (cfg : BatcherConfig)

def BatcherConfig.capacity : ℕ := cfg.maxBatchRows * cfg.capacityBatches

structure Flight where
  take : List GraphWrite
  attempt : ℕ

structure Batcher where
  buffer : List GraphWrite
  deadline : Option ℚ
  pressured : Bool
  closing : Bool
  flight : Option Flight

def Batcher.new : Batcher := ⟨[], none, false, false, none⟩

inductive SubmitResult
  | accepted | waits | closed
  deriving DecidableEq, Repr

/-- `submit`, up to its wait for capacity: a caller told to wait calls again when woken. -/
def Batcher.submit (now : ℚ) (item : GraphWrite) (b : Batcher) :
    Batcher × SubmitResult :=
  if b.closing then (b, .closed)
  else if cfg.capacity ≤ b.buffer.length then ({ b with pressured := true }, .waits)
  else
    ({ b with
        buffer := b.buffer ++ [item]
        deadline := if b.buffer.isEmpty then some (now + cfg.maxAge) else b.deadline },
      .accepted)

/-- The head of `flush`: take the lock, then up to one batch of rows. -/
def Batcher.beginFlush (b : Batcher) : Batcher :=
  if b.flight.isNone ∧ ¬b.buffer.isEmpty then
    { b with flight := some ⟨b.buffer.take cfg.maxBatchRows, 1⟩ }
  else b

/-- The tail of `flush`: the rows taken leave the buffer and the lock is released. -/
def Batcher.endFlush (now : ℚ) (f : Flight) (b : Batcher) : Batcher :=
  let rest := b.buffer.drop f.take.length
  { b with
    buffer := rest
    deadline := if rest.isEmpty then none else some (now + cfg.maxAge)
    pressured := if rest.length ≤ cfg.capacity / 2 then false else b.pressured
    flight := none }

structure System where
  batcher : Batcher
  store : Store
  dead : List GraphWrite

inductive Event
  | submit (item : GraphWrite) (now : ℚ)
  | flush
  -- One `apply` of the rows in flight.
  | attempt (tx : TxOutcome) (now : ℚ)
  -- The flush is cancelled while its transaction is out, or while it backs off.
  | cancel (tx : TxOutcome)
  | close

namespace System

def step (w : Writer) (s : System) : Event → System
  | .submit item now => { s with batcher := (s.batcher.submit cfg now item).1 }
  | .flush => { s with batcher := s.batcher.beginFlush cfg }
  | .attempt tx now =>
    match s.batcher.flight with
    | none => s
    | some f =>
      match w.apply (.of f.take) tx s.store with
      | (store, .ok _) => { s with batcher := s.batcher.endFlush cfg now f, store := store }
      | (store, .error _) =>
        if f.attempt < cfg.maxAttempts then
          { s with
            batcher := { s.batcher with flight := some { f with attempt := f.attempt + 1 } }
            store := store }
        else if cfg.deadLetter then
          ⟨s.batcher.endFlush cfg now f, store, s.dead ++ f.take⟩
        else { s with batcher := { s.batcher with flight := none }, store := store }
  | .cancel tx =>
    match s.batcher.flight with
    | none => s
    | some f =>
      { s with
        batcher := { s.batcher with flight := none }
        store := (w.apply (.of f.take) tx s.store).1 }
  | .close => { s with batcher := { s.batcher with closing := true } }

end System

end OmniSense.Ingest
