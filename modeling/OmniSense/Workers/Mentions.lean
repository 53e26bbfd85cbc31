import OmniSense.Ingest.Store
import OmniSense.Models.Json

/-! `GraphWorker`: a Signal's row as `StoreStage` writes it, and the batch that its mentions make. -/

namespace OmniSense.Workers

open Ingest Library

/-- What Python's `unicodedata`, `str` and `uuid` supply; `text` is `str()` of what is no string. -/
structure Python where
  nfkd : List Char → List Char
  combining : Char → Bool
  casefold : List Char → List Char
  isalnum : Char → Bool
  text : Json → String
  uuid5 : String → String

/-- `_as_float`; a `bool` is no number. -/
def asFloat (value : Option Json) (default : ℚ) : ℚ :=
  match value with
  | some (.number q) => q
  | _ => default

/-! ## `normalize_name` -/

def legalSuffixTokens : List String :=
  ["inc", "incorporated", "corp", "corporation", "co", "company", "llc", "lc", "llp", "lp", "ltd",
    "limited", "plc", "gmbh", "mbh", "ag", "sa", "sas", "sarl", "srl", "spa", "bv", "nv", "ab", "as",
    "oy", "oyj", "kk", "pty", "pte", "kft", "zrt", "doo", "dba"]

def leadingArticles : List String := ["the"]

def apostrophes : List Char := [0x27, 0x2019, 0x2018, 0x2bc, 0x60, 0xb4].map Char.ofNat

/-- `str.split`. -/
def splitWords (text : List Char) : List String :=
  ((text.splitOnP isSpace).filter fun word => !word.isEmpty).map String.ofList

namespace Python

variable (py : Python)

def normalizeName (raw : String) : String :=
  let strippedMarks := (py.nfkd raw.toList).filter fun ch => !py.combining ch
  let expanded := strippedMarks.flatMap fun ch => if ch = '&' then " and ".toList else [ch]
  let withoutApostrophes := (py.casefold expanded).filter fun ch => ch ∉ apostrophes
  let tokens := splitWords (withoutApostrophes.map fun ch => if py.isalnum ch then ch else ' ')
  let tokens :=
    if 1 < tokens.length ∧ tokens.head?.any (· ∈ leadingArticles) then tokens.tail else tokens
  let kept := tokens.filter (· ∉ legalSuffixTokens)
  " ".intercalate (if kept.isEmpty then tokens else kept)

/-- `str(value)`. -/
def word : Json → String
  | .str s => s
  | value => py.text value

def deterministicId (entityType : EntityType) (normalizedName : String) : String :=
  "ent_" ++ py.uuid5 (entityType.label ++ ":" ++ normalizedName)

end Python

def entityTypes : List EntityType := nodeSpecs ++ [.unknown]

/-- `EntityType(value)`: the value itself, else whatever case it is in, else `UNKNOWN`. -/
def Python.entityType (py : Python) (value : String) : EntityType :=
  let folded := py.casefold (strip value).toList
  ((entityTypes.find? fun t => t.label = value).or
    (entityTypes.find? fun t => py.casefold t.label.toList = folded)).getD .unknown

/-! ## What the store writes -/

structure EntityMention where
  surface : String
  type : EntityType
  start : ℕ
  stop : ℕ
  candidateIds : List String
  resolvedId : Option String
  linkScore : Option ℚ
  surface_ne : surface ≠ ""
  start_lt_stop : start < stop
  resolved_mem : ∀ id ∈ resolvedId, id ∈ candidateIds
  linkScore_eq_none : resolvedId = none → linkScore = none

/-- `model_dump(mode="json")`. -/
def EntityMention.dump (mention : EntityMention) : Json :=
  .object [("surface", .str mention.surface), ("type", .str mention.type.label),
    ("start", .number mention.start), ("end", .number mention.stop),
    ("candidate_ids", .array (mention.candidateIds.map .str)),
    ("resolved_id", mention.resolvedId.elim .null .str),
    ("link_score", mention.linkScore.elim .null .number)]

structure Signal where
  id : String
  source : String
  platform : String
  timestamp : ℤ
  entities : List EntityMention
  status : String
  duplicateOf : Option String

structure SignalRow where
  id : String
  source : String
  platform : String
  timestamp : ℤ
  entities : List Json
  status : String
  duplicateOf : Option String

def rowValues (signal : Signal) : SignalRow where
  id := signal.id
  source := signal.source
  platform := signal.platform
  timestamp := signal.timestamp
  entities := signal.entities.map EntityMention.dump
  status := signal.status
  duplicateOf := signal.duplicateOf

/-! ## What the worker reads -/

inductive Attribute
  | null
  | bool (b : Bool)
  | str (s : String)
  | time (t : ℤ)
  | json (items : List Json)

def SignalRow.getattr (row : SignalRow) (name : String) : Option Attribute :=
  if name = "id" then some (.str row.id)
  else if name = "source" then some (.str row.source)
  else if name = "platform" then some (.str row.platform)
  else if name = "timestamp" then some (.time row.timestamp)
  else if name = "entities" then some (.json row.entities)
  else if name = "status" then some (.str row.status)
  else if name = "duplicate_of" then some (row.duplicateOf.elim .null .str)
  else none

structure View where
  id : String
  publishedAt : Option ℤ
  source : Option String
  platform : Option String
  isCanonical : Bool
  entities : List Json

/-- `_load`, once it has found the row. -/
def SignalRow.view (row : SignalRow) : View where
  id := row.id
  publishedAt := match row.getattr "published_at" with
    | some (.time t) => some t
    | _ => none
  source := match row.getattr "source" with
    | some (.str s) => some s
    | _ => none
  platform := match row.getattr "platform" with
    | some (.str s) => some s
    | _ => none
  isCanonical := match row.getattr "is_canonical" with
    | some (.bool b) => b
    | _ => true
  entities := match row.getattr "entities" with
    | some (.json items) => items
    | _ => []

/-! ## The batch -/

structure Resolved where
  entityId : String
  canonicalName : String
  normalizedName : String

/-- Where a batch goes; a `WriteBatcher` has no method `add`. -/
inductive Sink
  | nowhere
  | writer
  | batcher
  deriving DecidableEq

structure GraphWorker where
  py : Python
  sink : Sink
  resolver : Option (String → EntityType → Option Resolved)
  tenantId : String

structure Named where
  mention : List (String × Json)
  entityType : EntityType
  resolved : Resolved
  has_spec : entityType ∈ nodeSpecs

def minMentionSalience : ℚ := 1 / 10
def maxAliases : ℕ := 20

def aliasesOf (mention : List (String × Json)) (canonicalName : String) : List String :=
  match Json.get mention "aliases" with
  | some (.array raw) =>
    ((raw.filterMap Json.asString).filter fun name => name ≠ "" ∧ name ≠ canonicalName).take
      maxAliases
  | _ => []

theorem mem_nodeSpecs {t : EntityType} (h : t ≠ .unknown) : t ∈ nodeSpecs := by
  cases t <;> first | decide | exact absurd rfl h

namespace GraphWorker

variable (w : GraphWorker)

/-- `_resolve`, once it has a name and a known type. -/
def resolveName (rawName : String) (entityType : EntityType) : Option Resolved :=
  (w.resolver.bind fun resolve => resolve rawName entityType).or
    (let normalized := w.py.normalizeName rawName
    if normalized = "" then none
    else some ⟨w.py.deterministicId entityType normalized, strip rawName, normalized⟩)

def resolve (mention : List (String × Json)) : Option Named :=
  match (Json.getOr mention "name" "text").bind Json.asString with
  | none => none
  | some rawName =>
    if strip rawName = "" then none
    else
      let entityType :=
        match (Json.getOr mention "type" "entity_type").bind Json.asString with
        | some rawType => w.py.entityType rawType
        | none => .unknown
      if h : entityType = .unknown then none
      else (w.resolveName rawName entityType).map fun resolved =>
        ⟨mention, entityType, resolved, mem_nodeSpecs h⟩

def nodeWrite (observedAt : ℤ) (named : Named) : NodeWrite where
  entityType := named.entityType
  id := named.resolved.entityId
  tenantId := w.tenantId
  canonicalName := named.resolved.canonicalName
  normalizedName := named.resolved.normalizedName
  observedAt := observedAt
  aliases := aliasesOf named.mention named.resolved.canonicalName
  newSignalCount := 1
  properties := .empty
  has_spec := named.has_spec

theorem mentions_mem : EdgeType.mentions ∈ edgeSpecs := by decide

def edgeWrite (signalId : String) (observedAt : ℤ) (named : Named) : EdgeWrite where
  edgeType := .mentions
  sourceLabel := .signal
  sourceId := signalId
  targetLabel := .entity named.entityType
  targetId := named.resolved.entityId
  tenantId := w.tenantId
  validFrom := observedAt
  observedAt := observedAt
  validTo := none
  confidence := some (asFloat (Json.get named.mention "confidence") (1 / 2))
  extractor := some ((Json.getTrue named.mention "extractor").elim "llm" w.py.word)
  sourceSignalIds := [signalId]
  newEvidence := 1
  evidenceKey := signalId ++ ":" ++ named.resolved.entityId
  properties := Dict.empty.set "salience"
    (.scalar (.float (asFloat (Json.get named.mention "salience") 0)))
  has_spec := mentions_mem

structure Built where
  seenIds : List String
  nodes : List NodeWrite
  edges : List EdgeWrite

def addMention (signalId : String) (observedAt : ℤ) (built : Built)
    (mention : List (String × Json)) : Built :=
  match w.resolve mention with
  | none => built
  | some named =>
    { seenIds :=
        if named.resolved.entityId ∈ built.seenIds then built.seenIds
        else built.seenIds ++ [named.resolved.entityId]
      nodes :=
        if named.resolved.entityId ∈ built.seenIds then built.nodes
        else built.nodes ++ [w.nodeWrite observedAt named]
      edges := built.edges ++ [w.edgeWrite signalId observedAt named] }

def salient (view : View) : List (List (String × Json)) :=
  (view.entities.filterMap Json.asMapping).filter fun mention =>
    minMentionSalience ≤ asFloat (Json.get mention "salience") 1

def stub (view : View) (observedAt : ℤ) : SignalStub where
  id := view.id
  tenantId := w.tenantId
  publishedAt := observedAt
  source := view.source.getD "unknown"
  platform := view.platform.getD "unknown"

def buildBatch (view : View) (now : ℤ) : Option GraphBatch :=
  let observedAt := view.publishedAt.getD now
  let built := (salient view).foldl (w.addMention view.id observedAt) ⟨[], [], []⟩
  if built.nodes.isEmpty then none
  else some ⟨built.nodes, [w.stub view observedAt], built.edges⟩

inductive Handled
  | missing
  | duplicate
  -- `graphed_at` is stamped; the batch the writer was handed.
  | stamped (batch : Option GraphBatch)

def Handled.batch : Handled → Option GraphBatch
  | .stamped batch => batch
  | _ => none

inductive HandleError
  | noAdd
  | write (err : GraphWriteError)

/-- `handle`, once `_load` has looked for the row. -/
def handle (gw : Writer) (row : Option SignalRow) (now : ℤ) (tx : TxOutcome) (s : Store) :
    Store × Except HandleError Handled :=
  match row with
  | none => (s, .ok .missing)
  | some row =>
    if !row.view.isCanonical then (s, .ok .duplicate)
    else
      match w.buildBatch row.view now with
      | none => (s, .ok (.stamped none))
      | some batch =>
        match w.sink with
        | .nowhere => (s, .ok (.stamped none))
        | .batcher => (s, .error .noAdd)
        | .writer =>
          ((gw.apply batch tx s).1,
            ((gw.apply batch tx s).2.mapError .write).map fun _ => .stamped (some batch))

end GraphWorker

/-! ## The store's mentions and the worker's -/

def EntityMention.Eligible (py : Python) (mention : EntityMention) : Prop :=
  mention.type ≠ .unknown ∧ py.normalizeName mention.surface ≠ ""

namespace GraphWorker

variable (w : GraphWorker)

def entityOf (mention : EntityMention) : Option String :=
  (w.resolveName mention.surface mention.type).map Resolved.entityId

/-- The writer gets one node for each entity of the Signal and an edge for each mention, and nothing
for a duplicate. -/
def Reflects (signal : Signal) (batch : Option GraphBatch) (before after : Store) : Prop :=
  if signal.duplicateOf.isSome then batch = none ∧ after = before
  else
    (∀ mention ∈ signal.entities, mention.Eligible w.py →
      ∀ id ∈ w.entityOf mention, ((batch.elim [] GraphBatch.nodes).filter (·.id = id)).length = 1) ∧
    (∀ node ∈ batch.elim [] GraphBatch.nodes,
      ∃ mention ∈ signal.entities, mention.type ≠ .unknown ∧ node.id ∈ w.entityOf mention) ∧
    ∀ mention ∈ signal.entities, mention.Eligible w.py →
      ∃ edge ∈ batch.elim [] GraphBatch.edges, edge.edgeType = .mentions ∧
        edge.sourceId = signal.id ∧ edge.targetLabel = .entity mention.type ∧
        edge.targetId ∈ w.entityOf mention

variable {w}

theorem resolve_dump (mention : EntityMention) :
    ∀ fields ∈ mention.dump.asMapping, w.resolve fields = none := by
  intro fields hfields
  cases hfields
  have hname : (Json.getOr [("surface", .str mention.surface), ("type", .str mention.type.label),
      ("start", .number mention.start), ("end", .number mention.stop),
      ("candidate_ids", .array (mention.candidateIds.map .str)),
      ("resolved_id", mention.resolvedId.elim .null .str),
      ("link_score", mention.linkScore.elim .null .number)] "name" "text").bind Json.asString =
        none := by
    simp [Json.getOr, Json.getTrue, Json.get]
  unfold resolve
  rw [hname]

theorem buildBatch_stored (signal : Signal) (now : ℤ) :
    w.buildBatch (rowValues signal).view now = none := by
  have hview : (rowValues signal).view.entities = signal.entities.map EntityMention.dump := by
    simp [SignalRow.view, SignalRow.getattr, rowValues]
  have hsalient : ∀ fields ∈ salient (rowValues signal).view, w.resolve fields = none := by
    intro fields hfields
    obtain ⟨json, hjson, hmapping⟩ := List.mem_filterMap.mp (List.mem_of_mem_filter hfields)
    rw [hview] at hjson
    obtain ⟨mention, -, rfl⟩ := List.mem_map.mp hjson
    exact resolve_dump mention fields hmapping
  have hkept : ∀ (mentions : List (List (String × Json))) (id : String) (observedAt : ℤ),
      (∀ fields ∈ mentions, w.resolve fields = none) → ∀ built,
        mentions.foldl (w.addMention id observedAt) built = built := by
    intro mentions id observedAt hnone
    induction mentions with
    | nil => exact fun _ => rfl
    | cons fields mentions ih =>
      intro built
      obtain ⟨hfields, hrest⟩ := List.forall_mem_cons.mp hnone
      have hadd : w.addMention id observedAt built fields = built := by
        unfold addMention
        rw [hfields]
      rw [List.foldl_cons, hadd]
      exact ih hrest built
  unfold buildBatch
  dsimp only
  rw [hkept _ _ _ hsalient]
  rfl

theorem handle_stored (gw : Writer) (signal : Signal) (now : ℤ) (tx : TxOutcome) (s : Store) :
    w.handle gw (some (rowValues signal)) now tx s = (s, .ok (.stamped none)) := by
  have hcanonical : (rowValues signal).view.isCanonical = true := by
    simp [SignalRow.view, SignalRow.getattr]
  unfold handle
  dsimp only
  rw [hcanonical, buildBatch_stored]
  rfl

/-- The graph gets what the store wrote if and only if there is nothing that it should get. -/
theorem reflects_iff (w : GraphWorker) (gw : Writer) (signal : Signal) (now : ℤ) (tx : TxOutcome)
    (s : Store) (handled : Handled)
    (hdone : (w.handle gw (some (rowValues signal)) now tx s).2 = .ok handled) :
    w.Reflects signal handled.batch s (w.handle gw (some (rowValues signal)) now tx s).1 ↔
      signal.duplicateOf.isSome ∨ ∀ mention ∈ signal.entities, ¬ mention.Eligible w.py := by
  rw [handle_stored] at hdone ⊢
  cases hdone
  unfold Reflects
  by_cases hduplicate : signal.duplicateOf.isSome
  · rw [if_pos hduplicate]
    exact iff_of_true ⟨rfl, rfl⟩ (.inl hduplicate)
  · rw [if_neg hduplicate]
    constructor
    · rintro ⟨-, -, hedges⟩
      refine .inr fun mention hmention heligible => ?_
      obtain ⟨edge, hedge, -⟩ := hedges mention hmention heligible
      exact List.not_mem_nil hedge
    · intro h
      have hnone := h.resolve_left hduplicate
      refine ⟨fun mention hmention heligible => absurd heligible (hnone mention hmention),
        fun node hnode => absurd hnode List.not_mem_nil,
        fun mention hmention heligible => absurd heligible (hnone mention hmention)⟩

def samplePython : Python where
  nfkd := id
  combining _ := false
  casefold := List.map Char.toLower
  isalnum := Char.isAlphanum
  text _ := ""
  uuid5 s :=
    if s = "Company:acme" then "8c727271-9bb6-5fd0-99fb-2e71dc7914bb"
    else if s = "Company:globex" then "adf74511-f260-56c9-af86-a6a5eef88968"
    else s

def sampleWorker : GraphWorker := ⟨samplePython, .writer, none, "default"⟩

theorem acme_ne_empty : "Acme" ≠ "" := by decide

theorem acme_span : 0 < 4 := by decide

theorem acme_unresolved : ∀ id ∈ (none : Option String), id ∈ ([] : List String) :=
  fun _ h => absurd h (Option.not_mem_none _)

theorem acme_unscored : (none : Option String) = none → (none : Option ℚ) = none := fun _ => rfl

def acmeMention : EntityMention where
  surface := "Acme"
  type := .company
  start := 0
  stop := 4
  candidateIds := []
  resolvedId := none
  linkScore := none
  surface_ne := acme_ne_empty
  start_lt_stop := acme_span
  resolved_mem := acme_unresolved
  linkScore_eq_none := acme_unscored

def acmeSignal (duplicateOf : Option String) : Signal where
  id := "sig_1"
  source := "news"
  platform := "rss"
  timestamp := 0
  entities := [acmeMention]
  status := "enriched"
  duplicateOf := duplicateOf

def plainWriter : Writer := ⟨nodeSchema fun _ => [], ⟨id, fun _ => "1970-01-01T00:00:00+00:00"⟩, 1⟩

theorem reflects_duplicate : ∃ handled,
    (sampleWorker.handle plainWriter (some (rowValues (acmeSignal (some "sig_0")))) 0 .answered
      .empty).2 = .ok handled ∧
    sampleWorker.Reflects (acmeSignal (some "sig_0")) handled.batch .empty
      (sampleWorker.handle plainWriter (some (rowValues (acmeSignal (some "sig_0")))) 0 .answered
        .empty).1 := by
  have hdone : (sampleWorker.handle plainWriter (some (rowValues (acmeSignal (some "sig_0")))) 0
      .answered .empty).2 = .ok (.stamped none) := congrArg Prod.snd (handle_stored _ _ _ _ _)
  exact ⟨_, hdone, (reflects_iff sampleWorker plainWriter _ 0 .answered .empty _ hdone).mpr
    (.inl rfl)⟩

/-- A canonical Signal names a company, and the graph does not hear of it. -/
theorem stored_mention_unread : ∃ handled,
    (sampleWorker.handle plainWriter (some (rowValues (acmeSignal none))) 0 .answered .empty).2 =
      .ok handled ∧
    ¬ sampleWorker.Reflects (acmeSignal none) handled.batch .empty
      (sampleWorker.handle plainWriter (some (rowValues (acmeSignal none))) 0 .answered .empty).1 := by
  refine ⟨.stamped none, congrArg Prod.snd (handle_stored _ _ _ _ _), ?_⟩
  rintro ⟨-, -, hedges⟩
  have heligible : acmeMention.Eligible sampleWorker.py := ⟨by decide, by decide⟩
  obtain ⟨edge, hedge, -⟩ := hedges acmeMention List.mem_cons_self heligible
  exact List.not_mem_nil hedge

end GraphWorker

end OmniSense.Workers
