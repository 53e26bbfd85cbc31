import OmniSense.Library.Runs
import OmniSense.Retrieval.Splitter

/-! The search stores of one Signal: `StoreStage.apply`, `IndexingWorker.handle` and the ticks of
`EmbeddingBackfillWorker`, any number of each at once, awaited call by awaited call. -/

namespace OmniSense.Indexing

open Retrieval

inductive SignalStatus
  | raw | enriched | partiallyEnriched | duplicate | quarantined
  deriving DecidableEq

def SignalStatus.isRetrievable : SignalStatus → Bool
  | .enriched | .partiallyEnriched => true
  | .raw | .duplicate | .quarantined => false

inductive SourceCategory
  | social | reviews | enterprise | research | news | unknown
  deriving DecidableEq

def strategyFor : SourceCategory → ChunkStrategy
  | .social | .reviews => .whole
  | .research | .enterprise => .heading
  | .news | .unknown => .paragraph

structure Signal where
  title : Option String
  text : List Char
  source : SourceCategory
  status : SignalStatus
  duplicateOf : Option String
  failedStages : Bool
  -- Whether it carries embedding refs.
  embeddings : Bool
  -- `pipeline_version_ordinal` of its pipeline version.
  version : ℕ
  deriving DecidableEq

/-- `_resolve_status`. -/
def Signal.resolved (signal : Signal) : Signal :=
  if signal.status ≠ .raw then signal
  else if signal.duplicateOf.isSome then { signal with status := .duplicate }
  else if signal.failedStages then { signal with status := .partiallyEnriched }
  else { signal with status := .enriched }

def Signal.isIndexable (signal : Signal) : Bool :=
  signal.status.isRetrievable && signal.duplicateOf.isNone

structure SignalRow where
  signal : Signal
  createdAt : ℤ
  indexedKeywordAt : Option ℤ
  indexedVectorAt : Option ℤ
  deriving DecidableEq

def SignalRow.attribute (row : SignalRow) (name : String) : Option String :=
  if name = "content_text" then some (String.ofList row.signal.text)
  else if name = "content_title" then row.signal.title
  else none

/-- `_text_of`; strings have no `text` of their own. -/
def SignalRow.textOf (row : SignalRow) : String :=
  let values := ["clean_text", "text", "content", "title"].filterMap row.attribute
  (values.find? fun value => strip value ≠ "").getD ""

structure Entry where
  chunk : Chunk
  version : ℕ
  deriving DecidableEq

inductive IndexState
  | vector | keyword
  deriving DecidableEq

structure Replica where
  keywordIndexer : Bool
  vectorIndexer : Bool
  vectorSource : Bool
  deriving DecidableEq

structure Settings where
  -- `str.lower`.
  lower : String → String
  maxCharsPerChunk : ℤ
  chunkOverlapChars : ℤ
  bulkBatchSize : ℕ
  upsertBatchSize : ℕ
  -- The database locks the rows that `FOR UPDATE` selects.
  rowLocks : Bool
  -- The backfill's `upsert` of a Signal's text, when an indexer is configured: the entries it
  -- leaves in the vector store, unless it raises.
  backfillUpsert : Option (String → List Entry → Option (List Entry))

/-! ## What the components do, call by call -/

inductive Op
  | upsert (signal : Signal)
  | publish
  | load (replica : Replica)
  | claim
  | release
  | embed
  -- One bulk or upsert request.
  | write (store : IndexState) (batch : List Entry)
  | deleteSignal (store : IndexState)
  | backfill (text : String)
  | stamp (columns : List IndexState)
  -- The indexer raises before it calls anything.
  | refuse
  deriving DecidableEq

/-- The batches of `index_chunks`. -/
def batches (size : ℕ) : List Entry → List Entry → List (List Entry)
  | pending, [] => if pending = [] then [] else [pending]
  | pending, entry :: rest =>
    if size ≤ pending.length + 1 then (pending ++ [entry]) :: batches size [] rest
    else batches size (pending ++ [entry]) rest

section

variable (cfg : Settings)

def chunksFor (signal : Signal) : Except SplitError (List Chunk) :=
  splitText cfg.lower signal.text (strategyFor signal.source) cfg.maxCharsPerChunk
    cfg.chunkOverlapChars none

/-- `keyword_documents` and `chunk_payloads`. -/
def entries (signal : Signal) (chunks : List Chunk) : List Entry :=
  chunks.map fun chunk => ⟨chunk, signal.version⟩

variable (replica : Replica)

/-- `_index_keyword`; a version that cannot be compared is refused. -/
def indexKeyword (signal : Signal) (chunks : List Chunk) : List Op :=
  if replica.keywordIndexer then
    if signal.version < 1 then [.refuse]
    else
      (batches cfg.bulkBatchSize [] (entries signal chunks)).map (.write .keyword) ++
        [.stamp [.keyword]]
  else []

def indexVector (signal : Signal) (chunks : List Chunk) : List Op :=
  if replica.vectorIndexer && replica.vectorSource && signal.embeddings then
    .embed :: (batches cfg.upsertBatchSize [] (entries signal chunks)).map (.write .vector) ++
      [.stamp [.vector]]
  else []

def withdraw : List Op :=
  (if replica.keywordIndexer then [.deleteSignal .keyword] else []) ++
    (if replica.vectorIndexer then [.deleteSignal .vector] else []) ++ [.stamp [.keyword, .vector]]

/-- `handle`, once it has loaded the row. -/
def handle (signal : Signal) : List Op :=
  if !signal.isIndexable then withdraw replica
  else
    match chunksFor cfg signal with
    | .error _ => [.refuse]
    | .ok [] => [.stamp [.keyword, .vector]]
    | .ok chunks => indexKeyword cfg replica signal chunks ++ indexVector cfg replica signal chunks

/-- `StoreStage.apply`. -/
def storeApply (signal : Signal) : List Op := [.upsert signal.resolved, .publish]

/-- `tick`, once it has claimed the row. -/
def claimed (row : SignalRow) : List Op :=
  if row.textOf = "" then [.stamp [.vector], .release]
  else [.release, .embed, .backfill row.textOf, .stamp [.vector]]

def MIN_AGE_SECONDS : ℤ := 120

end

/-! ## The system -/

inductive Role
  | store | handler | backfill
  deriving DecidableEq

structure Task where
  role : Role
  ops : List Op
  -- It holds the row that it selected `FOR UPDATE`.
  locking : Bool := false
  -- Ghosts: how often the row had been written when the handler loaded it, and what it loaded.
  generation : ℕ := 0
  loaded : Option Signal := none
  deriving DecidableEq

structure State where
  row : Option SignalRow
  keyword : List Entry
  vector : List Entry
  -- Enriched events that no handler has, and none is done with.
  undelivered : ℕ
  tasks : List Task
  -- Ghost: how often the row was written.
  generation : ℕ
  deriving DecidableEq

def State.start : State := ⟨none, [], [], 0, [], 0⟩

inductive Action
  | store (signal : Signal)
  | deliver (replica : Replica)
  -- An event that was handled is delivered again.
  | redeliver
  | tick
  -- The task's next call returns.
  | next (i : ℕ) (now : ℤ)
  -- The task's next call has reached the entries with these indexes (any index: it took effect)
  -- when it raises, or the process ends; the event may be kept for another delivery.
  | stop (i : ℕ) (now : ℤ) (reached : List ℕ) (again : Bool)

def putDocument (store : List Entry) (entry : Entry) : List Entry :=
  if store.any fun old => old.chunk.index = entry.chunk.index && entry.version < old.version then
    store
  else entry :: store.filter fun old => old.chunk.index ≠ entry.chunk.index

def putPoint (store : List Entry) (entry : Entry) : List Entry :=
  entry :: store.filter fun old => old.chunk.index ≠ entry.chunk.index

namespace State

variable (cfg : Settings) (s : State)

variable (store : IndexState)

def stored : List Entry :=
  match store with
  | .keyword => s.keyword
  | .vector => s.vector

def withStored (entries : List Entry) : State :=
  match store with
  | .keyword => { s with keyword := entries }
  | .vector => { s with vector := entries }

def put : List Entry → Entry → List Entry :=
  match store with
  | .keyword => putDocument
  | .vector => putPoint

/-- The upsert writes all columns of an older or equally old row, the index columns as `NULL`. -/
def upsert (signal : Signal) (now : ℤ) : State :=
  match s.row with
  | none => { s with row := some ⟨signal, now, none, none⟩, generation := s.generation + 1 }
  | some row =>
    if row.signal.version ≤ signal.version then
      { s with row := some ⟨signal, row.createdAt, none, none⟩, generation := s.generation + 1 }
    else s

/-- `stamp_index_state`. -/
def stamp (columns : List IndexState) (now : ℤ) : State :=
  { s with row := s.row.map fun row => { row with
      indexedKeywordAt := if .keyword ∈ columns then some now else row.indexedKeywordAt
      indexedVectorAt := if .vector ∈ columns then some now else row.indexedVectorAt } }

/-- What a call does to the stores; `reached` says how far it came, `none` that it returned. -/
def effect (now : ℤ) (reached : Option (List ℕ)) : Op → State
  | .upsert signal => if reached = some [] then s else s.upsert signal now
  | .publish => if reached = some [] then s else { s with undelivered := s.undelivered + 1 }
  | .write store batch =>
    let written := batch.filter fun entry => reached.all (entry.chunk.index ∈ ·)
    s.withStored store (written.foldl (put store) (s.stored store))
  | .deleteSignal store =>
    s.withStored store ((s.stored store).filter fun entry => !reached.all (entry.chunk.index ∈ ·))
  | .backfill text =>
    match cfg.backfillUpsert with
    | none => s
    | some upsert =>
      if reached = some [] then s else s.withStored .vector ((upsert text s.vector).getD s.vector)
  | .stamp columns => if reached = some [] then s else s.stamp columns now
  | .load _ | .claim | .release | .embed | .refuse => s

def isLocked : Bool := s.tasks.any Task.locking

def blocks : Op → Bool
  | .upsert _ | .stamp _ => cfg.rowLocks && s.isLocked
  | .backfill text => cfg.backfillUpsert.any fun upsert => (upsert text s.vector).isNone
  | .refuse => true
  | _ => false

def continued (now : ℤ) (t : Task) (op : Op) (rest : List Op) : Task :=
  match op, s.row with
  | .load _, none => { t with ops := [] }
  | .load replica, some row =>
    { t with ops := handle cfg replica row.signal, generation := s.generation
             loaded := some row.signal }
  | .claim, some row =>
    if row.indexedVectorAt.isNone ∧ row.createdAt < now - MIN_AGE_SECONDS ∧
        ¬(cfg.rowLocks && s.isLocked) then
      { t with ops := claimed row, locking := true }
    else { t with ops := [] }
  | .claim, none => { t with ops := [] }
  | .release, _ => { t with ops := rest, locking := false }
  | _, _ => { t with ops := rest }

def spawn (role : Role) (ops : List Op) : State :=
  { s with tasks := s.tasks ++ [{ role := role, ops := ops }] }

def step (s : State) : Action → Option State
  | .store signal => some (s.spawn .store (storeApply signal))
  | .deliver replica =>
    if 0 < s.undelivered then
      some ({ s with undelivered := s.undelivered - 1 }.spawn .handler [.load replica])
    else none
  | .redeliver => some { s with undelivered := s.undelivered + 1 }
  | .tick => some (s.spawn .backfill [.claim])
  | .next i now =>
    match s.tasks[i]? with
    | some t =>
      match t.ops with
      | op :: rest =>
        if s.blocks cfg op then none
        else
          let after := s.effect cfg now none op
          some { after with tasks := s.tasks.set i (s.continued cfg now t op rest) }
      | [] => none
    | none => none
  | .stop i now reached again =>
    match s.tasks[i]? with
    | some t =>
      match t.ops with
      | op :: _ =>
        let after := s.effect cfg now (some reached) op
        some { after with
          undelivered := after.undelivered + if t.role = .handler ∧ again then 1 else 0
          tasks := s.tasks.set i { t with ops := [], locking := false } }
      | [] => none
    | none => none

end State

end OmniSense.Indexing
