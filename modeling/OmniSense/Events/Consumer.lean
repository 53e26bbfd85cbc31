import Mathlib.Algebra.GroupWithZero.Nat
import Mathlib.Data.List.AList

/-! `EventConsumer`: one fetch, handle and commit cycle over a Kafka client. What the world does
(decoding, handlers, publishes, commits) is given to the model as the outcome of each call. -/

namespace OmniSense.Events

inductive TopicRole
  | rawRecords | signals | graphUpdates | dlq
  deriving DecidableEq, Repr

def TopicRole.all : List TopicRole := [.rawRecords, .signals, .graphUpdates, .dlq]

inductive EventType
  | recordRaw | signalEnriched | graphUpdate | dlqFailed | unknown
  deriving DecidableEq, Repr

structure TopicPartition where
  topic : String
  partition : ℕ
  deriving DecidableEq

/-- A `ConsumerRecord`; `value` is what `record.value or b""` reads. -/
structure Record where
  tp : TopicPartition
  offset : ℕ
  key : Option String
  value : List UInt8
  deriving DecidableEq

structure EventEnvelope where
  eventId : String
  eventType : EventType
  schemaVersion : ℕ
  correlationId : String
  tenantId : Option String
  deriving DecidableEq

def eventSchemaVersion : ℕ := 1
def minReadableSchemaVersion : ℕ := 1

def EventEnvelope.isReadable (e : EventEnvelope) : Prop :=
  minReadableSchemaVersion ≤ e.schemaVersion ∧ e.schemaVersion ≤ eventSchemaVersion

instance (e : EventEnvelope) : Decidable e.isReadable := inferInstanceAs (Decidable (_ ∧ _))

abbrev ErrorChain := List String

/-- How a call the runtime awaits ends; `interrupted` is cancellation or another `BaseException`
that `except Exception` lets through. -/
inductive CallOutcome
  | returned
  | raised (error : ErrorChain)
  | interrupted
  deriving DecidableEq

structure ConsumerConfig where
  groupId : String
  serviceName : String
  topicName : TopicRole → String
  dlqEnabled : Bool
  maxAttempts : ℕ
  -- `EventEnvelope.from_bytes`; `none` is `EventDecodeError`.
  fromBytes : List UInt8 → Option EventEnvelope
  one_le_maxAttempts : 1 ≤ maxAttempts

variable (cfg : ConsumerConfig)

def ConsumerConfig.roleForTopic (name : String) : Option TopicRole :=
  TopicRole.all.find? fun role => cfg.topicName role = name

/-- `body` stands for the bytes that `body_b64` encodes. -/
structure DlqEvent where
  originalTopic : String
  originalPartition : Option ℕ
  originalOffset : Option ℕ
  originalKey : Option String
  originalEventId : Option String
  originalEventType : EventType
  consumerGroup : String
  attempts : ℕ
  errorChain : ErrorChain
  body : List UInt8
  deriving DecidableEq

variable (record : Record)

def DlqEvent.fromFailure (error : ErrorChain) (consumerGroup : String)
    (attempts : ℕ) (envelope : Option EventEnvelope) : DlqEvent where
  originalTopic := record.tp.topic
  originalPartition := some record.tp.partition
  originalOffset := some record.offset
  originalKey := record.key
  originalEventId := envelope.map EventEnvelope.eventId
  originalEventType := (envelope.map EventEnvelope.eventType).getD .unknown
  consumerGroup := consumerGroup
  attempts := attempts
  errorChain := error
  body := record.value

def unboundCorrelationId : String := "-"

/-- What `_publish_dlq` is handed: the wrapped event and its key. -/
structure DlqMessage where
  event : DlqEvent
  producer : String
  correlationId : String
  tenantId : Option String
  key : Option String
  deriving DecidableEq

def DlqMessage.wrap (event : DlqEvent) (envelope : Option EventEnvelope) :
    DlqMessage where
  event := event
  producer := cfg.serviceName
  correlationId :=
    match envelope with
    | some e => if e.correlationId = "" then unboundCorrelationId else e.correlationId
    | none => unboundCorrelationId
  tenantId := envelope.bind EventEnvelope.tenantId
  key := event.originalKey

inductive Resolution
  | handled (envelope : EventEnvelope)
  | parked (message : DlqMessage)
  | skipped
  deriving DecidableEq

/-- What `_handle_record` comes to; `raised` is an exception that leaves it. -/
inductive Verdict
  | advance (how : Resolution) (routed : Bool)
  | block (routed : Bool)
  | raised
  deriving DecidableEq

/-- What the world does to one record in one cycle. A cancelled back-off sleep is an interrupted
attempt. -/
structure Faults where
  handler : ℕ → CallOutcome
  publishDlq : CallOutcome

inductive Delivery
  | done
  | failed (error : ErrorChain)
  | interrupted
  deriving DecidableEq

/-- `_deliver` from attempt `attempt` on, with `left` attempts to go. -/
@[grind =] def deliver (handler : ℕ → CallOutcome) (attempt : ℕ) (lastError : ErrorChain) : ℕ → Delivery
  | 0 => .failed lastError
  | left + 1 =>
    match handler attempt with
    | .returned => .done
    | .raised error => deliver handler (attempt + 1) error left
    | .interrupted => .interrupted

/-- `_park`, with the `True` that `_handle_record` returns beside it. -/
def park (envelope : Option EventEnvelope)
    (error : ErrorChain) (attempts : ℕ) (publish : CallOutcome) : Verdict :=
  if ¬cfg.dlqEnabled then .block true
  else if cfg.roleForTopic record.tp.topic = some .dlq then .advance .skipped true
  else
    let event := DlqEvent.fromFailure record error cfg.groupId attempts envelope
    match publish with
    | .returned => .advance (.parked (.wrap cfg event envelope)) true
    | .raised _ => .block true
    | .interrupted => .raised

def decodeError : ErrorChain := ["EventDecodeError"]

def handleRecord (world : Faults) : Verdict :=
  match cfg.fromBytes record.value with
  | none => park cfg record none decodeError 1 world.publishDlq
  | some envelope =>
    if ¬envelope.isReadable then park cfg record (some envelope) decodeError 1 world.publishDlq
    else
      match deliver world.handler 1 [] cfg.maxAttempts with
      | .done => .advance (.handled envelope) false
      | .failed error => park cfg record (some envelope) error cfg.maxAttempts world.publishDlq
      | .interrupted => .raised

/-! ## The client -/

/-- One group member's view of the broker, and the ghost trail of what it resolved, in order. -/
structure State where
  position : TopicPartition → ℕ
  committed : TopicPartition → Option ℕ
  paused : List TopicPartition
  trail : List (Record × Resolution)

abbrev Batch := List (TopicPartition × List Record)

namespace State

variable (s : State)

def seek (tp : TopicPartition) (offset : ℕ) : State :=
  { s with position := Function.update s.position tp offset }

def seekEach (target : TopicPartition × List Record → Option ℕ) (batch : Batch) (s : State) : State :=
  batch.foldl (fun s entry =>
    match target entry with
    | none => s
    | some offset => s.seek entry.1 offset) s

/-- `getmany` leaves the position of every partition it returns behind the last record. -/
def fetched (batch : Batch) : State :=
  s.seekEach (fun entry => entry.2.getLast?.map fun last => last.offset + 1) batch

def pause (tps : List TopicPartition) : State := { s with paused := s.paused ++ tps }

def resume (tps : List TopicPartition) : State :=
  { s with paused := s.paused.filter fun tp => tp ∉ tps }

end State

/-- `dict[TopicPartition, int]`. -/
abbrev Commits := AList fun _ : TopicPartition => ℕ

/-- `_rewind`; a partition without records is left alone. -/
def rewind (s : State) (batch : Batch) (commits : Commits) : State :=
  s.seekEach (fun entry =>
    entry.2.head?.map fun first => (commits.lookup entry.1).getD first.offset) batch

/-- The locals of `run_once`. -/
structure Cycle where
  state : State
  commits : Commits
  handled : ℕ
  dlqRouted : ℕ
  blocked : ℕ

inductive PartitionEnd
  | exhausted
  | blocked (record : Record) (behind : ℕ)
  | raised
  deriving DecidableEq

/-- The inner loop; `next` is `next_offset`. -/
@[grind =] def drainPartition (cfg : ConsumerConfig) (world : Record → Faults) :
    List Record → Cycle → Option ℕ → Cycle × Option ℕ × PartitionEnd
  | [], c, next => (c, next, .exhausted)
  | record :: records, c, next =>
    match handleRecord cfg record (world record) with
    | .advance how routed =>
      drainPartition cfg world records
        { c with
          state := { c.state with trail := c.state.trail ++ [(record, how)] }
          handled := c.handled + 1
          dlqRouted := c.dlqRouted + routed.toNat }
        (some (record.offset + 1))
    | .block _ => (c, next, .blocked record (records.length + 1))
    | .raised => (c, next, .raised)

def Cycle.noteCommit (c : Cycle) (tp : TopicPartition) : Option ℕ → Cycle
  | none => c
  | some offset => { c with commits := c.commits.insert tp offset }

@[grind =] def drainBatch (cfg : ConsumerConfig) (world : Record → Faults) : Batch → Cycle → Cycle × Bool
  | [], c => (c, false)
  | (tp, records) :: rest, c =>
    match drainPartition cfg world records c none with
    | (c, next, .exhausted) => drainBatch cfg world rest (c.noteCommit tp next)
    | (c, next, .blocked record behind) =>
      drainBatch cfg world rest
        ({ c with
            state := c.state.seek tp record.offset
            blocked := c.blocked + behind }.noteCommit tp next)
    | (c, _, .raised) => (c, true)

/-- How a commit ends, and for which partitions the broker applied it. A `KafkaError` or `OSError`
is caught, anything else is not. -/
inductive CommitOutcome
  | accepted
  | refused (applied : TopicPartition → Bool)
  | interrupted (applied : TopicPartition → Bool)

def State.commit (s : State) (commits : Commits) (applied : TopicPartition → Bool) : State :=
  { s with
    committed := fun tp =>
      match commits.lookup tp with
      | some offset => if applied tp then some offset else s.committed tp
      | none => s.committed tp }

structure BatchOutcome where
  fetched : ℕ
  handled : ℕ
  dlqRouted : ℕ
  blocked : ℕ
  committed : Commits

/-- How `run_once` ends once its loops are left: `_commit`, `_rewind` and the `finally`. No outcome
means that an exception leaves it. -/
def closeCycle (batch : Batch) (commit : CommitOutcome) (c : Cycle) (raised : Bool) :
    State × Option BatchOutcome :=
  let partitions := batch.map Prod.fst
  let outcome (commits : Commits) : BatchOutcome :=
    ⟨(batch.map fun entry => entry.2.length).sum, c.handled, c.dlqRouted, c.blocked, commits⟩
  if raised then ((rewind c.state batch c.commits).resume partitions, none)
  else if c.commits.keys = [] then (c.state.resume partitions, some (outcome c.commits))
  else
    match commit with
    | .accepted =>
      ((c.state.commit c.commits fun _ => true).resume partitions, some (outcome c.commits))
    | .refused applied =>
      ((rewind (c.state.commit c.commits applied) batch ∅).resume partitions, some (outcome ∅))
    | .interrupted applied =>
      ((rewind (c.state.commit c.commits applied) batch c.commits).resume partitions, none)

def runOnce (batch : Batch) (world : Record → Faults)
    (commit : CommitOutcome) (s : State) : State × Option BatchOutcome :=
  if batch = [] then (s, some ⟨0, 0, 0, 0, ∅⟩)
  else
    let started := (s.fetched batch).pause (batch.map Prod.fst)
    let (c, raised) := drainBatch cfg world batch ⟨started, ∅, 0, 0, 0⟩
    closeCycle batch commit c raised

end OmniSense.Events
