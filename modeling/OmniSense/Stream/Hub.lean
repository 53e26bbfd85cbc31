import Mathlib.Algebra.Order.Ring.Rat
import Mathlib.Data.Finset.Card
import Mathlib.Data.Rat.Defs
import Mathlib.Order.Interval.Set.Defs
import Mathlib.Tactic.SplitIfs
import OmniSense.Library.Dict

/-! Events of a timeline and the hub that they go through. -/

namespace OmniSense.Stream

open List

/-! One event of an investigation's timeline, the frame it becomes on the wire, and the bounded
mailbox that holds a connection's undelivered events. -/

section

open Library

def RECONNECT_ADVICE_MS : ℕ := 3000

def TERMINAL_EVENT_TYPES : List String := ["error", "done"]

def RESERVED_PAYLOAD_KEYS : List String := ["investigation_id", "seq", "ts", "request_id"]

/-- An event that `__post_init__` has accepted. Its moment is in microseconds since the epoch. -/
structure TimelineEvent (Value : Type) where
  investigationId : String
  seq : ℤ
  type : String
  ts : ℤ
  data : Dict String Value
  requestId : Option String
  seq_nonneg : 0 ≤ seq
  named : investigationId ≠ ""
  typed : type ≠ "" ∧ ∀ ch ∈ type.toList, ch ≠ '\r' ∧ ch ≠ '\n'
  unshadowed : ∀ key ∈ RESERVED_PAYLOAD_KEYS, key ∉ data.keys

variable {Value : Type}

def TimelineEvent.isTerminal (e : TimelineEvent Value) : Bool := e.type ∈ TERMINAL_EVENT_TYPES

inductive Field (Value : Type)
  | text (s : String)
  | number (n : ℤ)
  | given (v : Value)

/-- What `json.dumps` raises. Everything but `TypeError` and `ValueError` passes `_render`. -/
inductive EncodeError
  | typeError
  | valueError
  | other (name : String)
  deriving DecidableEq

/-- The encoders beneath: `_iso_utc`, and `json.dumps` with the arguments `encode_event_data`
gives it. -/
structure Codec (Value : Type) where
  isoUtc : ℤ → String
  dumps : List (String × Field Value) → Except EncodeError String

/-- `self.request_id or request_id`. -/
def TimelineEvent.requestIdOr (e : TimelineEvent Value) (requestId : String) : String :=
  match e.requestId with
  | some own => if own = "" then requestId else own
  | none => requestId

variable (codec : Codec Value)

def TimelineEvent.payload (e : TimelineEvent Value) (requestId : String) :
    List (String × Field Value) :=
  [("investigation_id", .text e.investigationId), ("seq", .number e.seq),
    ("ts", .text (codec.isoUtc e.ts)), ("request_id", .text (e.requestIdOr requestId))] ++
    e.data.items.map fun entry => (entry.1, .given entry.2)

structure SeqGap where
  fromSeq : ℤ
  toSeq : ℤ
  reason : String
  deriving DecidableEq

def SeqGap.missing (gap : SeqGap) : ℤ := max 0 (gap.toSeq - gap.fromSeq + 1)

def SeqGap.Covers (gap : SeqGap) (seq : ℤ) : Prop := gap.fromSeq ≤ seq ∧ seq ≤ gap.toSeq

/-- A server-sent event. Only event frames and the synthetic error have an `id:` line. -/
inductive Frame
  | comment (text : String) (retry : ℕ)
  | event (data type : String) (id : ℤ)
  | gap (investigationId requestId : String) (gap : SeqGap)
  | internalError (investigationId requestId : String) (seq : ℤ)
  deriving DecidableEq

/-- The `id:` line. -/
def Frame.id? : Frame → Option ℤ
  | event _ _ id => some id
  | internalError _ _ seq => some seq
  | comment _ _ | gap _ _ _ => none

def Frame.gap? : Frame → Option SeqGap
  | gap _ _ g => some g
  | comment _ _ | event _ _ _ | internalError _ _ _ => none

def encodeEventData (e : TimelineEvent Value) (requestId : String) :
    Except EncodeError String :=
  codec.dumps (e.payload codec requestId)

def eventFrame (e : TimelineEvent Value) (requestId : String) :
    Except EncodeError Frame :=
  (encodeEventData codec e requestId).map fun data => .event data e.type e.seq

/-- `_render`. An error it does not catch ends the generator. -/
def render (requestId investigationId : String) (e : TimelineEvent Value) :
    Except EncodeError Frame :=
  match eventFrame codec e requestId with
  | .ok frame => .ok frame
  | .error .typeError | .error .valueError =>
    if e.isTerminal then .ok (.internalError investigationId requestId e.seq)
    else .ok (.gap investigationId requestId ⟨e.seq, e.seq, "unencodable_event"⟩)
  | .error (.other name) => .error (.other name)

theorem render_ok {codec : Codec Value} {requestId investigationId : String}
    {e : TimelineEvent Value} {frame : Frame}
    (h : render codec requestId investigationId e = .ok frame) :
    (frame.id? = some e.seq ∧ frame.gap? = none) ∨
      (frame.id? = none ∧ frame.gap? = some ⟨e.seq, e.seq, "unencodable_event"⟩) := by
  -- A frame for an event carries its seq, on the `id:` line or as the range of a gap.
  unfold render eventFrame at h
  cases hdata : encodeEventData codec e requestId with
  | ok data =>
    rw [hdata] at h
    obtain rfl : Frame.event data e.type e.seq = frame := Except.ok.inj h
    exact Or.inl ⟨rfl, rfl⟩
  | error error =>
    rw [hdata] at h
    cases error with
    | typeError | valueError =>
      split_ifs at h with hterminal
      · cases h
        exact Or.inl ⟨rfl, rfl⟩
      · cases h
        exact Or.inr ⟨rfl, rfl⟩
    | other name => exact absurd h (by simp [Except.map])

/-! ## The mailbox of one connection -/

/-- The range of drops is `_gap_from` and `_gap_to`, which are set and cleared together. -/
structure Subscription (Value : Type) where
  investigationId : String
  maxsize : ℕ
  queue : List (TimelineEvent Value)
  closed : Bool
  drops : Option (ℤ × ℤ)
  dropped : ℕ
  replay : List (TimelineEvent Value)
  resumeGap : Option SeqGap

namespace Subscription

variable (sub : Subscription Value)

/-- `asyncio.Queue.full`: a queue of size zero is unbounded. -/
def Full : Prop := 0 < sub.maxsize ∧ sub.maxsize ≤ sub.queue.length

instance (sub : Subscription Value) : Decidable sub.Full := inferInstanceAs (Decidable (_ ∧ _))

def recordDrop (seq : ℤ) : Subscription Value :=
  { sub with
    dropped := sub.dropped + 1
    drops := match sub.drops with
      | none => some (seq, seq)
      | some (first, last) => some (min first seq, max last seq) }

def offer (e : TimelineEvent Value) : Subscription Value :=
  if sub.closed then sub
  else if sub.Full then
    match sub.queue with
    | [] => { sub with queue := [e] }
    | evicted :: rest => { sub.recordDrop evicted.seq with queue := rest ++ [e] }
  else { sub with queue := sub.queue ++ [e] }

theorem offer_eq (e : TimelineEvent Value) :
    ∃ queue drops dropped, (∀ x ∈ queue, x ∈ sub.queue ∨ x = e) ∧
      sub.offer e = { sub with queue := queue, drops := drops, dropped := dropped } := by
  -- An offer changes the queue and the account of its drops, and queues nothing but the event.
  unfold offer
  split_ifs with hclosed hfull
  · exact ⟨sub.queue, sub.drops, sub.dropped, fun x hx => Or.inl hx, rfl⟩
  · cases hqueue : sub.queue with
    | nil => exact ⟨[e], sub.drops, sub.dropped, fun x hx => Or.inr (mem_singleton.mp hx), rfl⟩
    | cons evicted rest =>
      refine ⟨rest ++ [e], (sub.recordDrop evicted.seq).drops, sub.dropped + 1, ?_, rfl⟩
      intro x hx
      rcases mem_append.mp hx with hrest | hnew
      · exact Or.inl (mem_cons_of_mem evicted hrest)
      · exact Or.inr (mem_singleton.mp hnew)
  · refine ⟨sub.queue ++ [e], sub.drops, sub.dropped, ?_, rfl⟩
    intro x hx
    rcases mem_append.mp hx with hold | hnew
    · exact Or.inl hold
    · exact Or.inr (mem_singleton.mp hnew)

def takeGap : Option SeqGap × Subscription Value :=
  match sub.drops with
  | none => (none, sub)
  | some (first, last) => (some ⟨first, last, "slow_consumer"⟩, { sub with drops := none })

end Subscription

end

/-! The channels of the in-process hub: the ring of retained events, the subscribers, and the sweep
that forgets idle channels. A subscriber is named by its connection. -/

section

variable {Value : Type}

def PRUNE_INTERVAL_SECONDS : ℚ := 60

structure HubConfig where
  queueEvents : ℕ
  replayEvents : ℕ
  retentionSeconds : ℚ
  maxSubscribers : ℕ
  queueEvents_pos : 0 < queueEvents
  replayEvents_pos : 0 < replayEvents

structure Channel (Value : Type) where
  history : List (TimelineEvent Value)
  subscribers : Finset ℕ
  lastSeq : ℤ
  lastActivity : ℚ
  terminal : Bool

/-- `deque(maxlen=size).append`. -/
def ringAppend {α : Type} (size : ℕ) (ring : List α) (a : α) : List α :=
  (ring ++ [a]).drop ((ring ++ [a]).length - size)

theorem exists_ringAppend {α : Type} (size : ℕ) (ring : List α) (a : α) :
    ∃ evicted, ring ++ [a] = evicted ++ ringAppend size ring a :=
  ⟨(ring ++ [a]).take ((ring ++ [a]).length - size), (take_append_drop _ _).symm⟩

theorem ringAppend_ne_nil {α : Type} {size : ℕ} (h : 0 < size) (ring : List α) (a : α) :
    ringAppend size ring a ≠ [] := by
  intro hnil
  have hlength := congrArg List.length hnil
  simp only [ringAppend, length_drop, length_append, length_singleton,
    length_nil] at hlength
  omega

namespace Channel

def fresh (now : ℚ) : Channel Value := ⟨[], ∅, -1, now, false⟩

variable (cfg : HubConfig)

variable (channel : Channel Value)

/-- What `publish` stores of an event that advances the sequence. -/
def record (e : TimelineEvent Value) (now : ℚ) :
    Channel Value :=
  { channel with
    history := ringAppend cfg.replayEvents channel.history e
    lastSeq := e.seq
    lastActivity := now
    terminal := channel.terminal || e.isTerminal }

def resumeGap (afterSeq : ℤ) : Option SeqGap :=
  match channel.history with
  | [] => none
  | oldest :: _ =>
    if oldest.seq ≤ afterSeq + 1 then none
    else some ⟨afterSeq + 1, oldest.seq - 1, "replay_buffer_evicted"⟩

def Stale (now : ℚ) : Prop :=
  channel.subscribers = ∅ ∧ cfg.retentionSeconds < now - channel.lastActivity

instance (cfg : HubConfig) (channel : Channel Value) (now : ℚ) :
    Decidable (channel.Stale cfg now) :=
  inferInstanceAs (Decidable (_ ∧ _))

/-- The mailbox `subscribe` registers, with its snapshot of the history. -/
def subscription (investigationId : String)
    (afterSeq : Option ℤ) : Subscription Value where
  investigationId := investigationId
  maxsize := cfg.queueEvents
  queue := []
  closed := false
  drops := none
  dropped := 0
  replay := match afterSeq with
    | none => channel.history
    | some r => channel.history.filter fun e => r < e.seq
  resumeGap := match afterSeq with
    | none => none
    | some r => channel.resumeGap r

end Channel

structure Hub (Value : Type) where
  channels : String → Option (Channel Value)
  lastPrune : ℚ

namespace Hub

variable (hub : Hub Value)

variable (investigationId : String)

/-- `_channel`, which makes a channel where there is none; the caller stores it. -/
def channel (now : ℚ) : Channel Value :=
  (hub.channels investigationId).getD (Channel.fresh now)

def store (channel : Channel Value) : Hub Value :=
  { hub with channels := Function.update hub.channels investigationId (some channel) }

def unsubscribe (i : ℕ) (now : ℚ) : Hub Value :=
  match hub.channels investigationId with
  | none => hub
  | some channel => hub.store investigationId
      { channel with subscribers := channel.subscribers.erase i, lastActivity := now }

def prune (cfg : HubConfig) (hub : Hub Value) (now : ℚ) : Hub Value :=
  if now - hub.lastPrune < PRUNE_INTERVAL_SECONDS then hub
  else
    { channels := fun id => (hub.channels id).filter fun channel => ¬channel.Stale cfg now
      lastPrune := now }

@[simp] theorem store_self (id : String) (channel : Channel Value) :
    (hub.store id channel).channels id = some channel := by
  simp only [store, Function.update_self]

theorem store_of_ne {id k : String} (h : k ≠ id) (channel : Channel Value) :
    (hub.store id channel).channels k = hub.channels k := by
  simp only [store, Function.update_of_ne h]

theorem prune_channels (cfg : HubConfig) (hub : Hub Value) (now : ℚ) (k : String) :
    (hub.prune cfg now).channels k = hub.channels k ∨ (hub.prune cfg now).channels k = none := by
  unfold prune
  split_ifs with hrecent
  · exact Or.inl rfl
  · dsimp only
    cases hub.channels k with
    | none => exact Or.inl rfl
    | some channel =>
      rw [Option.filter_some]
      split_ifs
      · exact Or.inl rfl
      · exact Or.inr rfl

end Hub

end

end OmniSense.Stream
