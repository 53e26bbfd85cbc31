import OmniSense.Stream.Hub

/-! The generator of one connection's frames, resumed from one suspension to the next, and the
process in which publishers, connections and disconnects interleave. -/

namespace OmniSense.Stream

variable {Value : Type}

/-- Where `_timeline_frames` is suspended. -/
inductive Point (Value : Type)
  | start
  -- At the `yield` of the opening comment.
  | opened
  -- At the `yield` of the resume gap.
  | resumed
  -- At the `yield` of a replayed event, with the rest of the snapshot to come.
  | replayed (e : TimelineEvent Value) (rest : List (TimelineEvent Value))
  -- In `subscription.get()`, on an empty queue.
  | waiting
  -- At the `yield` of a gap of drops, holding the event that survived them.
  | gapped (e : TimelineEvent Value)
  -- At the `yield` of a live event.
  | lived (e : TimelineEvent Value)
  | finished

def Point.isFinished : Point Value → Bool
  | finished => true
  | _ => false

structure Connection (Value : Type) where
  subscription : Subscription Value
  requestId : String
  afterSeq : Option ℤ
  point : Point Value
  lastSeq : ℤ
  frames : List Frame

namespace Connection

/-- `source.subscribe`, and the generator made from the subscription. -/
def opening (cfg : HubConfig) (channel : Channel Value) (investigationId : String)
    (afterSeq : Option ℤ) (requestId : String) : Connection Value where
  subscription := channel.subscription cfg investigationId afterSeq
  requestId := requestId
  afterSeq := afterSeq
  point := .start
  lastSeq := -1
  frames := []

variable (c : Connection Value)

def emit (frame : Frame) (point : Point Value) : Connection Value :=
  { c with frames := c.frames ++ [frame], point := point }

def emitGap (gap : SeqGap) (point : Point Value) : Connection Value :=
  c.emit (.gap c.subscription.investigationId c.requestId gap) point

variable (codec : Codec Value)

variable (c : Connection Value)

/-- `yield _render(event)`. -/
def send (e : TimelineEvent Value)
    (point : Point Value) : Connection Value :=
  match render codec c.requestId c.subscription.investigationId e with
  | .ok frame => c.emit frame point
  | .error _ => { c with point := .finished }

def withQueue (queue : List (TimelineEvent Value)) : Connection Value :=
  { c with subscription := { c.subscription with queue := queue } }

def pull (codec : Codec Value) (c : Connection Value) : List (TimelineEvent Value) →
    Connection Value
  | [] => { c.withQueue [] with point := .waiting }
  | e :: rest =>
    match c.subscription.takeGap with
    | (some gap, taken) =>
      { c with subscription := { taken with queue := rest } }.emitGap gap (.gapped e)
    | (none, _) =>
      if e.seq ≤ c.lastSeq then c.pull codec rest
      else (c.withQueue rest).send codec e (.lived e)

def replayLoop : List (TimelineEvent Value) →
    Connection Value
  | [] => c.pull codec c.subscription.queue
  | e :: rest => c.send codec e (.replayed e rest)

def resume : Connection Value :=
  match c.point with
  | .start =>
    c.emit (.comment ("open " ++ c.subscription.investigationId) RECONNECT_ADVICE_MS) .opened
  | .opened =>
    match c.subscription.resumeGap with
    | some gap => c.emitGap gap .resumed
    | none => c.replayLoop codec c.subscription.replay
  | .resumed => c.replayLoop codec c.subscription.replay
  | .replayed e rest =>
    if e.isTerminal then { c with lastSeq := max c.lastSeq e.seq, point := .finished }
    else { c with lastSeq := max c.lastSeq e.seq }.replayLoop codec rest
  | .waiting => c.pull codec c.subscription.queue
  | .gapped e =>
    if e.seq ≤ c.lastSeq then c.pull codec c.subscription.queue
    else c.send codec e (.lived e)
  | .lived e =>
    if e.isTerminal then { c with lastSeq := e.seq, point := .finished }
    else { c with lastSeq := e.seq }.pull codec c.subscription.queue
  | .finished => c

end Connection

/-! ## The process -/

/-- The hub, the connections ever opened on it, and the events `publish` has returned `True` for. -/
structure System (Value : Type) where
  hub : Hub Value
  connections : List (Connection Value)
  accepted : List (TimelineEvent Value)

def System.fresh (lastPrune : ℚ) : System Value := ⟨⟨fun _ => none, lastPrune⟩, [], []⟩

inductive Act (Value : Type)
  | publish (e : TimelineEvent Value) (now swept : ℚ)
  | subscribe (investigationId : String) (afterSeq : Option ℤ) (requestId : String) (now : ℚ)
  | resume (i : ℕ) (now : ℚ)
  -- `GeneratorExit` or `CancelledError` at the suspension.
  | cancel (i : ℕ) (now : ℚ)
  -- `on_client_close`.
  | disconnect (i : ℕ) (now : ℚ)

structure Setup (Value : Type) where
  cfg : HubConfig
  codec : Codec Value

namespace System

variable (cfg : HubConfig)

variable (s : System Value)

def fanOut (e : TimelineEvent Value) (now : ℚ) :
    System Value :=
  let channel := s.hub.channel e.investigationId now
  { hub := s.hub.store e.investigationId (channel.record cfg e now)
    connections := s.connections.mapIdx fun i c =>
      if i ∈ channel.subscribers then { c with subscription := c.subscription.offer e } else c
    accepted := s.accepted ++ [e] }

def sweep (now : ℚ) : System Value :=
  { s with hub := s.hub.prune cfg now }

def publish (e : TimelineEvent Value) (now swept : ℚ) :
    System Value :=
  let channel := s.hub.channel e.investigationId now
  if e.seq ≤ channel.lastSeq then { s with hub := s.hub.store e.investigationId channel }
  else (s.fanOut cfg e now).sweep cfg swept

/-- At the cap `RateLimitedError` is raised, and no connection is opened. -/
def subscribe (investigationId : String)
    (afterSeq : Option ℤ) (requestId : String) (now : ℚ) : System Value :=
  let channel := s.hub.channel investigationId now
  if cfg.maxSubscribers ≤ channel.subscribers.card then
    { s with hub := s.hub.store investigationId channel }
  else
    { s with
      hub := s.hub.store investigationId
        { channel with
          subscribers := insert s.connections.length channel.subscribers
          lastActivity := now }
      connections := s.connections ++
        [.opening cfg channel investigationId afterSeq requestId] }

def close (i : ℕ) (now : ℚ) : System Value :=
  match s.connections[i]? with
  | none => s
  | some c =>
    if c.subscription.closed then s
    else
      { s with
        hub := s.hub.unsubscribe c.subscription.investigationId i now
        connections := s.connections.set i
          { c with subscription := { c.subscription with closed := true } } }

/-- A generator that has ended runs its `finally`. -/
def resume (codec : Codec Value) (s : System Value) (i : ℕ) (now : ℚ) : System Value :=
  match s.connections[i]? with
  | none => s
  | some c =>
    if c.point.isFinished then s
    else if (c.resume codec).point.isFinished then
      System.close { s with connections := s.connections.set i (c.resume codec) } i now
    else { s with connections := s.connections.set i (c.resume codec) }

/-- A generator that has not started ends without its `finally`. -/
def cancel (i : ℕ) (now : ℚ) : System Value :=
  match s.connections[i]? with
  | none => s
  | some c =>
    let ended : System Value :=
      { s with connections := s.connections.set i { c with point := .finished } }
    match c.point with
    | .finished => s
    | .start => ended
    | _ => ended.close i now

end System

namespace Setup

variable (sys : Setup Value)

def step (s : System Value) : Act Value → System Value
  | .publish e now swept => s.publish sys.cfg e now swept
  | .subscribe investigationId afterSeq requestId now =>
    s.subscribe sys.cfg investigationId afterSeq requestId now
  | .resume i now => s.resume sys.codec i now
  | .cancel i now => s.cancel i now
  | .disconnect i now => s.close i now

def run (lastPrune : ℚ) (acts : List (Act Value)) : System Value :=
  acts.foldl sys.step (System.fresh lastPrune)

/-- The sweep that ends a `publish` does not forget the channel. -/
def Spares (investigationId : String) (s : System Value) : Act Value → Prop
  | .publish e now swept =>
    (s.fanOut sys.cfg e now).hub.channels investigationId ≠ none →
      (s.publish sys.cfg e now swept).hub.channels investigationId ≠ none
  | _ => True

def Unpruned (sys : Setup Value) (investigationId : String) : System Value → List (Act Value) → Prop
  | _, [] => True
  | s, act :: acts =>
    sys.Spares investigationId s act ∧ sys.Unpruned investigationId (sys.step s act) acts

instance decidableSpares (sys : Setup Value) (investigationId : String) (s : System Value) :
    ∀ act, Decidable (sys.Spares investigationId s act)
  | .publish _ _ _ => inferInstanceAs (Decidable (_ → _))
  | .subscribe _ _ _ _ | .resume _ _ | .cancel _ _ | .disconnect _ _ => isTrue trivial

instance decidableUnpruned (sys : Setup Value) (investigationId : String) :
    ∀ s acts, Decidable (sys.Unpruned investigationId s acts)
  | _, [] => isTrue trivial
  | s, act :: acts =>
    have := decidableUnpruned sys investigationId (sys.step s act) acts
    inferInstanceAs (Decidable (_ ∧ _))

end Setup
end OmniSense.Stream
