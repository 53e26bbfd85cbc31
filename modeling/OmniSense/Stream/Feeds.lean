import OmniSense.Stream.Connections
import OmniSense.Library.Logs

/-! One connection read as a feed of seqs: what its generator yields is what a reader of the channel
is told, and what it still holds is what is to come. -/

namespace OmniSense.Stream
open Library List

variable {Value : Type}

/-! ## A connection as a feed -/

def Frame.mark? : Frame → Option (Mark ℤ)
  | event _ _ id => some (.shown id)
  | internalError _ _ seq => some (.shown seq)
  | gap _ _ g => some (.missed g.fromSeq g.toSeq)
  | comment _ _ => none

namespace Frame

variable {frame : Frame}

theorem mark?_of_id? {n : ℤ} (h : frame.id? = some n) : frame.mark? = some (.shown n) := by
  cases frame with
  | event data type id => exact congrArg _ (congrArg Mark.shown (Option.some.inj h))
  | internalError investigationId requestId seq =>
    exact congrArg _ (congrArg Mark.shown (Option.some.inj h))
  | comment text retry | gap investigationId requestId g => exact absurd h (by simp [id?])

theorem mark?_of_gap? {g : SeqGap} (h : frame.gap? = some g) :
    frame.mark? = some (.missed g.fromSeq g.toSeq) := by
  cases frame with
  | gap investigationId requestId g' =>
    obtain rfl : g' = g := Option.some.inj h
    rfl
  | comment text retry | event data type id | internalError investigationId requestId seq =>
    exact absurd h (by simp [gap?])

theorem of_mark? {m : Mark ℤ} (h : frame.mark? = some m) :
    (∃ n, m = .shown n ∧ frame.id? = some n) ∨
      ∃ g, m = .missed g.fromSeq g.toSeq ∧ frame.gap? = some g := by
  cases frame with
  | event data type id => exact Or.inl ⟨id, (Option.some.inj h).symm, rfl⟩
  | internalError investigationId requestId seq =>
    exact Or.inl ⟨seq, (Option.some.inj h).symm, rfl⟩
  | gap investigationId requestId g => exact Or.inr ⟨g, (Option.some.inj h).symm, rfl⟩
  | comment text retry => exact absurd h (by simp [mark?])

theorem shown_marks (frames : List Frame) :
    (frames.filterMap mark?).filterMap Mark.shown? = frames.filterMap id? := by
  rw [filterMap_filterMap]
  congr 1
  funext frame
  cases frame <;> rfl

end Frame

def SeqGap.range (gap : SeqGap) : ℤ × ℤ := (gap.fromSeq, gap.toSeq)

def Point.events : Point Value → List (TimelineEvent Value)
  | replayed e rest => e :: rest
  | gapped e | lived e => [e]
  | start | opened | resumed | waiting | finished => []

namespace Connection

variable (c : Connection Value)

def marks : List (Mark ℤ) := c.frames.filterMap Frame.mark?

def feedAt (unsaid : Option SeqGap) (position : ℤ)
    (ahead : List (TimelineEvent Value)) : Feed ℤ where
  marks := c.marks
  position := position
  unsaid := unsaid.map SeqGap.range
  ahead := ahead.map TimelineEvent.seq
  drops := c.subscription.drops
  queue := c.subscription.queue.map TimelineEvent.seq
  closed := c.subscription.closed

/-- Of a generator that has ended only the frames matter: `last` bounds what they have shown. -/
def feed (last : ℤ) : Feed ℤ :=
  match c.point with
  | .start | .opened => c.feedAt c.subscription.resumeGap c.lastSeq c.subscription.replay
  | .resumed => c.feedAt none c.lastSeq c.subscription.replay
  | .replayed e rest => c.feedAt none (max c.lastSeq e.seq) rest
  | .waiting => c.feedAt none c.lastSeq []
  | .gapped e => c.feedAt none c.lastSeq [e]
  | .lived e => c.feedAt none e.seq []
  | .finished => Feed.ended c.marks last

def Reads (owed : ℤ → Prop) (top : ℤ) : Prop :=
  ∃ last, (c.feed last).Sound owed top

variable {codec : Codec Value} {c : Connection Value} {owed : ℤ → Prop} {top : ℤ}
  {e : TimelineEvent Value} {rest : List (TimelineEvent Value)}

variable {point : Point Value}

theorem marks_emit {frame : Frame} {m : Mark ℤ}
    (h : frame.mark? = some m) : (c.emit frame point).marks = c.marks ++ [m] := by
  unfold marks emit
  rw [filterMap_append, filterMap_cons_some h, filterMap_nil]

theorem emitGap_feedAt (c : Connection Value) (gap : SeqGap) (point : Point Value)
    (unsaid : Option SeqGap) (position : ℤ) (ahead : List (TimelineEvent Value)) :
    (c.emitGap gap point).feedAt unsaid position ahead =
      { c.feedAt unsaid position ahead with
        marks := c.marks ++ [Mark.missed gap.fromSeq gap.toSeq] } := by
  unfold emitGap feedAt
  rw [marks_emit rfl]
  rfl

theorem marks_feed (c : Connection Value) (last : ℤ) : (c.feed last).marks = c.marks := by
  unfold feed
  cases c.point <;> rfl

theorem reads_send (h : (c.feedAt none c.lastSeq (e :: rest)).Sound owed top)
    (hpoint : ∀ c' : Connection Value, c'.point = point → c'.lastSeq = c.lastSeq →
      ∀ last, c'.feed last = c'.feedAt none e.seq rest) :
    (c.send codec e point).Reads owed top := by
  -- Yielding the next event: the frame is it, or reports it alone.
  unfold send
  cases hrender : render codec c.requestId c.subscription.investigationId e with
  | error _ => exact ⟨c.lastSeq, h.stop⟩
  | ok frame =>
    obtain ⟨m, hmark, hm⟩ : ∃ m, frame.mark? = some m ∧
        (m = .shown e.seq ∨ m = .missed e.seq e.seq) := by
      rcases render_ok hrender with ⟨hid, _⟩ | ⟨_, hgap⟩
      · exact ⟨_, Frame.mark?_of_id? hid, Or.inl rfl⟩
      · exact ⟨_, Frame.mark?_of_gap? hgap, Or.inr rfl⟩
    have hserved := h.serve rfl rfl hm
    refine ⟨c.lastSeq, ?_⟩
    rw [hpoint (c.emit frame point) rfl rfl]
    unfold feedAt
    rw [marks_emit hmark]
    exact hserved

theorem reads_send_lived (h : (c.feedAt none c.lastSeq [e]).Sound owed top) :
    (c.send codec e (.lived e)).Reads owed top := by
  apply reads_send h
  intro c' hpoint _ last
  unfold feed
  rw [hpoint]

theorem next_lt (h : (c.feedAt none c.lastSeq (e :: rest)).Sound owed top) : c.lastSeq < e.seq :=
  h.position_lt e.seq (mem_append_left _ mem_cons_self)

theorem reads_pull {queue : List (TimelineEvent Value)}
    (h : ((c.withQueue queue).feedAt none c.lastSeq []).Sound owed top) :
    (c.pull codec queue).Reads owed top := by
  -- No event in the queue is a repetition, so the live loop never skips one.
  cases queue with
  | nil => exact ⟨c.lastSeq, h⟩
  | cons e rest =>
    unfold pull Subscription.takeGap
    cases hdrops : c.subscription.drops with
    | none =>
      have htaken : ((c.withQueue rest).feedAt none c.lastSeq [e]).Sound owed top :=
        h.take rfl rfl hdrops
      have hnew : ¬e.seq ≤ c.lastSeq := not_le.mpr (next_lt (c := c.withQueue rest) htaken)
      rw [if_neg hnew]
      exact reads_send_lived htaken
    | some d =>
      have hreported := h.report rfl rfl hdrops
      refine ⟨c.lastSeq, ?_⟩
      change ((emitGap _ _ _).feedAt none c.lastSeq [e]).Sound owed top
      rw [emitGap_feedAt]
      exact hreported

theorem reads_replayLoop (h : (c.feedAt none c.lastSeq rest).Sound owed top) :
    (c.replayLoop codec rest).Reads owed top := by
  cases rest with
  | nil => exact reads_pull h
  | cons e rest =>
    apply reads_send h
    intro c' hpoint hlast last
    unfold feed
    rw [hpoint, hlast]
    dsimp only
    rw [max_eq_right (le_of_lt (next_lt h))]

theorem Reads.resume (h : c.Reads owed top) : (c.resume codec).Reads owed top := by
  obtain ⟨last, h⟩ := h
  unfold Connection.resume
  unfold feed at h
  cases hpoint : c.point with
  | start =>
    rw [hpoint] at h
    have hmarks : (c.emit (.comment ("open " ++ c.subscription.investigationId)
        RECONNECT_ADVICE_MS) Point.opened).marks = c.marks := by
      unfold marks emit
      rw [filterMap_append]
      exact append_nil _
    refine ⟨last, ?_⟩
    change ((c.emit _ Point.opened).feedAt c.subscription.resumeGap c.lastSeq
      c.subscription.replay).Sound owed top
    unfold feedAt
    rw [hmarks]
    exact h
  | opened =>
    rw [hpoint] at h
    cases hgap : c.subscription.resumeGap with
    | none =>
      rw [hgap] at h
      exact reads_replayLoop h
    | some gap =>
      rw [hgap] at h
      have hspoken := h.speak rfl
      refine ⟨last, ?_⟩
      change ((c.emitGap gap .resumed).feedAt none c.lastSeq c.subscription.replay).Sound owed top
      rw [emitGap_feedAt]
      exact hspoken
  | resumed =>
    rw [hpoint] at h
    exact reads_replayLoop h
  | replayed e rest =>
    rw [hpoint] at h
    dsimp only
    split_ifs
    · exact ⟨_, h.stop⟩
    · exact reads_replayLoop h
  | waiting =>
    rw [hpoint] at h
    exact reads_pull h
  | gapped e =>
    rw [hpoint] at h
    have hnew : ¬e.seq ≤ c.lastSeq := not_le.mpr (next_lt h)
    dsimp only
    rw [if_neg hnew]
    exact reads_send_lived h
  | lived e =>
    rw [hpoint] at h
    dsimp only
    split_ifs
    · exact ⟨_, h.stop⟩
    · exact reads_pull h
  | finished =>
    rw [hpoint] at h
    refine ⟨last, ?_⟩
    unfold feed
    rw [hpoint]
    exact h

/-! ## What the hub does to a connection -/

def offered (c : Connection Value) (e : TimelineEvent Value) : Connection Value :=
  { c with subscription := c.subscription.offer e }

def closed (c : Connection Value) : Connection Value :=
  { c with subscription := { c.subscription with closed := true } }

variable {more : ℤ → Prop} {unsaid : Option SeqGap} {position : ℤ}
  {ahead : List (TimelineEvent Value)}

theorem feedAt_offered (h : (c.feedAt unsaid position ahead).Sound owed top) (htop : top < e.seq)
    (howed : ∀ n, more n → owed n ∨ n = e.seq) :
    ((c.offered e).feedAt unsaid position ahead).Sound more e.seq := by
  unfold offered Subscription.offer
  split_ifs with hclosed hfull
  · exact h.pass hclosed htop howed
  · have hopen : c.subscription.closed = false := Bool.eq_false_iff.mpr hclosed
    cases hqueue : c.subscription.queue with
    | nil =>
      unfold Subscription.Full at hfull
      rw [hqueue, length_nil] at hfull
      omega
    | cons evicted rest =>
      have hevicted := h.evict (congrArg (List.map TimelineEvent.seq) hqueue)
      have hoffered := hevicted.offer hopen htop howed
      have hdrops : (c.subscription.recordDrop evicted.seq).drops =
          some (Feed.widen c.subscription.drops evicted.seq) := by
        unfold Subscription.recordDrop Feed.widen
        cases c.subscription.drops <;> rfl
      unfold feedAt
      rw [hdrops, map_append]
      exact hoffered
  · have hopen : c.subscription.closed = false := Bool.eq_false_iff.mpr hclosed
    have hoffered := h.offer hopen htop howed
    unfold feedAt
    rw [map_append]
    exact hoffered

theorem Reads.offered (h : c.Reads owed top) (htop : top < e.seq)
    (howed : ∀ n, more n → owed n ∨ n = e.seq) : (c.offered e).Reads more e.seq := by
  obtain ⟨last, h⟩ := h
  have hpoint : (c.offered e).point = c.point := rfl
  have hlast : (c.offered e).lastSeq = c.lastSeq := rfl
  have hsnapshot : (c.offered e).subscription.resumeGap = c.subscription.resumeGap ∧
      (c.offered e).subscription.replay = c.subscription.replay := by
    obtain ⟨queue, drops, dropped, _, heq⟩ := c.subscription.offer_eq e
    unfold Connection.offered
    rw [heq]
    exact ⟨rfl, rfl⟩
  refine ⟨last, ?_⟩
  unfold feed at h ⊢
  rw [hpoint, hlast, hsnapshot.1, hsnapshot.2]
  cases hc : c.point with
  | finished =>
    rw [hc] at h
    exact h.pass rfl htop howed
  | _ =>
    rw [hc] at h
    exact feedAt_offered h htop howed

theorem Reads.closed (h : c.Reads owed top) : c.closed.Reads owed top := by
  obtain ⟨last, h⟩ := h
  refine ⟨last, ?_⟩
  have hpoint : c.closed.point = c.point := rfl
  unfold feed at h ⊢
  rw [hpoint]
  cases hc : c.point with
  | finished =>
    rw [hc] at h
    exact h
  | _ =>
    rw [hc] at h
    exact h.close

theorem Reads.finish (h : c.Reads owed top) :
    ({ c with point := .finished } : Connection Value).Reads owed top := by
  obtain ⟨last, h⟩ := h
  have hstopped := h.stop
  rw [marks_feed] at hstopped
  exact ⟨(c.feed last).position, hstopped⟩

/-! ## What the generator leaves alone -/

def label (c : Connection Value) : String × Bool × Option ℤ :=
  (c.subscription.investigationId, c.subscription.closed, c.afterSeq)

theorem label_send (point : Point Value) : (c.send codec e point).label = c.label := by
  unfold send
  cases render codec c.requestId c.subscription.investigationId e <;> rfl

theorem label_pull (queue : List (TimelineEvent Value)) :
    (c.pull codec queue).label = c.label := by
  induction queue with
  | nil => rfl
  | cons e rest ih =>
    unfold pull Subscription.takeGap
    cases c.subscription.drops with
    | none =>
      split_ifs
      · exact ih
      · exact label_send (c := c.withQueue rest) (.lived e)
    | some d => rfl

theorem label_replayLoop : (c.replayLoop codec rest).label = c.label := by
  cases rest with
  | nil => exact label_pull c.subscription.queue
  | cons e rest => exact label_send (.replayed e rest)

theorem label_resume : (c.resume codec).label = c.label := by
  unfold resume
  cases c.point with
  | start | finished => rfl
  | opened =>
    cases c.subscription.resumeGap with
    | none => exact label_replayLoop
    | some gap => rfl
  | resumed => exact label_replayLoop
  | replayed e rest =>
    dsimp only
    split_ifs
    · rfl
    · exact label_replayLoop
        (c := { c with point := .replayed e rest, lastSeq := max c.lastSeq e.seq })
  | waiting => exact label_pull c.subscription.queue
  | gapped e =>
    dsimp only
    split_ifs
    · exact label_pull c.subscription.queue
    · exact label_send (.lived e)
  | lived e =>
    dsimp only
    split_ifs
    · rfl
    · exact label_pull (c := { c with point := .lived e, lastSeq := e.seq }) c.subscription.queue

theorem label_offered : (c.offered e).label = c.label := by
  obtain ⟨queue, drops, dropped, _, heq⟩ := c.subscription.offer_eq e
  unfold offered
  rw [heq]
  rfl

/-! ## The events a connection holds -/

/-- Whatever the connection holds satisfies the predicate, and so does the event behind each frame
with an id. -/
structure Genuine (codec : Codec Value) (P : TimelineEvent Value → Prop) (c : Connection Value) :
    Prop where
  replay : ∀ x ∈ c.subscription.replay, P x
  queue : ∀ x ∈ c.subscription.queue, P x
  point : ∀ x ∈ c.point.events, P x
  frames : ∀ frame ∈ c.frames, ∀ seq, frame.id? = some seq →
    ∃ a, P a ∧ a.seq = seq ∧
      render codec c.requestId c.subscription.investigationId a = .ok frame

variable {P Q : TimelineEvent Value → Prop} {queue : List (TimelineEvent Value)}

theorem Genuine.mono (h : c.Genuine codec P) (hPQ : ∀ x, P x → Q x) : c.Genuine codec Q := by
  constructor
  · exact fun x hx => hPQ x (h.replay x hx)
  · exact fun x hx => hPQ x (h.queue x hx)
  · exact fun x hx => hPQ x (h.point x hx)
  · intro frame hframe seq hseq
    obtain ⟨a, ha, hrest⟩ := h.frames frame hframe seq hseq
    exact ⟨a, hPQ a ha, hrest⟩

theorem Genuine.emit (h : c.Genuine codec P) {frame : Frame} (hpoint : ∀ x ∈ point.events, P x)
    (hframe : ∀ seq, frame.id? = some seq → ∃ a, P a ∧ a.seq = seq ∧
      render codec c.requestId c.subscription.investigationId a = .ok frame) :
    (c.emit frame point).Genuine codec P := by
  refine { h with point := hpoint, frames := ?_ }
  intro frame' hframe'
  rcases mem_append.mp hframe' with hold | hnew
  · exact h.frames frame' hold
  · rw [mem_singleton.mp hnew]
    exact hframe

theorem Genuine.emitGap (h : c.Genuine codec P) {gap : SeqGap}
    (hpoint : ∀ x ∈ point.events, P x) : (c.emitGap gap point).Genuine codec P :=
  h.emit hpoint fun _ hseq => absurd hseq (by simp [Frame.id?])

theorem Genuine.send (h : c.Genuine codec P) (he : P e)
    (hpoint : ∀ x ∈ point.events, P x) : (c.send codec e point).Genuine codec P := by
  unfold Connection.send
  cases hrender : render codec c.requestId c.subscription.investigationId e with
  | error _ => exact { h with point := fun x hx => absurd hx not_mem_nil }
  | ok frame =>
    apply h.emit hpoint
    intro seq hseq
    rcases render_ok hrender with ⟨hid, _⟩ | ⟨hid, _⟩
    · rw [hid] at hseq
      exact ⟨e, he, Option.some.inj hseq, hrender⟩
    · rw [hid] at hseq
      exact absurd hseq (by simp)

theorem Genuine.pull (h : c.Genuine codec P) (hqueue : ∀ x ∈ queue, P x) :
    (c.pull codec queue).Genuine codec P := by
  induction queue with
  | nil =>
    exact { h with
      queue := fun x hx => absurd hx not_mem_nil
      point := fun x hx => absurd hx not_mem_nil }
  | cons e rest ih =>
    have he : P e := hqueue e mem_cons_self
    have hrest : ∀ x ∈ rest, P x := fun x hx => hqueue x (mem_cons_of_mem e hx)
    have hpoint : ∀ x ∈ [e], P x := fun x hx => mem_singleton.mp hx ▸ he
    have htaken : (c.withQueue rest).Genuine codec P := { h with queue := hrest }
    unfold Connection.pull Subscription.takeGap
    cases c.subscription.drops with
    | none =>
      split_ifs
      · exact ih hrest
      · exact htaken.send he hpoint
    | some d =>
      have hcleared : ({ c with subscription :=
          { c.subscription with drops := none, queue := rest } } : Connection Value).Genuine
            codec P := { htaken with }
      exact hcleared.emitGap hpoint

theorem Genuine.replayLoop (h : c.Genuine codec P) (hrest : ∀ x ∈ rest, P x) :
    (c.replayLoop codec rest).Genuine codec P := by
  cases rest with
  | nil => exact h.pull h.queue
  | cons e rest => exact h.send (hrest e mem_cons_self) hrest

theorem Genuine.resume (h : c.Genuine codec P) : (c.resume codec).Genuine codec P := by
  have hnone : ∀ x ∈ ([] : List (TimelineEvent Value)), P x :=
    fun x hx => absurd hx not_mem_nil
  have hpoint := h.point
  unfold Connection.resume
  cases hc : c.point with
  | start => exact h.emit hnone fun seq hseq => absurd hseq (by simp [Frame.id?])
  | opened =>
    cases c.subscription.resumeGap with
    | none => exact h.replayLoop h.replay
    | some gap => exact h.emitGap hnone
  | resumed => exact h.replayLoop h.replay
  | replayed e rest =>
    rw [hc] at hpoint
    have hrest : ∀ x ∈ rest, P x := fun x hx => hpoint x (mem_cons_of_mem e hx)
    dsimp only
    split_ifs
    · exact { h with point := hnone }
    · exact Genuine.replayLoop { h with point := hpoint } hrest
  | waiting => exact h.pull h.queue
  | gapped e =>
    rw [hc] at hpoint
    dsimp only
    split_ifs
    · exact h.pull h.queue
    · exact h.send (hpoint e mem_cons_self) hpoint
  | lived e =>
    rw [hc] at hpoint
    dsimp only
    split_ifs
    · exact { h with point := hnone }
    · exact Genuine.pull { h with point := hpoint } h.queue
  | finished => exact h

theorem Genuine.offered (h : c.Genuine codec P) (he : P e) : (c.offered e).Genuine codec P := by
  obtain ⟨queue, drops, dropped, hqueue, heq⟩ := c.subscription.offer_eq e
  unfold Connection.offered
  rw [heq]
  refine { h with queue := ?_ }
  intro x hx
  rcases hqueue x hx with hold | hnew
  · exact h.queue x hold
  · exact hnew ▸ he

end Connection
end OmniSense.Stream
