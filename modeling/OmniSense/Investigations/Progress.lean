import OmniSense.Agents.State
import OmniSense.Stream.Order

/-! The timeline of one driven run: what `_drive` hands to the publisher, and what the hub makes of
it. The sequence number is threaded through return values, so an exception loses it. -/

namespace OmniSense.Investigations

open Agents Library OmniSense.Stream List

structure Raised where
  code : String
  message : String

def STARTING : List (String × String) :=
  [("planner", "Planning the investigation"),
    ("collector", "Collecting fresh data from sources"),
    ("retriever", "Searching the corpus for evidence"),
    ("graph_expansion", "Expanding through the knowledge graph"),
    ("trend", "Measuring trends over time"),
    ("competitor", "Building the competitive picture"),
    ("forecast", "Projecting measured series"),
    ("insight", "Synthesising findings"),
    ("strategy", "Forming recommendations"),
    ("critic", "Verifying citations and claims"),
    ("critic_final", "Final verification pass"),
    ("report", "Writing the report")]

def ORDER : List String :=
  ["planner", "collector", "retriever", "graph_expansion", "trend", "competitor", "forecast",
    "insight", "strategy", "critic", "report"]

def startingMessage (node : String) : String := (STARTING.lookup node).getD ("Running " ++ node)

def nextNodeHint (node : String) : Option String :=
  (ORDER.idxOf? node).bind fun index => ORDER[index + 1]?

/-- `_progress_counts`. -/
structure Counts where
  evidence : ℤ
  insights : ℤ
  steps : ℤ

def statusValue : InvestigationStatus → String
  | .queued => "queued"
  | .planning => "planning"
  | .running => "running"
  | .reflecting => "reflecting"
  | .completed => "completed"
  | .completedWithFindings => "completed_with_findings"
  | .failed => "failed"
  | .cancelled => "cancelled"
  | .unknown => "unknown"

/-! ## What is published -/

inductive Notice
  | started (node : String)
  | completed (node message : String) (counts : Counts)
  | done (status : InvestigationStatus) (reportId : Option String) (confidence : Payload)
  | error (raised : Raised)

namespace Notice

def type : Notice → String
  | started _ => "step.started"
  | completed .. => "step.completed"
  | done .. => "done"
  | error _ => "error"

def keys : Notice → List String
  | started _ => ["node", "message"]
  | completed .. => ["node", "message", "evidence_count", "insight_count", "step_count"]
  | done .. => ["status", "report_id", "confidence"]
  | error _ => ["code", "message"]

def entries : Notice → List (String × Payload)
  | started node => [("node", .str node), ("message", .str (startingMessage node))]
  | completed node message counts =>
    [("node", .str node), ("message", .str message), ("evidence_count", .num counts.evidence),
      ("insight_count", .num counts.insights), ("step_count", .num counts.steps)]
  | done status reportId confidence =>
    [("status", .str (statusValue status)), ("report_id", (reportId.map .str).getD .null),
      ("confidence", confidence)]
  | error raised =>
    [("code", .str raised.code),
      ("message", .str (String.ofList (raised.message.toList.take 500)))]

variable (n : Notice)

theorem keys_entries : n.entries.map Prod.fst = n.keys := by
  cases n <;> rfl

theorem keys_nodup : n.keys.Nodup := by
  cases n <;> simp [keys]

def data (n : Notice) : Dict String Payload := ⟨n.entries, n.keys_entries ▸ n.keys_nodup⟩

theorem typed : n.type ≠ "" ∧ ∀ ch ∈ n.type.toList, ch ≠ '\r' ∧ ch ≠ '\n' := by
  cases n <;> simp [type]

theorem unshadowed : ∀ key ∈ RESERVED_PAYLOAD_KEYS, key ∉ n.data.keys := by
  have hkeys : n.data.keys = n.keys := n.keys_entries
  rw [hkeys]
  cases n <;> simp [RESERVED_PAYLOAD_KEYS, keys]

def isTerminal (n : Notice) : Bool := n.type ∈ TERMINAL_EVENT_TYPES

/-- The event that `_emit` makes; every notice is one. -/
def event (n : Notice) {investigationId : String} (hnamed : investigationId ≠ "") (seq : ℕ)
    (ts : ℤ) : TimelineEvent Payload where
  investigationId := investigationId
  seq := seq
  type := n.type
  ts := ts
  data := n.data
  requestId := none
  seq_nonneg := Int.natCast_nonneg seq
  named := hnamed
  typed := n.typed
  unshadowed := n.unshadowed

end Notice

/-! ## The drive -/

section

variable {σ δ : Type}

/-- What `_execute` reads of the states and the deltas. -/
structure Readers (σ δ : Type) where
  -- `final.update(delta)`.
  update : σ → δ → σ
  -- `_progress_message`.
  message : String → δ → Except Raised String
  -- `_progress_counts`.
  counts : σ → Except Raised Counts
  -- `isinstance(report, Mapping) and report.get("gaps")`.
  hasGaps : σ → Bool
  confidence : σ → Payload

/-- What a drive meets: what `_load_state` returns of the row, what `astream` yields and how it
ends, and how the writes to the database end. A delta that is no mapping is absent. -/
structure Drive (σ δ : Type) where
  state : Except Raised σ
  yields : List (String × Option δ)
  ending : Except Raised Unit
  -- `_store_report`, which never raises.
  stored : Option String
  -- The `_finish` of `_execute`, and that of the failure path.
  finished : Except Raised Unit
  failed : Except Raised Unit

variable (r : Readers σ δ)

def stream : ℕ → σ → List (String × Option δ) → List (ℕ × Notice) × Except Raised (ℕ × σ)
  | seq, final, [] => ([], .ok (seq, final))
  | seq, final, (_, none) :: yields => stream seq final yields
  | seq, final, (node, some delta) :: yields =>
    let final := r.update final delta
    match r.message node delta, r.counts final with
    | .error raised, _ | .ok _, .error raised => ([], .error raised)
    | .ok message, .ok counts =>
      let handed := (seq, .completed node message counts) ::
        ((nextNodeHint node).map fun next => (seq + 1, .started next)).toList
      let streamed := stream (seq + handed.length) final yields
      (handed ++ streamed.1, streamed.2)

def execute (d : Drive σ δ) (state : σ) (seq : ℕ) : List (ℕ × Notice) × Except Raised ℕ :=
  let streamed := stream r seq state d.yields
  match streamed.2, d.ending, d.finished with
  | .error raised, _, _ | .ok _, .error raised, _ | .ok _, .ok _, .error raised =>
    (streamed.1, .error raised)
  | .ok (seq, final), .ok _, .ok _ =>
    let status := if r.hasGaps final then .completedWithFindings else .completed
    (streamed.1 ++ [(seq, .done status d.stored (r.confidence final))], .ok (seq + 1))

/-- `_drive`: what is handed to the publisher. -/
def drive (d : Drive σ δ) : List (ℕ × Notice) :=
  match d.state with
  | .error _ => []
  | .ok state =>
    let seq := 0
    let handed := [(seq, .started "planner")]
    let seq := seq + 1
    let executed := execute r d state seq
    handed ++ executed.1 ++
      match executed.2, d.failed with
      -- What `_execute` would have returned was never assigned.
      | .error raised, .ok _ => [(seq, .error raised)]
      | .error _, .error _ | .ok _, _ => []

end

/-! ## The hub -/

structure Moment where
  before : List (Act Payload)
  ts : ℤ
  now : ℚ
  swept : ℚ

section

variable (sys : Setup Payload) {investigationId : String} (hnamed : investigationId ≠ "")
  (moments : ℕ → Moment)

/-- The events handed over one after the other, and what `publish` answers. -/
def deliver : ℕ → System Payload → List (ℕ × Notice) → List (TimelineEvent Payload × Bool)
  | _, _, [] => []
  | k, s, (seq, notice) :: rest =>
    let s := (moments k).before.foldl sys.step s
    let e := notice.event hnamed seq (moments k).ts
    let channel := s.hub.channel investigationId (moments k).now
    (e, decide (channel.lastSeq < e.seq)) ::
      deliver (k + 1) (s.publish sys.cfg e (moments k).now (moments k).swept) rest

def timeline {σ δ : Type} (r : Readers σ δ) (lastPrune : ℚ) (d : Drive σ δ) :
    List (TimelineEvent Payload × Bool) :=
  deliver sys hnamed moments 0 (System.fresh lastPrune) (drive r d)

end

def Ends (handed : List (TimelineEvent Payload × Bool)) : Prop :=
  (handed.map fun entry => entry.1.seq).Pairwise (· < ·) ∧
    ∃ front last, handed = front ++ [(last, true)] ∧ last.isTerminal = true ∧
      ∀ entry ∈ front, entry.1.isTerminal = false

/-! ## The numbers of a stream -/

section

variable {σ δ : Type} {r : Readers σ δ}

def Readers.describes (r : Readers σ δ) (final : σ) (node : String) (delta : δ) : Bool :=
  (r.message node delta).isOk && (r.counts (r.update final delta)).isOk

def Readers.describesAll (r : Readers σ δ) : σ → List (String × Option δ) → Bool
  | _, [] => true
  | final, (_, none) :: yields => r.describesAll final yields
  | final, (node, some delta) :: yields =>
    r.describes final node delta && r.describesAll (r.update final delta) yields

def Readers.describesFirst (r : Readers σ δ) (final : σ) : List (String × Option δ) → Bool
  | [] => false
  | (_, none) :: yields => r.describesFirst final yields
  | (node, some delta) :: _ => r.describes final node delta

variable {seq : ℕ}

variable {final : σ}

theorem stream_described {node : String} {delta : δ}
    {yields : List (String × Option δ)} (h : r.describes final node delta = true) :
    ∃ (handed : List (ℕ × Notice)), handed ≠ [] ∧
      handed.map Prod.fst = List.range' seq handed.length ∧
      (∀ entry ∈ handed, entry.2.isTerminal = false) ∧
      stream r seq final ((node, some delta) :: yields) =
        (handed ++ (stream r (seq + handed.length) (r.update final delta) yields).1,
          (stream r (seq + handed.length) (r.update final delta) yields).2) := by
  obtain ⟨hmessage, hcounts⟩ := Bool.and_eq_true_iff.mp h
  cases hm : r.message node delta with
  | error raised =>
    rw [hm] at hmessage
    cases hmessage
  | ok message =>
    cases hc : r.counts (r.update final delta) with
    | error raised =>
      rw [hc] at hcounts
      cases hcounts
    | ok counts =>
      refine ⟨(seq, .completed node message counts) ::
        ((nextNodeHint node).map fun next => (seq + 1, .started next)).toList,
        cons_ne_nil _ _, ?_, ?_, ?_⟩
      · cases nextNodeHint node <;> rfl
      · intro entry hentry
        cases hnext : nextNodeHint node with
        | none =>
          rw [hnext] at hentry
          obtain rfl := mem_singleton.mp hentry
          rfl
        | some next =>
          rw [hnext] at hentry
          rcases mem_cons.mp hentry with rfl | hentry
          · rfl
          · obtain rfl := mem_singleton.mp hentry
            rfl
      · rw [stream.eq_3]
        rw [hm, hc]

theorem stream_undescribed {node : String} {delta : δ}
    {yields : List (String × Option δ)} (h : r.describes final node delta = false) :
    ∃ raised, stream r seq final ((node, some delta) :: yields) = ([], .error raised) := by
  rw [stream.eq_3]
  cases hm : r.message node delta with
  | error raised => exact ⟨raised, rfl⟩
  | ok message =>
    cases hc : r.counts (r.update final delta) with
    | error raised => exact ⟨raised, rfl⟩
    | ok counts =>
      unfold Readers.describes at h
      rw [hm, hc] at h
      cases h

theorem stream_spec (seq : ℕ) (final : σ) (yields : List (String × Option δ)) :
    (stream r seq final yields).1.map Prod.fst =
        List.range' seq (stream r seq final yields).1.length ∧
      (∀ entry ∈ (stream r seq final yields).1, entry.2.isTerminal = false) ∧
      ∀ next ∈ (stream r seq final yields).2.toOption,
        next.1 = seq + (stream r seq final yields).1.length := by
  induction yields generalizing seq final with
  | nil =>
    refine ⟨rfl, fun entry h => absurd h not_mem_nil, ?_⟩
    rintro _ ⟨⟩
    rfl
  | cons yielded yields ih =>
    obtain ⟨node, _ | delta⟩ := yielded
    · exact ih seq final
    · cases hd : r.describes final node delta with
      | false =>
        obtain ⟨raised, hstream⟩ := @stream_undescribed _ _ r seq _ _ _ yields hd
        rw [hstream]
        exact ⟨rfl, fun entry h => absurd h not_mem_nil,
          fun next h => absurd h (Option.not_mem_none next)⟩
      | true =>
        obtain ⟨handed, _, hnumbers, hopen, hstream⟩ := @stream_described _ _ r seq _ _ _ yields hd
        obtain ⟨ihnumbers, ihopen, ihnext⟩ := ih (seq + handed.length) (r.update final delta)
        rw [hstream]
        refine ⟨?_, fun entry h => ?_, fun next h => ?_⟩
        · rw [map_append, hnumbers, ihnumbers, length_append, List.range'_append_1]
        · exact (mem_append.mp h).elim (hopen entry) (ihopen entry)
        · rw [ihnext next h, length_append, Nat.add_assoc]

variable {yields : List (String × Option δ)}

theorem stream_ok_iff :
    (stream r seq final yields).2.isOk = true ↔ r.describesAll final yields = true := by
  induction yields generalizing seq final with
  | nil => exact ⟨fun _ => rfl, fun _ => rfl⟩
  | cons yielded yields ih =>
    obtain ⟨node, _ | delta⟩ := yielded
    · exact ih
    · unfold Readers.describesAll
      cases hd : r.describes final node delta with
      | false =>
        obtain ⟨raised, hstream⟩ := @stream_undescribed _ _ r seq _ _ _ yields hd
        rw [hstream]
        exact ⟨fun h => absurd h Bool.noConfusion, fun h => absurd h Bool.noConfusion⟩
      | true =>
        obtain ⟨handed, _, _, _, hstream⟩ := @stream_described _ _ r seq _ _ _ yields hd
        rw [hstream, Bool.true_and]
        exact ih

theorem stream_nil_iff :
    (stream r seq final yields).1 = [] ↔ r.describesFirst final yields = false := by
  induction yields with
  | nil => exact ⟨fun _ => rfl, fun _ => rfl⟩
  | cons yielded yields ih =>
    obtain ⟨node, _ | delta⟩ := yielded
    · exact ih
    · unfold Readers.describesFirst
      cases hd : r.describes final node delta with
      | false =>
        obtain ⟨raised, hstream⟩ := @stream_undescribed _ _ r seq _ _ _ yields hd
        rw [hstream]
        exact ⟨fun _ => rfl, fun _ => rfl⟩
      | true =>
        obtain ⟨handed, hne, _, _, hstream⟩ := @stream_described _ _ r seq _ _ _ yields hd
        rw [hstream]
        refine ⟨fun h => ?_, fun h => absurd h Bool.noConfusion⟩
        exact absurd (append_eq_nil_iff.mp h).1 hne

end

end OmniSense.Investigations
