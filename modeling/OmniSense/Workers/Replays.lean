import OmniSense.Workers.Dlq
import Mathlib.Tactic.Linarith

/-! The replay cycle: a message is consumed and parked, an operator makes an entry of its DLQ record,
and the replayer publishes it again. -/

namespace OmniSense.Workers
open Events

/-- A message on a topic. The consumer parks the record; the headers beside it are not kept. -/
structure Message where
  record : Record
  headers : List (String × String)

inductive Stage
  | inFlight (message : Message)
  | parked (message : Message) (dlq : DlqMessage)
  | settled

structure CycleState where
  stage : Stage
  published : ℕ

inductive Act
  -- The consumer takes the message in flight.
  | consume (world : Faults)
  -- An operator makes an entry of the DLQ record and calls `replay` on it; the publication lands
  -- on the topic as `lands`.
  | replay (build : DlqMessage → Option DlqEntry) (dryRun accepted : Bool) (lands : Record)

structure Setup where
  cfg : ConsumerConfig
  casefold : String → String

def Setup.step (sys : Setup) (s : CycleState) : Act → CycleState
  | .consume world =>
    match s.stage with
    | .inFlight message =>
      match handleRecord sys.cfg message.record world with
      | .advance (.parked dlq) _ => { s with stage := .parked message dlq }
      | .advance _ _ => { s with stage := .settled }
      | .block _ | .raised => s
    | _ => s
  | .replay build dryRun accepted lands =>
    match s.stage with
    | .parked _ dlq =>
      match (Workers.replay sys.casefold dryRun (fun _ => accepted) (build dlq).toList).2 with
      | [] => s
      | publication :: more =>
        ⟨.inFlight ⟨lands, publication.headers⟩, s.published + (publication :: more).length⟩
    | _ => s

def Setup.run (sys : Setup) (message : Message) (acts : List Act) : CycleState :=
  acts.foldl sys.step ⟨.inFlight message, 0⟩

/-! ## What a replay publishes -/

variable {sys : Setup} {casefold : String → String} {dryRun : Bool} {accepts : Publication → Bool}
  {entry : DlqEntry} {message : Message}

theorem replay_single (h : (replay casefold dryRun accepts [entry]).2 ≠ []) :
    (replay casefold dryRun accepts [entry]).2 = [entry.publication] ∧
      entry.refusalReason casefold = none := by
  -- One entry is published at most once, and only below the cap.
  unfold replay at h ⊢
  simp only [List.foldl_cons, List.foldl_nil, replayEntry] at h ⊢
  cases hreason : entry.refusalReason casefold with
  | some reason =>
    rw [hreason] at h
    exact absurd rfl h
  | none =>
    rw [hreason] at h
    split_ifs at h ⊢ <;> first | exact ⟨rfl, rfl⟩ | exact absurd rfl h

theorem replayCount_lt_of_accepted (h : entry.refusalReason casefold = none) :
    entry.replayCount < MAX_REPLAY_ATTEMPTS := by
  unfold DlqEntry.refusalReason at h
  split_ifs at h with hcap
  exact not_le.mp hcap

/-! ## The count across the round trip -/

def Carries (message : Message) (published : ℕ) : Prop :=
  match message.headers.lookup REPLAY_COUNT_HEADER with
  | none => published = 0
  | some text => ∃ count : ℤ, text = toString count ∧ published ≤ count

def CountKept (failed : Message) (entry : DlqEntry) : Prop :=
  match failed.headers.lookup REPLAY_COUNT_HEADER with
  | none => 0 ≤ entry.replayCount
  | some text => ∀ count : ℤ, text = toString count → count ≤ entry.replayCount

def Act.KeepsCount (casefold : String → String) (s : CycleState) : Act → Prop
  | .consume _ => True
  | .replay build _ _ _ => ∀ failed dlq entry, s.stage = .parked failed dlq →
      build dlq = some entry → entry.refusalReason casefold = none → CountKept failed entry

def Setup.CountsKept (sys : Setup) : CycleState → List Act → Prop
  | _, [] => True
  | s, act :: acts => act.KeepsCount sys.casefold s ∧ sys.CountsKept (sys.step s act) acts

def Stage.message? : Stage → Option Message
  | .inFlight message | .parked message _ => some message
  | .settled => none

structure Counted (s : CycleState) : Prop where
  capped : s.published ≤ MAX_REPLAY_ATTEMPTS
  carried : ∀ message, s.stage.message? = some message → Carries message s.published

theorem Carries.le_replayCount {published : ℕ} (h : Carries message published)
    (hkept : CountKept message entry) : (published : ℤ) ≤ entry.replayCount := by
  unfold Carries at h
  unfold CountKept at hkept
  split at h
  · next hheader =>
    rw [hheader] at hkept
    rw [h]
    exact hkept
  · next text hheader =>
    rw [hheader] at hkept
    obtain ⟨count, htext, hcount⟩ := h
    exact hcount.trans (hkept count htext)

theorem carries_publication {published : ℕ} {lands : Record}
    (h : (published : ℤ) ≤ entry.replayCount) :
    Carries ⟨lands, entry.publication.headers⟩ (published + 1) := by
  refine ⟨entry.replayCount + 1, rfl, ?_⟩
  push_cast
  omega

variable {s : CycleState}

theorem Counted.consume (h : Counted s) (world : Faults) :
    Counted (sys.step s (.consume world)) := by
  obtain ⟨stage, published⟩ := s
  unfold Setup.step
  cases stage with
  | inFlight message =>
    dsimp only
    split
    · exact ⟨h.capped, h.carried⟩
    · exact ⟨h.capped, fun message hover => nomatch hover⟩
    · exact h
    · exact h
  | parked | settled => exact h

theorem Counted.replay {build : DlqMessage → Option DlqEntry}
    {accepted : Bool} {lands : Record} (h : Counted s)
    (hkept : (Act.replay build dryRun accepted lands).KeepsCount sys.casefold s) :
    Counted (sys.step s (.replay build dryRun accepted lands)) := by
  obtain ⟨stage, published⟩ := s
  unfold Setup.step
  cases stage with
  | inFlight | settled => exact h
  | parked failed dlq =>
    dsimp only
    cases hentry : build dlq with
    | none => exact h
    | some entry =>
      by_cases hsent :
          (Workers.replay sys.casefold dryRun (fun _ => accepted) [entry]).2 = []
      · simp only [Option.toList_some, hsent]
        exact h
      · obtain ⟨hpublished, hreason⟩ := replay_single hsent
        have hcount : (published : ℤ) ≤ entry.replayCount :=
          (h.carried failed rfl).le_replayCount (hkept failed dlq entry rfl hentry hreason)
        have hcap := replayCount_lt_of_accepted hreason
        have hnext : published + 1 ≤ MAX_REPLAY_ATTEMPTS := by omega
        simp only [Option.toList_some, hpublished, List.length_singleton]
        refine ⟨hnext, fun message hmessage => ?_⟩
        cases hmessage
        exact carries_publication hcount

theorem Counted.run {acts : List Act} (h : Counted s)
    (hkept : sys.CountsKept s acts) : Counted (acts.foldl sys.step s) := by
  induction acts generalizing s with
  | nil => exact h
  | cons act acts ih =>
    obtain ⟨hact, hrest⟩ := hkept
    cases act with
    | consume world => exact ih (h.consume world) hrest
    | replay build dryRun accepted lands => exact ih (h.replay hact) hrest

/-- A message whose count survives each round trip is published at most three times. -/
theorem published_le_cap (sys : Setup) (message : Message) (acts : List Act)
    (hfresh : message.headers.lookup REPLAY_COUNT_HEADER = none)
    (hkept : sys.CountsKept ⟨.inFlight message, 0⟩ acts) :
    (sys.run message acts).published ≤ MAX_REPLAY_ATTEMPTS := by
  have hstart : Counted ⟨.inFlight message, 0⟩ := by
    refine ⟨Nat.zero_le _, fun other hother => ?_⟩
    cases hother
    unfold Carries
    rw [hfresh]
  exact (hstart.run hkept).capped

def signalSetup : Setup where
  cfg := {
    groupId := "enrichment"
    serviceName := "omnisense"
    topicName := fun
      | .rawRecords => "omnisense.records.raw"
      | .signals => "omnisense.signals"
      | .graphUpdates => "omnisense.graph.updates"
      | .dlq => "omnisense.dlq"
    dlqEnabled := true
    maxAttempts := 5
    fromBytes := fun _ => some ⟨"e1", .signalEnriched, 1, "c1", none⟩
    one_le_maxAttempts := by decide }
  casefold := String.toLower

def signalRecord (offset : ℕ) : Record := ⟨⟨"omnisense.signals", 0⟩, offset, none, [123, 125]⟩

def unreachableStore : Act := .consume ⟨fun _ => .raised ["ConnectionError"], .returned⟩

def entryOfRecord (dlq : DlqMessage) : Option DlqEntry :=
  dlq.event.originalEventId.map fun eventId => {
    messageId := eventId
    originalTopic := dlq.event.originalTopic
    correlationId := some dlq.correlationId
    errorType := dlq.event.errorChain.head?
    errorMessage := none
    failedAt := 0
    attempts := dlq.event.attempts }

theorem published_le_cap_once :
    (signalSetup.run ⟨signalRecord 0, []⟩
      [unreachableStore, .replay entryOfRecord false true (signalRecord 1),
        unreachableStore]).published ≤ MAX_REPLAY_ATTEMPTS := by
  refine published_le_cap signalSetup ⟨signalRecord 0, []⟩ _ rfl
    ⟨trivial, fun failed dlq entry hstage hentry _ => ?_, trivial, trivial⟩
  have hparked : (signalSetup.step ⟨.inFlight ⟨signalRecord 0, []⟩, 0⟩ unreachableStore).stage =
      .parked ⟨signalRecord 0, []⟩ (.wrap signalSetup.cfg
        (.fromFailure (signalRecord 0) ["ConnectionError"] "enrichment" 5
          (some ⟨"e1", .signalEnriched, 1, "c1", none⟩))
        (some ⟨"e1", .signalEnriched, 1, "c1", none⟩)) := rfl
  rw [hparked] at hstage
  cases hstage
  cases hentry
  exact le_rfl

/-! ## Entries made of the record alone -/

def Act.By (build : DlqMessage → Option DlqEntry) : Act → Prop
  | .consume _ => True
  | .replay build' _ _ _ => build' = build

def ReplaysCapped : Prop :=
  ∀ (sys : Setup) (message : Message) (build : DlqMessage → Option DlqEntry) (acts : List Act),
    message.headers.lookup REPLAY_COUNT_HEADER = none → (∀ act ∈ acts, act.By build) →
      (sys.run message acts).published ≤ MAX_REPLAY_ATTEMPTS

/-- Four rounds of the cycle publish the message four times. -/
theorem fourth_replay_published : ¬ ReplaysCapped := by
  intro hcapped
  have hcap := hcapped signalSetup ⟨signalRecord 0, []⟩ entryOfRecord
    ((List.range 4).flatMap fun round =>
      [unreachableStore, .replay entryOfRecord false true (signalRecord (round + 1))]) rfl (by
    intro act hact
    obtain ⟨round, _, hround⟩ := List.mem_flatMap.mp hact
    simp only [List.mem_cons, List.not_mem_nil, or_false] at hround
    rcases hround with rfl | rfl
    · trivial
    · rfl)
  revert hcap
  decide +kernel

theorem entryFrom_stored (now failedAt : ℤ) (event : DlqEvent) :
    entryFrom now (storedFields event failedAt) = none := rfl

end OmniSense.Workers
