import OmniSense.Ingest.Draining

/-! The flush deadline against the age of the rows. `flush` starts the clock again for the rows it
leaves behind, so the deadline follows them exactly when none of them arrived before that. -/

namespace OmniSense.Ingest.Loop

open Library List Option State

variable {cfg : BatcherConfig} {now : ℚ} {s s' : State} {i : ℕ} {item : GraphWrite}
  {take : List GraphWrite} {caller : Caller} {outcome : Outcome} {call : Call} {action : Action}

/-! ## What a step does to the rows -/

def State.rows (s : State) : List GraphWrite × Option ℚ × List GraphWrite × List GraphWrite :=
  (s.buffer, s.deadline, s.accepted, s.removed)

def Action.time : Action → Option ℚ
  | .submit _ now | .resume _ _ now => some now
  | .flush | .start | .aclose => none

def Call.handed : Call → Option (List GraphWrite)
  | .flushing _ (.applying f) => some f.take
  | .flushing _ (.deadLettering take) => some take
  | _ => none

def State.removal (s : State) : Action → Option (ℚ × List GraphWrite)
  | .resume i .returned now => (s.calls[i]?.bind Call.handed).map (now, ·)
  | _ => none

theorem submit_rows (s : State) :
    (s.submit cfg now item).1.rows = s.rows ∨
      (s.submit cfg now item).1.rows = (s.accept cfg now item).rows := by
  unfold submit
  split_ifs
  · exact .inl rfl
  · exact .inl rfl
  · exact .inr rfl

theorem resubmit_rows (s : State) :
    (s.resubmit cfg now item).1.rows = s.rows ∨
      (s.resubmit cfg now item).1.rows = (s.accept cfg now item).rows := by
  unfold resubmit
  split_ifs
  · exact .inl rfl
  · exact .inl rfl
  · exact .inr rfl

theorem drain_rows (s : State) : s.drain.1.rows = s.rows := by
  unfold drain
  split_ifs <;> rfl

theorem run_rows (s : State) : (s.run cfg now).1.rows = s.rows := by
  unfold run
  split_ifs <;> rfl

theorem flushed_rows (s : State) (caller : Caller) (outcome : Outcome) :
    (s.flushed cfg now caller outcome).1.rows = s.rows := by
  cases caller with
  | user => rfl
  | run =>
    cases outcome with
    | returned => exact run_rows s
    | _ => rfl
  | aclose =>
    cases outcome with
    | returned => exact drain_rows s
    | _ => rfl

theorem aclose_rows (s : State) : s.aclose.1.rows = s.rows := by
  unfold aclose
  split_ifs
  · rfl
  · split
    · rfl
    · exact drain_rows _

theorem resumeFlush_rows {flush : Flush} {r : State × Call}
    (hr : s.resumeFlush cfg now i caller outcome flush = some r)
    (hkeeps : outcome = .returned → (Call.flushing caller flush).handed = none) :
    r.1.rows = s.rows := by
  cases flush with
  | locking =>
    dsimp only [resumeFlush] at hr
    split_ifs at hr
    · cases hr
      exact flushed_rows s caller outcome
    · cases hr
      exact flushed_rows s caller .returned
    · cases hr
      rfl
  | applying f =>
    cases outcome with
    | returned => cases hkeeps rfl
    | raised =>
      dsimp only [resumeFlush] at hr
      split_ifs at hr
      · cases hr
        rfl
      · cases hr
        rfl
      · cases hr
        exact flushed_rows s.unlocked caller .raised
    | cancelled =>
      cases hr
      exact flushed_rows s.unlocked caller .cancelled
  | sleeping f =>
    dsimp only [resumeFlush] at hr
    split_ifs at hr
    · cases hr
      rfl
    · cases hr
      exact flushed_rows s.unlocked caller outcome
  | deadLettering take =>
    dsimp only [resumeFlush] at hr
    split_ifs at hr with hreturned
    · cases hkeeps hreturned
    · cases hr
      exact flushed_rows s.unlocked caller outcome
  | notifying =>
    dsimp only [resumeFlush] at hr
    split_ifs at hr
    · cases hr
      exact flushed_rows s caller .cancelled
    · cases hr
      exact flushed_rows (s.release cfg) caller outcome

theorem resume_rows {r : State × Call} (hr : s.resume cfg now i outcome call = some r)
    (hkeeps : outcome = .returned → call.handed = none) :
    r.1.rows = s.rows ∨ ∃ item, r.1.rows = (s.accept cfg now item).rows := by
  cases call with
  | submitting item wait =>
    cases outcome with
    | returned =>
      cases wait with
      | waiting => cases hr
      | _ =>
        cases hr
        exact (resubmit_rows s).imp id fun h => ⟨item, h⟩
    | _ =>
      cases hr
      exact .inl rfl
  | flushing caller flush => exact .inl (resumeFlush_rows hr hkeeps)
  | starting | resting =>
    dsimp only [resume] at hr
    split_ifs at hr
    · cases hr
      exact .inl (run_rows s)
    · cases hr
      exact .inl rfl
  | idling =>
    dsimp only [resume] at hr
    split_ifs at hr
    · cases hr
      exact .inl rfl
    · cases hr
      exact .inl (run_rows _)
  | timing due =>
    dsimp only [resume] at hr
    split_ifs at hr
    · cases hr
      exact .inl rfl
    · cases hr
      exact .inl (run_rows s)
  | joining task =>
    dsimp only [resume] at hr
    split_ifs at hr
    · cases hr
      exact .inl rfl
    · split at hr
      · cases hr
        exact .inl (drain_rows s)
      · cases hr
        exact .inl rfl
      · cases hr
  | leaving drained =>
    cases outcome with
    | _ =>
      cases hr
      exact .inl rfl
  | ended | closed => cases hr

theorem step_rows (hstep : s.step cfg action = some s') (hkeeps : s.removal action = none) :
    s'.rows = s.rows ∨ ∃ now ∈ action.time, ∃ item, s'.rows = (s.accept cfg now item).rows := by
  cases action with
  | submit item now =>
    cases hstep
    exact (submit_rows s).imp id fun h => ⟨now, rfl, item, h⟩
  | flush =>
    cases hstep
    exact .inl rfl
  | start =>
    dsimp only [step] at hstep
    split_ifs at hstep
    · cases hstep
      exact .inl rfl
    · cases hstep
      exact .inl rfl
  | aclose =>
    cases hstep
    exact .inl (aclose_rows s)
  | resume i outcome now =>
    obtain ⟨call, hcall, hrest⟩ := bind_eq_some_iff.mp hstep
    obtain ⟨r, hr, rfl⟩ := map_eq_some_iff.mp hrest
    have hhanded : outcome = .returned → call.handed = none := by
      rintro rfl
      rw [removal, hcall] at hkeeps
      exact map_eq_none_iff.mp hkeeps
    exact (resume_rows hr hhanded).imp id fun ⟨item, h⟩ => ⟨now, rfl, item, h⟩

variable (cfg) in
theorem removal_rows (hremoval : s.removal action = some (now, take)) :
    ∃ s', s.step cfg action = some s' ∧ s'.rows = (s.remove cfg now take).rows := by
  unfold removal at hremoval
  split at hremoval
  next i _ =>
    obtain ⟨take', htake, heq⟩ := map_eq_some_iff.mp hremoval
    obtain ⟨rfl, rfl⟩ := Prod.mk.inj heq
    obtain ⟨call, hcall, hhanded⟩ := bind_eq_some_iff.mp htake
    unfold Call.handed at hhanded
    split at hhanded
    · cases hhanded
      exact ⟨_, bind_eq_some_iff.mpr ⟨_, hcall, rfl⟩, rfl⟩
    · cases hhanded
      exact ⟨_, bind_eq_some_iff.mpr ⟨_, hcall, rfl⟩, rfl⟩
    · cases hhanded
  next => cases hremoval

/-! ## The rows and when they arrived -/

structure Timed where
  state : State
  arrivals : List ℚ

namespace Timed

def new : Timed := ⟨State.new, []⟩

def step (cfg : BatcherConfig) (t : Timed) (action : Action) : Option Timed :=
  (t.state.step cfg action).map fun s =>
    let came := (s.accepted.drop t.state.accepted.length).filterMap fun _ => action.time
    ⟨s, (t.arrivals ++ came).drop (s.removed.length - t.state.removed.length)⟩

end Timed

def Due (cfg : BatcherConfig) (t : Timed) : Prop :=
  t.state.buffer ≠ [] →
    ∃ due ∈ t.state.deadline, ∃ arrived ∈ t.arrivals.head?, due ≤ arrived + cfg.maxAge

def OnTime (t : Timed) (action : Action) : Prop :=
  ∀ now take, t.state.removal action = some (now, take) →
    ∀ arrived ∈ t.arrivals[take.length]?, now ≤ arrived

def Timely (t : Timed) : Prop := t.arrivals.length = t.state.buffer.length

variable {t t' : Timed}

theorem timed_removes (hstep : t.step cfg action = some t')
    (hremoval : t.state.removal action = some (now, take)) :
    t'.state.rows = (t.state.remove cfg now take).rows ∧
      t'.arrivals = t.arrivals.drop take.length := by
  obtain ⟨s, hs, rfl⟩ := map_eq_some_iff.mp hstep
  obtain ⟨s', hs', hrows⟩ := removal_rows cfg hremoval
  obtain rfl := Option.some.inj (hs.symm.trans hs')
  have haccepted : s.accepted = t.state.accepted := congrArg (·.2.2.1) hrows
  have hremoved : s.removed = t.state.removed ++ take := congrArg (·.2.2.2) hrows
  refine ⟨hrows, ?_⟩
  rw [haccepted, hremoved, drop_length, length_append, Nat.add_sub_cancel_left]
  exact congrArg _ (append_nil _)

theorem timed_keeps (hstep : t.step cfg action = some t') (hkeeps : t.state.removal action = none) :
    (t'.state.rows = t.state.rows ∧ t'.arrivals = t.arrivals) ∨
      ∃ now item, t'.state.rows = (t.state.accept cfg now item).rows ∧
        t'.arrivals = t.arrivals ++ [now] := by
  obtain ⟨s, hs, rfl⟩ := map_eq_some_iff.mp hstep
  rcases step_rows hs hkeeps with hrows | ⟨now, hnow, item, hrows⟩
  · have haccepted : s.accepted = t.state.accepted := congrArg (·.2.2.1) hrows
    have hremoved : s.removed = t.state.removed := congrArg (·.2.2.2) hrows
    refine .inl ⟨hrows, ?_⟩
    rw [haccepted, hremoved, drop_length, Nat.sub_self]
    exact append_nil _
  · have haccepted : s.accepted = t.state.accepted ++ [item] := congrArg (·.2.2.1) hrows
    have hremoved : s.removed = t.state.removed := congrArg (·.2.2.2) hrows
    refine .inr ⟨now, item, hrows, ?_⟩
    rw [haccepted, hremoved, drop_left, Nat.sub_self, mem_def.mp hnow]
    rfl

/-! ## Steps and runs -/

theorem due_step (htimely : Timely t) (hdue : Due cfg t) (hstep : t.step cfg action = some t') :
    Timely t' ∧ (Due cfg t' ↔ OnTime t action) := by
  unfold Timely Due OnTime at *
  cases hremoval : t.state.removal action with
  | some removal =>
    obtain ⟨now, take⟩ := removal
    obtain ⟨hrows, harrivals⟩ := timed_removes hstep hremoval
    have hbuffer : t'.state.buffer = t.state.buffer.drop take.length := congrArg (·.1) hrows
    have hdeadline : t'.state.deadline =
        if (t.state.buffer.drop take.length).isEmpty then none else some (now + cfg.maxAge) :=
      congrArg (·.2.1) hrows
    refine ⟨by rw [hbuffer, harrivals, length_drop, length_drop, htimely], ?_⟩
    rw [hbuffer, hdeadline, harrivals, List.head?_drop]
    constructor
    · rintro hdue _ _ ⟨⟩ arrived harrived
      -- There is a row with that arrival, so the clock runs for it.
      have hlt := (List.getElem?_eq_some_iff.mp harrived).1
      have hrest : t.state.buffer.drop take.length ≠ [] := by
        rw [Ne, drop_eq_nil_iff, not_le, ← htimely]
        exact hlt
      obtain ⟨due, hdue, arrived', harrived', hle⟩ := hdue hrest
      rw [if_neg (by rwa [List.isEmpty_iff])] at hdue
      cases hdue
      obtain rfl := Option.some.inj (harrived.symm.trans harrived')
      exact le_of_add_le_add_right hle
    · intro hontime hrest
      have hlt : take.length < t.arrivals.length := by
        rw [Ne, drop_eq_nil_iff, not_le, ← htimely] at hrest
        exact hrest
      have harrived := List.getElem?_eq_getElem hlt
      refine ⟨now + cfg.maxAge, ?_, _, harrived, ?_⟩
      · rw [if_neg (by rwa [List.isEmpty_iff])]
        rfl
      · have hle := hontime now take rfl _ harrived
        exact add_le_add_left hle cfg.maxAge
  | none =>
    have hontime : ∀ now take, (none : Option (ℚ × List GraphWrite)) = some (now, take) →
        ∀ arrived ∈ t.arrivals[take.length]?, now ≤ arrived := nofun
    rw [iff_true_right hontime]
    rcases timed_keeps hstep hremoval with ⟨hrows, harrivals⟩ | ⟨now, item, hrows, harrivals⟩
    · have hbuffer : t'.state.buffer = t.state.buffer := congrArg (·.1) hrows
      have hdeadline : t'.state.deadline = t.state.deadline := congrArg (·.2.1) hrows
      rw [hbuffer, hdeadline, harrivals]
      exact ⟨htimely, hdue⟩
    · have hbuffer : t'.state.buffer = t.state.buffer ++ [item] := congrArg (·.1) hrows
      have hdeadline : t'.state.deadline =
          if t.state.buffer.isEmpty then some (now + cfg.maxAge) else t.state.deadline :=
        congrArg (·.2.1) hrows
      rw [hbuffer, hdeadline, harrivals, length_append, length_append, htimely]
      refine ⟨rfl, fun _ => ?_⟩
      by_cases hempty : t.state.buffer = []
      · -- The clock starts with this row.
        have hnone : t.arrivals = [] := length_eq_zero_iff.mp (by rw [htimely, hempty]; rfl)
        rw [hempty, hnone]
        exact ⟨_, rfl, now, rfl, le_rfl⟩
      · obtain ⟨due, hdue, arrived, harrived, hle⟩ := hdue hempty
        rw [if_neg (by rwa [List.isEmpty_iff]), List.head?_append, mem_def.mp harrived]
        exact ⟨due, hdue, arrived, rfl, hle⟩

/-- In every state that a run reaches the deadline follows the oldest row, just when no flush of the
run leaves a row behind that arrived before it. -/
theorem deadline_follows_iff (cfg : BatcherConfig) (actions : List Action) :
    (∀ before t, before <+: actions → runs (Timed.step cfg) Timed.new before = some t →
        Due cfg t) ↔
      Along (Timed.step cfg) OnTime Timed.new actions := by
  refine reaches_iff (I := Timely) (fun t action t' htimely hdue => due_step htimely hdue)
    (fun t action hnone now take hremoval => ?_) rfl fun h => absurd rfl h
  obtain ⟨s', hs', -⟩ := removal_rows cfg hremoval
  rw [Timed.step, hs'] at hnone
  cases hnone

def partialFlush : List Action :=
  [.submit (stub "a") 0, .submit (stub "b") 0, .flush, .resume 2 .returned 0, .resume 2 .returned 1]

theorem second_row_late : ∃ t,
    runs (Timed.step smallBatches) Timed.new partialFlush = some t ∧ ¬ Due smallBatches t := by
  have hrun : (runs (Timed.step smallBatches) Timed.new partialFlush).map
      (fun t => (t.state.buffer.isEmpty, t.state.deadline, t.arrivals)) =
        some (false, some 3, [0]) := by
    decide +kernel
  obtain ⟨t, ht, hfields⟩ := map_eq_some_iff.mp hrun
  obtain ⟨hbuffer, hrest⟩ := Prod.mk.inj hfields
  obtain ⟨hdeadline, harrivals⟩ := Prod.mk.inj hrest
  refine ⟨t, ht, fun hdue => ?_⟩
  obtain ⟨due, hdue, arrived, harrived, hle⟩ := hdue fun hempty => by
    rw [hempty] at hbuffer
    cases hbuffer
  rw [hdeadline] at hdue
  rw [harrivals] at harrived
  cases hdue
  cases harrived
  revert hle
  decide +kernel

end OmniSense.Ingest.Loop
