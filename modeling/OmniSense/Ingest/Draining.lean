import OmniSense.Ingest.Loop
import OmniSense.Library.Runs

/-! No order of the calls loses a row: the holder of the lock has the front of the buffer, nothing
is appended once the batcher closes, and a close that drained leaves it empty. -/

namespace OmniSense.Ingest.Loop

open Library List Option State

variable {cfg : BatcherConfig} {now : ℚ} {s s' : State} {i : ℕ} {item : GraphWrite}
  {take : List GraphWrite} {caller : Caller} {outcome : Outcome} {call : Call}

/-! ## The invariant -/

def Call.taken : Call → Option (List GraphWrite)
  | .flushing _ (.applying f) => some f.take
  | .flushing _ (.sleeping f) => some f.take
  | .flushing _ (.deadLettering take) => some take
  | _ => none

def Call.isClose : Call → Bool
  | .flushing .aclose _ | .joining _ | .leaving _ | .closed _ => true
  | _ => false

/-- An `aclose` that has seen the buffer empty, or returned. -/
def Call.isDrained : Call → Bool
  | .leaving true | .closed true => true
  | _ => false

structure CallOk (s : State) (i : ℕ) (call : Call) : Prop where
  closing : call.isClose = true → s.closing = true
  taken : ∀ take ∈ call.taken, s.lock = some i ∧ take <+: s.buffer
  drained : call.isDrained = true → s.buffer = []

/-- The state is sound, whatever the call `i` does next. -/
structure Apart (cfg : BatcherConfig) (s : State) (i : ℕ) : Prop where
  rows : s.accepted = s.removed ++ s.buffer
  bounded : s.buffer.length ≤ cfg.capacity
  closed : s.closed = true → s.closing = true
  others : ∀ j ≠ i, ∀ call ∈ s.calls[j]?, CallOk s j call

structure Sound (cfg : BatcherConfig) (s : State) : Prop where
  rows : s.accepted = s.removed ++ s.buffer
  bounded : s.buffer.length ≤ cfg.capacity
  closed : s.closed = true → s.closing = true
  calls : ∀ i, ∀ call ∈ s.calls[i]?, CallOk s i call

theorem Sound.apart (h : Sound cfg s) (i : ℕ) : Apart cfg s i :=
  ⟨h.rows, h.bounded, h.closed, fun j _ => h.calls j⟩

def Goes (cfg : BatcherConfig) (i : ℕ) (r : State × Call) : Prop :=
  Apart cfg r.1 i ∧ CallOk r.1 i r.2

theorem new_sound : Sound cfg new where
  rows := rfl
  bounded := Nat.zero_le _
  closed := fun h => h
  calls := fun _ _ h => absurd h (not_mem_none _)

variable {r : State × Call}

theorem Goes.set (h : Goes cfg i r) : Sound cfg { r.1 with calls := r.1.calls.set i r.2 } := by
  obtain ⟨hapart, hok⟩ := h
  refine ⟨hapart.rows, hapart.bounded, hapart.closed, fun j call hcall => ?_⟩
  rw [mem_def, List.getElem?_set] at hcall
  split_ifs at hcall with hj
  · subst hj
    cases hcall
    exact ⟨hok.closing, hok.taken, hok.drained⟩
  · have hother := hapart.others j (Ne.symm hj) call hcall
    exact ⟨hother.closing, hother.taken, hother.drained⟩

theorem Goes.add (h : Goes cfg s.calls.length r) (hcalls : r.1.calls = s.calls) :
    Sound cfg (r.1.add r.2) := by
  rw [← hcalls] at h
  obtain ⟨hapart, hok⟩ := h
  refine ⟨hapart.rows, hapart.bounded, hapart.closed, fun j call hcall => ?_⟩
  rcases lt_trichotomy j r.1.calls.length with hj | rfl | hj
  · have hold : r.1.calls[j]? = some call :=
      (List.getElem?_append_left hj).symm.trans hcall
    have hother := hapart.others j hj.ne call hold
    exact ⟨hother.closing, hother.taken, hother.drained⟩
  · obtain rfl := Option.some.inj (List.getElem?_concat_length.symm.trans hcall)
    exact ⟨hok.closing, hok.taken, hok.drained⟩
  · have hnone : (r.1.add r.2).calls[j]? = none :=
      List.getElem?_eq_none (by rw [State.add, length_append]; exact hj)
    rw [hnone] at hcall
    cases hcall

/-! ## What a call changes for the others -/

theorem Apart.congr (h : Apart cfg s i) (hbuffer : s'.buffer = s.buffer)
    (haccepted : s'.accepted = s.accepted) (hremoved : s'.removed = s.removed)
    (hlock : s'.lock = s.lock) (hcalls : s'.calls = s.calls) (hclosing : s'.closing = s.closing)
    (hclosed : s'.closed = true → s'.closing = true) : Apart cfg s' i := by
  -- Only these fields matter to the calls.
  refine ⟨?_, hbuffer ▸ h.bounded, hclosed, fun j hj call hcall => ?_⟩
  · rw [haccepted, hremoved, hbuffer]
    exact h.rows
  · have hok := h.others j hj call (hcalls ▸ hcall)
    refine ⟨fun hclose => hclosing.trans (hok.closing hclose), ?_, ?_⟩
    · rw [hlock, hbuffer]
      exact hok.taken
    · rw [hbuffer]
      exact hok.drained

theorem Apart.notifyAll (h : Apart cfg s i) : Apart cfg s.notifyAll i := by
  refine ⟨h.rows, h.bounded, h.closed, fun j hj call hcall => ?_⟩
  rw [mem_def, State.notifyAll, List.getElem?_map] at hcall
  obtain ⟨call', hcall', rfl⟩ := map_eq_some_iff.mp hcall
  have hok := h.others j hj call' hcall'
  have hsame : call'.notify = call' ∨ ∃ item, call'.notify = .submitting item .notified := by
    cases call' with
    | submitting item wait => cases wait <;> simp [Call.notify]
    | _ => exact .inl rfl
  rcases hsame with hsame | ⟨item, hnotified⟩
  · rw [hsame]
    exact ⟨hok.closing, hok.taken, hok.drained⟩
  · rw [hnotified]
    exact ⟨nofun, nofun, nofun⟩

theorem Apart.relock (h : Apart cfg s i) (hlock : s.lock = none ∨ s.lock = some i)
    (lock : Option ℕ) : Apart cfg { s with lock := lock } i := by
  refine ⟨h.rows, h.bounded, h.closed, fun j hj call hcall => ?_⟩
  have hok := h.others j hj call hcall
  refine ⟨hok.closing, fun take htake => ?_, hok.drained⟩
  have hheld := (hok.taken take htake).1
  rcases hlock with hlock | hlock <;> rw [hlock] at hheld
  · cases hheld
  · exact absurd (Option.some.inj hheld).symm hj

theorem Apart.accept (h : Apart cfg s i) (hclosing : s.closing = false)
    (hroom : s.buffer.length < cfg.capacity) : Apart cfg (s.accept cfg now item) i := by
  refine ⟨?_, ?_, h.closed, fun j hj call hcall => ?_⟩
  · change s.accepted ++ [item] = s.removed ++ (s.buffer ++ [item])
    rw [h.rows, append_assoc]
  · change (s.buffer ++ [item]).length ≤ _
    rw [length_append]
    exact hroom
  · have hok := h.others j hj call hcall
    refine ⟨hok.closing, fun take htake => ?_, fun hdrained => ?_⟩
    · obtain ⟨hlock, hfront⟩ := hok.taken take htake
      exact ⟨hlock, hfront.trans (prefix_append _ _)⟩
    · -- Nobody has drained a batcher that is open.
      have hclose : call.isClose = true := by
        cases call <;> first | rfl | nomatch hdrained
      have hopen := hok.closing hclose
      rw [hclosing] at hopen
      cases hopen

theorem Apart.remove (h : Apart cfg s i) (hlock : s.lock = some i) (hfront : take <+: s.buffer) :
    Apart cfg (s.remove cfg now take) i := by
  obtain ⟨rest, hrest⟩ := hfront
  have hbuffer : (s.remove cfg now take).buffer = rest := by
    change s.buffer.drop take.length = rest
    rw [← hrest, drop_left]
  refine ⟨?_, ?_, h.closed, fun j hj call hcall => ?_⟩
  · rw [hbuffer]
    change s.accepted = s.removed ++ take ++ rest
    rw [h.rows, ← hrest, append_assoc]
  · rw [hbuffer]
    refine le_trans ?_ h.bounded
    rw [← hrest, length_append]
    exact Nat.le_add_left _ _
  · have hok := h.others j hj call hcall
    refine ⟨hok.closing, fun take' htake' => ?_, fun hdrained => ?_⟩
    · have hheld := hlock.symm.trans (hok.taken take' htake').1
      exact absurd (Option.some.inj hheld).symm hj
    · rw [hbuffer]
      have hempty := hok.drained hdrained
      rw [← hrest] at hempty
      exact (append_eq_nil_iff.mp hempty).2

/-! ## What a call does up to its next await -/

theorem callOk_plain (hclose : call.isClose = false) (htaken : call.taken = none)
    (hdrained : call.isDrained = false) : CallOk s i call := by
  refine ⟨fun h => ?_, fun take htake => ?_, fun h => ?_⟩
  · rw [hclose] at h
    cases h
  · rw [htaken] at htake
    cases htake
  · rw [hdrained] at h
    cases h

theorem callOk_close (hclosing : s.closing = true) (htaken : call.taken = none)
    (hdrained : call.isDrained = false) : CallOk s i call := by
  -- A call of `aclose` that holds nothing and has not drained.
  refine ⟨fun _ => hclosing, fun take htake => ?_, fun h => ?_⟩
  · rw [htaken] at htake
    cases htake
  · rw [hdrained] at h
    cases h

theorem callOk_flushing (hclosing : caller = .aclose → s.closing = true) (hlock : s.lock = some i)
    (hfront : take <+: s.buffer) {flush : Flush} (htaken : (Call.flushing caller flush).taken =
      some take) : CallOk s i (.flushing caller flush) := by
  refine ⟨fun h => ?_, fun take' htake' => ?_, fun h => ?_⟩
  · cases caller with
    | aclose => exact hclosing rfl
    | _ => cases h
  · obtain rfl := Option.some.inj (htaken.symm.trans htake')
    exact ⟨hlock, hfront⟩
  · cases h

theorem submit_goes (h : Apart cfg s i) : Goes cfg i (s.submit cfg now item) := by
  unfold submit
  split_ifs with hclosed hroom
  · exact ⟨h, callOk_plain rfl rfl rfl⟩
  · exact ⟨h.congr rfl rfl rfl rfl rfl rfl h.closed, callOk_plain rfl rfl rfl⟩
  · rw [Bool.or_eq_true, not_or, Bool.not_eq_true] at hclosed
    exact ⟨h.accept hclosed.1 (not_le.mp hroom), callOk_plain rfl rfl rfl⟩

theorem resubmit_goes (h : Apart cfg s i) : Goes cfg i (s.resubmit cfg now item) := by
  unfold resubmit
  split_ifs with hroom hclosed
  · exact ⟨h, callOk_plain rfl rfl rfl⟩
  · exact ⟨h, callOk_plain rfl rfl rfl⟩
  · rw [Bool.or_eq_true, not_or, Bool.not_eq_true] at hclosed
    refine ⟨h.accept hclosed.1 (not_le.mp fun hfull => hroom ⟨hfull, ?_⟩),
      callOk_plain rfl rfl rfl⟩
    rw [hclosed.1]
    decide

theorem drain_goes (h : Apart cfg s i) (hclosing : s.closing = true) : Goes cfg i s.drain := by
  unfold drain
  split_ifs with hempty
  · refine ⟨h.congr rfl rfl rfl rfl rfl rfl fun _ => hclosing, fun _ => hclosing, nofun, fun _ => ?_⟩
    exact isEmpty_iff.mp hempty
  · exact ⟨h, callOk_close hclosing rfl rfl⟩

theorem run_goes (h : Apart cfg s i) : Goes cfg i (s.run cfg now) := by
  unfold run
  split_ifs
  · exact ⟨h, callOk_plain rfl rfl rfl⟩
  · exact ⟨h, callOk_plain rfl rfl rfl⟩
  · exact ⟨h, callOk_plain rfl rfl rfl⟩
  · exact ⟨h.congr rfl rfl rfl rfl rfl rfl h.closed, callOk_plain rfl rfl rfl⟩

theorem flushed_goes (h : Apart cfg s i) (hclosing : caller = .aclose → s.closing = true) :
    Goes cfg i (s.flushed cfg now caller outcome) := by
  cases caller with
  | user => exact ⟨h, callOk_plain rfl rfl rfl⟩
  | run =>
    cases outcome with
    | returned => exact run_goes h
    | raised | cancelled => exact ⟨h, callOk_plain rfl rfl rfl⟩
  | aclose =>
    have hleft : Goes cfg i ({ s with closed := true }, .leaving false) :=
      ⟨h.congr rfl rfl rfl rfl rfl rfl fun _ => hclosing rfl, callOk_close (hclosing rfl) rfl rfl⟩
    cases outcome with
    | returned => exact drain_goes h (hclosing rfl)
    | raised | cancelled => exact hleft

theorem resumeFlush_goes (h : Apart cfg s i) {flush : Flush}
    (hok : CallOk s i (.flushing caller flush))
    (hr : s.resumeFlush cfg now i caller outcome flush = some r) : Goes cfg i r := by
  have hclosing : caller = .aclose → s.closing = true := by
    rintro rfl
    exact hok.closing rfl
  have hremoved : ∀ take, s.lock = some i → take <+: s.buffer →
      Goes cfg i (s.remove cfg now take, .flushing caller .notifying) := by
    intro take hlock hfront
    refine ⟨h.remove hlock hfront, ⟨fun hclose => ?_, nofun, nofun⟩⟩
    exact hok.closing (by cases caller <;> first | rfl | nomatch hclose)
  have hunlocked : s.lock = some i → ∀ outcome,
      Goes cfg i (s.unlocked.flushed cfg now caller outcome) :=
    fun hlock outcome => flushed_goes (h.relock (.inr hlock) none) hclosing
  cases flush with
  | locking =>
    dsimp only [resumeFlush] at hr
    split_ifs at hr with houtcome hlock hempty
    · cases hr
      exact flushed_goes h hclosing
    · cases hr
      exact flushed_goes h hclosing
    · cases hr
      have hfree : s.lock = none := by simpa using hlock
      refine ⟨h.relock (.inl hfree) _, ?_⟩
      exact callOk_flushing (s := { s with lock := some i }) hclosing rfl ( take_prefix _ _) rfl
  | applying f =>
    obtain ⟨hlock, hfront⟩ := hok.taken f.take rfl
    cases outcome with
    | returned =>
      cases hr
      exact hremoved f.take hlock hfront
    | raised =>
      dsimp only [resumeFlush] at hr
      split_ifs at hr
      · cases hr
        exact ⟨h, callOk_flushing hclosing hlock hfront rfl⟩
      · cases hr
        exact ⟨h, callOk_flushing hclosing hlock hfront rfl⟩
      · cases hr
        exact hunlocked hlock _
    | cancelled =>
      cases hr
      exact hunlocked hlock _
  | sleeping f =>
    obtain ⟨hlock, hfront⟩ := hok.taken f.take rfl
    dsimp only [resumeFlush] at hr
    split_ifs at hr
    · cases hr
      exact ⟨h, callOk_flushing hclosing hlock hfront rfl⟩
    · cases hr
      exact hunlocked hlock _
  | deadLettering take =>
    obtain ⟨hlock, hfront⟩ := hok.taken take rfl
    dsimp only [resumeFlush] at hr
    split_ifs at hr
    · cases hr
      exact hremoved take hlock hfront
    · cases hr
      exact hunlocked hlock _
  | notifying =>
    dsimp only [resumeFlush] at hr
    split_ifs at hr
    · cases hr
      exact flushed_goes h hclosing
    · cases hr
      have hreleased : Apart cfg (s.release cfg) i :=
        h.notifyAll.congr rfl rfl rfl rfl rfl rfl h.closed
      exact flushed_goes hreleased hclosing

theorem leave_goes (h : Apart cfg s i) (hclosing : s.closing = true) {drained : Bool}
    (hdrained : drained = true → s.buffer = []) : Goes cfg i (s, .closed drained) := by
  refine ⟨h, fun _ => hclosing, nofun, fun h => hdrained ?_⟩
  cases drained with
  | true => rfl
  | false => cases h

theorem resume_goes (h : Apart cfg s i) (hok : CallOk s i call)
    (hr : s.resume cfg now i outcome call = some r) : Goes cfg i r := by
  have hfails : Goes cfg i (s, .ended false) := ⟨h, callOk_plain rfl rfl rfl⟩
  cases call with
  | submitting item wait =>
    cases outcome with
    | returned =>
      cases wait with
      | waiting => cases hr
      | _ =>
        cases hr
        exact resubmit_goes h
    | _ =>
      cases hr
      exact hfails
  | flushing caller flush => exact resumeFlush_goes h hok hr
  | starting | resting =>
    dsimp only [resume] at hr
    split_ifs at hr
    · cases hr
      exact run_goes h
    · cases hr
      exact hfails
  | idling =>
    dsimp only [resume] at hr
    split_ifs at hr
    · cases hr
      exact hfails
    · cases hr
      exact run_goes (h.congr rfl rfl rfl rfl rfl rfl h.closed)
  | timing due =>
    dsimp only [resume] at hr
    split_ifs at hr
    · cases hr
      exact hfails
    · cases hr
      exact run_goes h
  | joining task =>
    have hclosing := hok.closing rfl
    have hraises : Goes cfg i (s, .closed false) := leave_goes h hclosing nofun
    dsimp only [resume] at hr
    split_ifs at hr
    · cases hr
      exact hraises
    · -- The task is over, or the call still waits for it.
      split at hr
      · cases hr
        exact drain_goes h hclosing
      · cases hr
        exact hraises
      · cases hr
  | leaving drained =>
    have hclosing := hok.closing rfl
    have hempty : drained = true → s.buffer = [] := by
      rintro rfl
      exact hok.drained rfl
    have hnotified : Apart cfg { s.notifyAll with pressured := false } i :=
      h.notifyAll.congr rfl rfl rfl rfl rfl rfl h.closed
    cases outcome with
    | returned =>
      cases hr
      exact leave_goes hnotified hclosing hempty
    | raised =>
      cases hr
      exact leave_goes hnotified hclosing nofun
    | cancelled =>
      cases hr
      exact leave_goes h hclosing nofun
  | ended | closed => cases hr

/-! ## Runs -/

def Meets (s : State) : Action → Prop
  | .aclose => s.closed = true → s.buffer.isEmpty = true
  | _ => True

instance (s : State) : (action : Action) → Decidable (Meets s action)
  | .aclose => inferInstanceAs (Decidable (s.closed = true → s.buffer.isEmpty = true))
  | .submit _ _ | .flush | .start | .resume _ _ _ => .isTrue trivial

theorem aclose_goes (h : Apart cfg s i) (hmeets : Meets s .aclose) : Goes cfg i s.aclose := by
  unfold aclose
  split_ifs with hclosed
  · exact leave_goes h (h.closed hclosed) fun _ => isEmpty_iff.mp (hmeets hclosed)
  · have hclosing : Apart cfg { s with closing := true, wake := true, task := none } i := by
      refine ⟨h.rows, h.bounded, fun _ => rfl, fun j hj call hcall => ?_⟩
      have hok := h.others j hj call hcall
      exact ⟨fun _ => rfl, hok.taken, hok.drained⟩
    split
    · exact ⟨hclosing, callOk_close rfl rfl rfl⟩
    · exact drain_goes hclosing rfl

theorem aclose_calls : s.aclose.1.calls = s.calls := by
  unfold aclose drain
  dsimp only
  split_ifs
  · rfl
  · split <;> rfl
  · split <;> rfl

theorem submit_calls : (s.submit cfg now item).1.calls = s.calls := by
  unfold submit
  split_ifs <;> rfl

theorem step_sound (s : State) (action : Action) (s' : State) (h : Sound cfg s)
    (hmeets : Meets s action) (hstep : s.step cfg action = some s') : Sound cfg s' := by
  cases action with
  | submit item now =>
    have hadded : (s.submit cfg now item).1.add (s.submit cfg now item).2 = s' :=
      Option.some.inj hstep
    subst hadded
    exact (submit_goes (h.apart _)).add submit_calls
  | flush =>
    cases hstep
    have hgoes : Goes cfg s.calls.length (s, .flushing .user .locking) :=
      ⟨h.apart _, callOk_plain rfl rfl rfl⟩
    exact hgoes.add rfl
  | start =>
    dsimp only [step] at hstep
    split_ifs at hstep
    · cases hstep
      exact h
    · cases hstep
      have hgoes : Goes cfg s.calls.length (s, .starting) :=
        ⟨h.apart _, callOk_plain rfl rfl rfl⟩
      have hadded : Sound cfg (s.add .starting) := hgoes.add rfl
      refine ⟨hadded.rows, hadded.bounded, hadded.closed, fun i call hcall => ?_⟩
      have hok := hadded.calls i call hcall
      exact ⟨hok.closing, hok.taken, hok.drained⟩
  | aclose =>
    have hadded : s.aclose.1.add s.aclose.2 = s' := Option.some.inj hstep
    subst hadded
    exact (aclose_goes (h.apart _) hmeets).add aclose_calls
  | resume i outcome now =>
    obtain ⟨call, hcall, hrest⟩ := bind_eq_some_iff.mp hstep
    obtain ⟨r, hr, rfl⟩ := map_eq_some_iff.mp hrest
    exact (resume_goes (h.apart i) (h.calls i call hcall) hr).set

/-- An `aclose` that returned. -/
def Call.isClosed : Call → Bool
  | .closed true => true
  | _ => false

/-- Accepted rows are removed in order or still there, within the capacity, and a close that
returned has left nothing. -/
theorem rows_accounted (cfg : BatcherConfig) (actions : List Action) (s : State)
    (hmeets : Along (step cfg) Meets new actions)
    (hrun : runs (step cfg) new actions = some s) :
    s.accepted = s.removed ++ s.buffer ∧ s.buffer.length ≤ cfg.capacity ∧
      ∀ call ∈ s.calls, call.isClosed = true → s.buffer = [] := by
  have hsound : Sound cfg s := runs_keeps step_sound new_sound hmeets hrun
  refine ⟨hsound.rows, hsound.bounded, fun call hcall hclosed => ?_⟩
  obtain ⟨i, hi⟩ := mem_iff_getElem?.mp hcall
  refine (hsound.calls i call hi).drained ?_
  cases call with
  | closed ok => cases ok <;> first | rfl | cases hclosed
  | _ => cases hclosed

theorem one_le_one_row : 1 ≤ 1 := le_rfl

theorem two_seconds_pos : (0 : ℚ) < 2 := by decide +kernel

theorem one_le_two_batches : 1 ≤ 2 := by decide

def smallBatches : BatcherConfig where
  maxBatchRows := 1
  maxAge := 2
  capacityBatches := 2
  maxAttempts := 2
  deadLetter := false
  one_le_maxBatchRows := one_le_one_row
  maxAge_pos := two_seconds_pos
  one_le_capacityBatches := one_le_two_batches

def stub (id : String) : GraphWrite := .signal ⟨id, "t", 0, "rss", "web"⟩

def drainedRun : List Action :=
  [.submit (stub "a") 0, .submit (stub "b") 0, .start, .submit (stub "c") 1, .resume 3 .returned 1,
    .resume 2 .returned 1, .resume 2 .returned 1, .resume 2 .returned 1, .resume 2 .returned 1,
    .resume 3 .returned 1, .aclose, .resume 2 .returned 1, .resume 2 .returned 1,
    .resume 2 .returned 1, .resume 4 .returned 1, .resume 4 .returned 1, .resume 4 .returned 1,
    .resume 4 .returned 1, .resume 4 .returned 1]

theorem rows_accounted_drained : (∃ s, runs (step smallBatches) new drainedRun = some s ∧
    s.accepted = s.removed ++ s.buffer ∧ s.buffer.length ≤ smallBatches.capacity ∧
      ∀ call ∈ s.calls, call.isClosed = true → s.buffer = []) := by
  have hsome : (runs (step smallBatches) new drainedRun).isSome = true := by
    decide +kernel
  obtain ⟨s, hs⟩ := isSome_iff_exists.mp hsome
  exact ⟨s, hs, rows_accounted smallBatches drainedRun s (by decide +kernel) hs⟩

def closedTwice : List Action :=
  [.submit (stub "a") 0, .aclose, .resume 1 .returned 0, .resume 1 .raised 0, .resume 1 .returned 1,
    .resume 1 .raised 1, .resume 1 .returned 1, .aclose]

theorem second_close_returns : ∃ s, runs (step smallBatches) new closedTwice = some s ∧
    ¬ ∀ call ∈ s.calls, call.isClosed = true → s.buffer = [] := by
  have hsome : (runs (step smallBatches) new closedTwice).isSome = true := by
    decide
  have hleft : ∀ s ∈ runs (step smallBatches) new closedTwice,
      ¬ ∀ call ∈ s.calls, call.isClosed = true → s.buffer = [] := by
    decide
  obtain ⟨s, hs⟩ := isSome_iff_exists.mp hsome
  exact ⟨s, hs, hleft s hs⟩

end OmniSense.Ingest.Loop
