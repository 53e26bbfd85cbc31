import OmniSense.Workers.Lifecycle

/-! When a shutdown is one-way and ordered: exactly when the loop has started up before it is
requested. -/

namespace OmniSense.Workers.Lifecycle

open Library List Option

variable {w w' : Worker} {p q : WorkPhase} {e : Event}

/-! ## What every step keeps -/

/-- Where the loop's task can be while `run` is where it is. -/
def Placed (work : Option WorkPhase) : RunPhase → Prop
  | .notStarted | .settingUp | .servingHealth => work = none
  | .waiting | .draining | .cancelled => work ≠ none
  | .closing | .finished => work = none ∨ work = some .done

structure Sound (w : Worker) : Prop where
  flag : w.shutdown = true ↔ .requested ∈ w.log
  flight : inFlight w.log = true ↔ w.work = some .iterating
  timed : w.cancelling = true → .deadline ∈ w.log
  drains : w.run = .draining → w.shutdown = true
  placed : Placed w.work w.run
  unready : Ordered w.log → w.shutdown = true → w.ready = false

structure Turning (w : Worker) : Prop where
  flag : w.shutdown = true ↔ .requested ∈ w.log
  idle : inFlight w.log = false
  timed : w.cancelling = true → .deadline ∈ w.log
  drains : w.run = .draining → w.shutdown = true
  placed : ∀ phase, Placed (some phase) w.run
  unready : Ordered w.log → w.shutdown = true → w.ready = false

theorem Sound.places (h : Sound w) (hwork : w.work = some p) (hp : p ≠ .done)
    (phase : WorkPhase) : Placed (some phase) w.run := by
  have hplaced : Placed (some p) w.run := hwork ▸ h.placed
  cases hrun : w.run with
  | notStarted | settingUp | servingHealth =>
    rw [hrun] at hplaced
    cases hplaced
  | waiting | draining | cancelled => exact some_ne_none phase
  | closing | finished =>
    rw [hrun] at hplaced
    rcases hplaced with hnone | hdone
    · cases hnone
    · exact absurd (Option.some.inj hdone) hp

theorem Sound.turning (h : Sound w) (hwork : w.work = some p) (hp : p ≠ .done)
    (hidle : p ≠ .iterating) : Turning w := by
  refine ⟨h.flag, Bool.eq_false_iff.mpr fun hflight => ?_, h.timed, h.drains, h.places hwork hp,
    h.unready⟩
  exact hidle (Option.some.inj (hwork.symm.trans (h.flight.mp hflight)))

theorem flag_cons {m : Mark} (h : w.shutdown = true ↔ .requested ∈ w.log) (hm : m ≠ .requested) :
    w.shutdown = true ↔ .requested ∈ m :: w.log := by
  rw [mem_cons, h]
  exact (or_iff_right hm.symm).symm

theorem Sound.iterated (h : Sound w) (hwork : w.work = some .iterating) {m : Mark}
    (hm : m = .ended ∨ m = .abandoned) : Turning (w.mark m) := by
  have hidle : inFlight (m :: w.log) = false := by
    rcases hm with rfl | rfl
    · rfl
    · rfl
  have hrequested : m ≠ .requested := by
    rcases hm with rfl | rfl <;> nofun
  exact ⟨flag_cons h.flag hrequested, hidle,
    fun hc => mem_cons_of_mem m (h.timed hc), h.drains, h.places hwork nofun,
    fun hordered => h.unready hordered.2⟩

theorem Turning.uncancelled (h : Turning w) : Turning { w with cancelling := false } :=
  ⟨h.flag, h.idle, nofun, h.drains, h.placed, h.unready⟩

theorem Turning.advertise (h : Turning w) : Turning w.advertise := by
  refine ⟨flag_cons h.flag (by decide), h.idle,
    fun hc => mem_cons_of_mem _ (h.timed hc), h.drains, h.placed, fun hordered hshutdown => ?_⟩
  exact absurd (h.flag.mp hshutdown) hordered.1

theorem Turning.ordered_advertise (h : Turning w) :
    Ordered w.advertise.log ↔ Ordered w.log ∧ w.shutdown = false := by
  have hfresh : .requested ∉ w.log ↔ w.shutdown = false := by
    rw [← h.flag, Bool.not_eq_true]
  exact and_comm.trans (and_congr_right fun _ => hfresh)

/-! ## A turn of the loop -/

theorem Turning.goTo (h : Turning w) (hq : q ≠ .iterating) : Sound (w.goTo q) := by
  refine ⟨h.flag, ?_, h.timed, h.drains, h.placed q, h.unready⟩
  change inFlight w.log = true ↔ some q = some .iterating
  rw [h.idle]
  exact ⟨nofun, fun heq => absurd (Option.some.inj heq) hq⟩

theorem Turning.leave (h : Turning w) :
    Sound w.leave ∧ (Ordered w.leave.log ↔ Ordered w.log) := by
  unfold Worker.leave
  cases w.kind with
  | consumer =>
    have hmarked : Turning (w.mark .consumerStopped) :=
      ⟨flag_cons h.flag (by decide), h.idle, fun hc => mem_cons_of_mem _ (h.timed hc),
        h.drains, h.placed, fun hordered => h.unready hordered.2⟩
    exact ⟨hmarked.goTo nofun, and_iff_right h.idle⟩
  | periodic initialDelay => exact ⟨h.goTo nofun, Iff.rfl⟩

theorem Turning.check (h : Turning w) :
    Sound w.check ∧ (Ordered w.check.log ↔ Ordered w.log) := by
  unfold Worker.check
  split_ifs with hshutdown
  · exact h.leave
  · have hfresh : .requested ∉ w.log := fun hmem => hshutdown (h.flag.mpr hmem)
    refine ⟨⟨flag_cons h.flag (by decide), iff_of_true rfl rfl,
      fun hc => mem_cons_of_mem _ (h.timed hc), h.drains, h.placed _,
      fun hordered => h.unready hordered.2⟩, ?_⟩
    exact and_iff_right ⟨hfresh, h.idle⟩

theorem Turning.resume (h : Turning w) (result : Result) :
    Sound (w.resume result) ∧ (Ordered (w.resume result).log ↔ Ordered w.log) := by
  unfold Worker.resume
  cases result with
  | returned =>
    cases w.kind with
    | consumer => exact h.check
    | periodic initialDelay => exact ⟨h.goTo nofun, Iff.rfl⟩
  | brokerError => exact ⟨h.goTo nofun, Iff.rfl⟩
  | failed =>
    cases w.kind with
    | consumer => exact h.leave
    | periodic initialDelay => exact ⟨h.goTo nofun, Iff.rfl⟩
  | aborted => exact h.leave

/-! ## Steps -/

def Keeps (w : Worker) (e : Event) (w' : Worker) : Prop :=
  Sound w' ∧ (Ordered w'.log ↔ Ordered w.log ∧ w.Prompt e)

theorem Keeps.plain (he : w.Prompt e) (h : Sound w' ∧ (Ordered w'.log ↔ Ordered w.log)) :
    Keeps w e w' :=
  ⟨h.1, h.2.trans (and_iff_left he).symm⟩

theorem workStep_keeps {act : WorkAct} (h : Sound w) (hwork : w.work = some p)
    (hstep : w.workStep p act = some w') : Keeps w (.work act) w' := by
  unfold Worker.workStep at hstep
  split at hstep
  next =>
    have hturn : Turning w := h.turning hwork nofun nofun
    cases hkind : w.kind with
    | consumer =>
      rw [hkind] at hstep
      cases hstep
      exact .plain (fun _ hne => absurd hkind hne) ⟨hturn.goTo nofun, Iff.rfl⟩
    | periodic initialDelay =>
      rw [hkind] at hstep
      have hprompt : w.Prompt (.work .turn) ↔ w.shutdown = false := by
        refine ⟨fun hp => hp hwork ?_, fun hs _ _ => hs⟩
        rw [hkind]
        nofun
      dsimp only at hstep
      split_ifs at hstep <;> cases hstep
      · refine ⟨hturn.advertise.goTo nofun, ?_⟩
        exact hturn.ordered_advertise.trans (and_congr_right fun _ => hprompt.symm)
      · refine ⟨hturn.advertise.check.1, hturn.advertise.check.2.trans ?_⟩
        exact hturn.ordered_advertise.trans (and_congr_right fun _ => hprompt.symm)
  next succeeds =>
    have hturn : Turning w := h.turning hwork nofun nofun
    cases succeeds with
    | true =>
      cases hstep
      have hprompt : w.Prompt (.work (.connected true)) ↔ w.shutdown = false :=
        ⟨fun hp => hp hwork, fun hs _ => hs⟩
      refine ⟨hturn.advertise.check.1, hturn.advertise.check.2.trans ?_⟩
      exact hturn.ordered_advertise.trans (and_congr_right fun _ => hprompt.symm)
    | false =>
      cases hstep
      exact .plain trivial ⟨hturn.goTo nofun, Iff.rfl⟩
  next result =>
    cases hstep
    have hturn : Turning (w.mark .ended) := h.iterated hwork (.inl rfl)
    exact .plain trivial ⟨(hturn.resume result).1,
      (hturn.resume result).2.trans (and_iff_right trivial)⟩
  next =>
    cases hstep
    exact .plain trivial (h.turning hwork nofun nofun).check
  next =>
    cases hstep
    exact .plain trivial ⟨(h.turning hwork nofun nofun).goTo nofun, Iff.rfl⟩
  next =>
    split_ifs at hstep with hcancelling
    cases p with
    | created | connecting | stopping =>
      cases hstep
      exact .plain trivial ⟨(h.turning hwork nofun nofun).uncancelled.goTo nofun, Iff.rfl⟩
    | iterating =>
      cases hstep
      -- Nothing is cancelled before the deadline.
      have hdeadline : .deadline ∈ w.log := h.timed hcancelling
      have hturn : Turning ({ w with cancelling := false }.mark .abandoned) :=
        (h.iterated hwork (.inr rfl)).uncancelled
      exact .plain trivial ⟨hturn.leave.1, hturn.leave.2.trans (and_iff_right hdeadline)⟩
    | sleeping =>
      cases hstep
      exact .plain trivial (h.turning hwork nofun nofun).uncancelled.leave
    | done => cases hstep
  next => cases hstep

theorem isDone_iff : w.isDone = true ↔ w.work = some .done := by
  exact decide_eq_true_iff

theorem Sound.moveRun (h : Sound w) {run : RunPhase} (hplaced : Placed w.work run)
    (hdrains : run = .draining → w.shutdown = true) : Sound { w with run := run } :=
  ⟨h.flag, h.flight, h.timed, hdrains, hplaced, h.unready⟩

theorem Sound.close (h : Sound w) (hdone : w.isDone = true) :
    Sound { w with run := .closing } :=
  h.moveRun (.inr (isDone_iff.mp hdone)) nofun

theorem runStep_keeps {act : RunAct} (h : Sound w)
    (hstep : w.runStep w.run act = some w') : Keeps w (.run act) w' := by
  have hplaced : Placed w.work w.run := h.placed
  unfold Worker.runStep at hstep
  split at hstep
  next hrun =>
    cases hstep
    rw [hrun] at hplaced
    exact .plain trivial ⟨h.moveRun hplaced nofun, Iff.rfl⟩
  next succeeds hrun =>
    cases hstep
    rw [hrun] at hplaced
    cases succeeds with
    | true => exact .plain trivial ⟨h.moveRun hplaced nofun, Iff.rfl⟩
    | false => exact .plain trivial ⟨h.moveRun (.inl hplaced) nofun, Iff.rfl⟩
  next succeeds hrun =>
    rw [hrun] at hplaced
    have hnone : w.work = none := hplaced
    cases succeeds with
    | true =>
      cases hstep
      refine .plain trivial ⟨⟨h.flag, ?_, h.timed, nofun, some_ne_none _, h.unready⟩, Iff.rfl⟩
      rw [h.flight, hnone]
      exact ⟨nofun, nofun⟩
    | false =>
      cases hstep
      exact .plain trivial ⟨h.moveRun (.inl hnone) nofun, Iff.rfl⟩
  next hrun =>
    rw [hrun] at hplaced
    split_ifs at hstep with hdone hshutdown <;> cases hstep
    · exact .plain trivial ⟨h.close hdone, Iff.rfl⟩
    · exact .plain trivial ⟨h.moveRun hplaced fun _ => hshutdown, Iff.rfl⟩
  next hrun =>
    obtain ⟨hdone, hw⟩ := ite_none_right_eq_some.mp hstep
    cases hw
    exact .plain trivial ⟨h.close hdone, Iff.rfl⟩
  next hrun =>
    rw [hrun] at hplaced
    -- Only a requested shutdown makes `run` wait with a deadline.
    have hrequested : .requested ∈ w.log := h.flag.mp (h.drains hrun)
    have hmarked : ∀ {run : RunPhase} {cancelling : Bool}, Placed w.work run →
        (run = .draining → w.shutdown = true) →
        Sound { w.mark .deadline with run := run, cancelling := cancelling } := fun hp hd =>
      ⟨flag_cons h.flag (by decide), h.flight, fun _ => mem_cons_self, hd, hp,
        fun hordered => h.unready hordered.2⟩
    split_ifs at hstep with hdone <;> cases hstep
    · exact .plain trivial ⟨hmarked (.inr (isDone_iff.mp hdone)) nofun, and_iff_right hrequested⟩
    · exact .plain trivial ⟨hmarked hplaced nofun, and_iff_right hrequested⟩
  next hrun =>
    obtain ⟨hdone, hw⟩ := ite_none_right_eq_some.mp hstep
    cases hw
    exact .plain trivial ⟨h.close hdone, Iff.rfl⟩
  next hrun =>
    cases hstep
    rw [hrun] at hplaced
    have hidle : inFlight w.log = false := by
      refine Bool.eq_false_iff.mpr fun hflight => ?_
      rcases hplaced with hnone | hdone
      · cases hnone.symm.trans (h.flight.mp hflight)
      · cases hdone.symm.trans (h.flight.mp hflight)
    refine .plain trivial ⟨⟨flag_cons h.flag (by decide), h.flight,
      fun hc => mem_cons_of_mem _ (h.timed hc), nofun, hplaced, fun _ _ => rfl⟩, ?_⟩
    exact and_iff_right hidle
  next => cases hstep

theorem requestShutdown_keeps (h : Sound w) (reason : String) :
    Keeps w (.requestShutdown reason) (w.requestShutdown reason) := by
  unfold Worker.requestShutdown
  split_ifs with hshutdown
  · exact .plain trivial ⟨h, Iff.rfl⟩
  · refine .plain trivial ⟨⟨iff_of_true rfl mem_cons_self, h.flight,
      fun hc => mem_cons_of_mem _ (h.timed hc), fun _ => rfl, h.placed, fun _ _ => rfl⟩, ?_⟩
    exact and_iff_right trivial

theorem step_keeps (h : Sound w) (hstep : w.step e = some w') : Keeps w e w' := by
  cases e with
  | requestShutdown reason =>
    cases hstep
    exact requestShutdown_keeps h reason
  | run act => exact runStep_keeps h hstep
  | work act =>
    obtain ⟨phase, hphase, hmove⟩ := bind_eq_some_iff.mp hstep
    exact workStep_keeps h hphase hmove

theorem sound_new (kind : Kind) (ready : Bool) : Sound (.new kind ready) :=
  ⟨⟨nofun, fun h => absurd h not_mem_nil⟩, ⟨nofun, nofun⟩, nofun, nofun, rfl, fun _ => nofun⟩

/-- **A shutdown is one-way and ordered**, in every schedule and wherever it is requested, exactly
when the loop never starts up after the request. -/
theorem shutdown_ordered_iff (kind : Kind) (ready : Bool) (events : List Event) {w : Worker}
    (hrun : runs Worker.step (.new kind ready) events = some w) :
    (Ordered w.log ∧ (w.shutdown = true → w.ready = false)) ↔
      Along Worker.step Worker.Prompt (.new kind ready) events := by
  have hkeeps : Sound w ∧ (Ordered w.log ↔ Ordered (Worker.new kind ready).log ∧
      Along Worker.step Worker.Prompt (.new kind ready) events) :=
    runs_iff (fun _ _ _ h hs => step_keeps h hs) (sound_new kind ready) hrun
  have hordered := hkeeps.2.trans (and_iff_right trivial)
  exact ⟨fun h => hordered.mp h.1,
    fun h => ⟨hordered.mpr h, hkeeps.1.unready (hordered.mpr h)⟩⟩

def drainedLate : List Event :=
  [.run .start, .run (.proceed true), .run (.proceed true), .work .turn, .work (.connected true),
    .work (.iterated .returned), .requestShutdown "signal:SIGTERM", .run .wake,
    .requestShutdown "signal:SIGTERM", .run .timeout, .work .cancelled, .work .stopped,
    .run .joined, .run .close, .requestShutdown "late"]

theorem shutdown_ordered_late :
    ∃ w, runs Worker.step (.new .consumer false) drainedLate = some w ∧
      Ordered w.log ∧ (w.shutdown = true → w.ready = false) := by
  have hsome : (runs Worker.step (.new .consumer false) drainedLate).isSome = true := by
    decide +kernel
  obtain ⟨w, hw⟩ := isSome_iff_exists.mp hsome
  exact ⟨w, hw, (shutdown_ordered_iff .consumer false drainedLate hw).mpr (by decide +kernel)⟩

def stoppedEarly : List Event :=
  [.run .start, .requestShutdown "signal:SIGTERM", .run (.proceed true), .run (.proceed true),
    .work .turn, .run .wake, .work (.connected true)]

theorem ready_after_shutdown :
    ∃ w, runs Worker.step (.new .consumer false) stoppedEarly = some w ∧ w.shutdown = true ∧
      w.ready = true ∧ w.log = [.consumerStopped, .advertised, .requested] := by
  have hsome : (runs Worker.step (.new .consumer false) stoppedEarly).isSome = true := by
    decide +kernel
  have hfacts : ∀ w ∈ runs Worker.step (.new .consumer false) stoppedEarly, w.shutdown = true ∧
      w.ready = true ∧ w.log = [.consumerStopped, .advertised, .requested] := by
    decide
  obtain ⟨w, hw⟩ := isSome_iff_exists.mp hsome
  exact ⟨w, hw, hfacts w hw⟩

end OmniSense.Workers.Lifecycle
