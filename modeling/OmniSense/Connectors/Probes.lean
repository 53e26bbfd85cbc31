import OmniSense.Connectors.Backoff
import OmniSense.Library.Runs

/-! Operations that share one key of the circuit breaker: each is checked, runs, and has its outcome
recorded, and any of them may be next. `check` sets the flag of a probe but does not read it. -/

namespace OmniSense.Connectors

open Library Option

inductive CircuitState
  | closed | opened | halfOpen
  deriving DecidableEq

namespace CircuitBreaker

def state (circuits : Circuits) (key : String) (now : ℚ) : CircuitState :=
  match (circuits key).bind Circuit.opensUntil with
  | none => .closed
  | some opensUntil => if now < opensUntil then .opened else .halfOpen

structure Traffic where
  circuits : Circuits
  -- Those that were let through, in order.
  entered : List ℕ
  underWay : List ℕ
  -- Those under way that were let through once the timer had elapsed.
  probes : List ℕ

inductive Turn
  | check (op : ℕ) (now : ℚ)
  | success (op : ℕ)
  | failure (op : ℕ) (now : ℚ)

namespace Traffic

def new : Traffic := ⟨fun _ => none, [], [], []⟩

variable (breaker : CircuitBreaker) (key : String)

def enter (s : Traffic) (op : ℕ) (now : ℚ) : Traffic :=
  match CircuitBreaker.check s.circuits key now with
  | .error _ => s
  | .ok circuits =>
    { circuits := circuits
      entered := s.entered ++ [op]
      underWay := op :: s.underWay
      probes := if state s.circuits key now = .halfOpen then op :: s.probes else s.probes }

def leave (s : Traffic) (op : ℕ) (circuits : Circuits) : Traffic :=
  { s with
    circuits := circuits
    underWay := s.underWay.filter fun other => other ≠ op
    probes := s.probes.filter fun other => other ≠ op }

def step (s : Traffic) : Turn → Option Traffic
  | .check op now => if op ∈ s.entered then none else some (s.enter key op now)
  | .success op =>
    if op ∈ s.underWay then some (s.leave op (recordSuccess s.circuits key)) else none
  | .failure op now =>
    if op ∈ s.underWay then some (s.leave op (recordFailure breaker s.circuits key now)) else none

end Traffic

def Alone (s : Traffic) : Prop := ∀ op ∈ s.probes, s.entered.getLast? = some op

/-- No check finds the timer elapsed and the flag of a probe set, and while a probe is under way
no outcome but its own is recorded. -/
def Orderly (key : String) (s : Traffic) : Turn → Prop
  | .check _ now => state s.circuits key now = .halfOpen →
    (s.circuits key).any Circuit.probing = false
  | .success op | .failure op _ => s.probes = [] ∨ op ∈ s.probes

instance (key : String) (s : Traffic) : (turn : Turn) → Decidable (Orderly key s turn)
  | .check _ now => inferInstanceAs (Decidable (state s.circuits key now = .halfOpen →
      (s.circuits key).any Circuit.probing = false))
  | .success op | .failure op _ => inferInstanceAs (Decidable (s.probes = [] ∨ op ∈ s.probes))

/-! ## What a check and an outcome do -/

section

variable {breaker : CircuitBreaker} {key : String} {circuits circuits' : Circuits} {now : ℚ}
  {s s' : Traffic} {op : ℕ} {turn : Turn}

def Probing (circuits : Circuits) (key : String) : Prop :=
  ∃ circuit, circuits key = some circuit ∧ circuit.probing = true ∧ circuit.opensUntil ≠ none

theorem check_closed (hok : check circuits key now = .ok circuits')
    (hstate : state circuits key now ≠ .halfOpen) :
    circuits' = circuits ∧ (circuits key).bind Circuit.opensUntil = none := by
  unfold check at hok
  unfold state at hstate
  cases hcircuit : circuits key with
  | none =>
    simp only [hcircuit] at hok
    exact ⟨(Except.ok.inj hok).symm, rfl⟩
  | some circuit =>
    simp only [hcircuit] at hok hstate
    cases huntil : circuit.opensUntil with
    | none =>
      simp only [huntil] at hok
      exact ⟨(Except.ok.inj hok).symm, huntil⟩
    | some opensUntil =>
      simp only [huntil, bind_some] at hok hstate
      split_ifs at hok with hopen
      exact absurd (if_neg hopen) hstate

theorem check_halfOpen (hok : check circuits key now = .ok circuits')
    (hstate : state circuits key now = .halfOpen) : Probing circuits' key := by
  unfold check at hok
  unfold state at hstate
  cases hcircuit : circuits key with
  | none =>
    simp only [hcircuit] at hstate
    cases hstate
  | some circuit =>
    simp only [hcircuit] at hok hstate
    cases huntil : circuit.opensUntil with
    | none =>
      simp only [huntil, bind_some] at hstate
      cases hstate
    | some opensUntil =>
      simp only [huntil] at hok
      split_ifs at hok with hopen
      cases hok
      exact ⟨_, Function.update_self _ _ _, rfl, huntil ▸ some_ne_none _⟩

structure Guarded (key : String) (s : Traffic) : Prop where
  alone : Alone s
  flagged : s.probes ≠ [] → Probing s.circuits key

theorem Guarded.enter (h : Guarded key s) (horderly : Orderly key s (.check op now)) :
    Guarded key (s.enter key op now) := by
  unfold Traffic.enter
  split
  next => exact h
  next circuits hok =>
    have hidle : state s.circuits key now = .halfOpen ∨ (s.circuits key).bind
        Circuit.opensUntil = none → s.probes = [] := by
      -- A probe under way has its flag set and its timer kept.
      intro hcase
      by_contra hprobes
      obtain ⟨circuit, hcircuit, hprobing, huntil⟩ := h.flagged hprobes
      rcases hcase with hhalf | hclosed
      · have hflag := horderly hhalf
        rw [hcircuit, any_some, hprobing] at hflag
        cases hflag
      · rw [hcircuit, bind_some] at hclosed
        exact huntil hclosed
    by_cases hhalf : state s.circuits key now = .halfOpen
    · have hnone := hidle (.inl hhalf)
      rw [if_pos hhalf, hnone]
      refine ⟨fun other hother => ?_, fun _ => check_halfOpen hok hhalf⟩
      obtain rfl := List.mem_singleton.mp hother
      exact List.getLast?_concat
    · obtain ⟨rfl, hclosed⟩ := check_closed hok hhalf
      have hnone := hidle (.inr hclosed)
      rw [if_neg hhalf, hnone]
      exact ⟨fun _ hother => absurd hother List.not_mem_nil, fun h => absurd rfl h⟩

theorem Guarded.leave (h : Guarded key s) (horderly : s.probes = [] ∨ op ∈ s.probes)
    (circuits : Circuits) : Guarded key (s.leave op circuits) := by
  have hnone : (s.leave op circuits).probes = [] := by
    refine List.filter_eq_nil_iff.mpr fun other hother => ?_
    rcases horderly with hempty | hop
    · rw [hempty] at hother
      exact absurd hother List.not_mem_nil
    · -- Both were let through last.
      obtain rfl := Option.some.inj ((h.alone op hop).symm.trans (h.alone other hother))
      simp
  constructor
  · intro other hother
    rw [hnone] at hother
    exact absurd hother List.not_mem_nil
  · exact fun hprobes => absurd hnone hprobes

theorem guarded_step (s : Traffic) (turn : Turn) (s' : Traffic) (h : Guarded key s)
    (horderly : Orderly key s turn) (hstep : s.step breaker key turn = some s') :
    Guarded key s' := by
  cases turn with
  | check op now =>
    dsimp only [Traffic.step] at hstep
    split_ifs at hstep
    cases hstep
    exact h.enter horderly
  | success | failure =>
    dsimp only [Traffic.step] at hstep
    split_ifs at hstep
    cases hstep
    exact h.leave horderly _

end

/-! ## Runs -/

/-- In an orderly run nothing is let through beside a probe until its outcome is recorded. -/
theorem one_probe (breaker : CircuitBreaker) (key : String) (turns : List Turn) (s : Traffic)
    (horderly : Along (Traffic.step breaker key) (Orderly key) Traffic.new turns)
    (hrun : runs (Traffic.step breaker key) Traffic.new turns = some s) :
    ∀ op ∈ s.probes, s.entered.getLast? = some op := by
  have hnew : Guarded key Traffic.new :=
    ⟨fun _ hother => absurd hother List.not_mem_nil, fun h => absurd rfl h⟩
  exact (runs_keeps guarded_step hnew horderly hrun).alone

def touchy : CircuitBreaker := ⟨1, 600⟩

def recovery : List Turn :=
  [.check 0 0, .failure 0 0, .check 1 100, .check 1 600, .success 1, .check 2 601]

theorem one_probe_recovery : ∃ s,
    runs (Traffic.step touchy "account") Traffic.new recovery = some s ∧
      s.entered = [0, 1, 2] ∧ ∀ op ∈ s.probes, s.entered.getLast? = some op := by
  have hrun : (runs (Traffic.step touchy "account") Traffic.new recovery).map Traffic.entered =
      some [0, 1, 2] := by
    decide +kernel
  obtain ⟨s, hs, hentered⟩ := map_eq_some_iff.mp hrun
  exact ⟨s, hs, hentered, one_probe touchy "account" recovery s (by decide +kernel) hs⟩

def rush : List Turn := [.check 0 0, .failure 0 0, .check 1 600, .check 2 600]

theorem two_probes : ∃ s, runs (Traffic.step touchy "account") Traffic.new rush = some s ∧
    ¬ ∀ op ∈ s.probes, s.entered.getLast? = some op := by
  have hrun : (runs (Traffic.step touchy "account") Traffic.new rush).map
      (fun s => (s.probes, s.entered)) = some ([2, 1], [0, 1, 2]) := by
    decide +kernel
  obtain ⟨s, hs, hfields⟩ := map_eq_some_iff.mp hrun
  obtain ⟨hprobes, hentered⟩ := Prod.mk.inj hfields
  refine ⟨s, hs, ?_⟩
  rw [hprobes, hentered]
  decide

end CircuitBreaker

end OmniSense.Connectors
