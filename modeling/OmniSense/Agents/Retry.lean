import Mathlib.Algebra.GroupWithZero.Nat
import Mathlib.Algebra.Order.Field.Rat
import Mathlib.Algebra.Order.Ring.Int
import Mathlib.Data.Nat.Log
import Mathlib.Tactic.Common

/-! `agents/errors.py`: calling again after the failures that a policy accepts, and which waits and
notices come with it. The library's loop asks for the wait before it asks whether to stop. -/

namespace OmniSense.Agents

/-! ## Waits -/

/-- `round(numerator / denominator)`, ties to even. -/
def halfEven (numerator denominator : ℕ) : ℕ :=
  let quotient := numerator / denominator
  let rest := 2 * (numerator % denominator)
  if rest < denominator ∨ (rest = denominator ∧ quotient % 2 = 0) then quotient else quotient + 1

/-- `float(n)`: 53 significant bits. A number out of range raises an `OverflowError`. -/
def floatOf (n : ℕ) : Option ℕ :=
  let unit := 2 ^ (n.log2 - 52)
  let rounded := halfEven n unit * unit
  if rounded < 2 ^ 1024 then some rounded else none

inductive Hint
  | int (n : ℕ)
  | float (seconds : ℚ)
  | infinity
  deriving DecidableEq

/-- `getattr(exc, "retry_after_seconds", None)`. A boolean, no number and `nan` are `other`. -/
inductive Attribute
  | int (n : ℤ)
  | float (seconds : ℚ)
  | infinity
  | other
  deriving DecidableEq

structure RetryPolicy (ε : Type*) where
  maxAttempts : ℕ
  baseDelaySeconds : ℚ
  maxDelaySeconds : ℚ
  retryOn : ε → Bool
  positive : 1 ≤ maxAttempts

def Attribute.hint : Attribute → Option Hint
  | .int n => if 0 ≤ n then some (.int n.toNat) else none
  | .float seconds => if 0 ≤ seconds then some (.float seconds) else none
  | .infinity => some .infinity
  | .other => none

/-- `min(float(hinted), max_delay_seconds)`. -/
def Hint.capped (ceiling : ℚ) : Hint → Option ℚ
  | .int n => (floatOf n).map fun seconds : ℕ => min (seconds : ℚ) ceiling
  | .float seconds => some (min seconds ceiling)
  | .infinity => some ceiling

variable {ε α : Type*}

/-- `2.0 ** exponent` raises an `OverflowError` from 1024 on. -/
def RetryPolicy.backoffFor (policy : RetryPolicy ε) (attemptNumber : ℕ) : Option ℚ :=
  let exponent := attemptNumber - 1
  if exponent < 1024 then
    some (min (policy.baseDelaySeconds * 2 ^ exponent) policy.maxDelaySeconds)
  else none

variable (retryAfterSeconds : ε → Attribute)

def retryAfterAwareWait (policy : RetryPolicy ε) (error : ε) (attemptNumber : ℕ) : Option ℚ :=
  match (retryAfterSeconds error).hint with
  | some hint => hint.capped policy.maxDelaySeconds
  | none => policy.backoffFor attemptNumber

/-! ## The loop -/

/-- What is seen from outside: the calls, the calls of `on_retry`, and the sleeps. -/
inductive Event (ε : Type*)
  | called
  | noticed (error : ε) (count : ℕ)
  | slept (seconds : ℚ)
  deriving DecidableEq

inductive Result (α ε : Type*)
  | returned (value : α)
  | raised (error : ε)
  | overflowError
  | unreachable
  deriving DecidableEq

def Result.of : Except ε α → Result α ε
  | .ok value => .returned value
  | .error error => .raised error

def notices (onRetry : Bool) (error : ε) (count : ℕ) : List (Event ε) :=
  if onRetry then [.noticed error count] else []

/-- `AsyncRetrying` from one attempt on, for so many attempts at most. -/
def attemptFrom (policy : RetryPolicy ε) (onRetry : Bool) (outcomes : ℕ → Except ε α) :
    ℕ → ℕ → List (Event ε) × Result α ε
  | 0, _ => ([], .unreachable)
  | fuel + 1, attemptNumber =>
    match outcomes attemptNumber with
    | .ok value => ([.called], .returned value)
    | .error error =>
      if policy.retryOn error = false then ([.called], .raised error)
      else
        let seen := .called :: notices onRetry error attemptNumber
        match retryAfterAwareWait retryAfterSeconds policy error attemptNumber with
        | none => (seen, .overflowError)
        | some delay =>
          if policy.maxAttempts ≤ attemptNumber then (seen, .raised error)
          else
            let rest := attemptFrom policy onRetry outcomes fuel (attemptNumber + 1)
            (seen ++ .slept delay :: rest.1, rest.2)

/-- What call number `n` does is `outcomes n`, from 1. -/
def runWithRetry (policy : RetryPolicy ε) (onRetry : Bool) (outcomes : ℕ → Except ε α) :
    List (Event ε) × Result α ε :=
  attemptFrom retryAfterSeconds policy onRetry outcomes policy.maxAttempts 1

/-! ## The contract -/

def Hint.AtMost (seconds : ℚ) : Hint → Prop
  | .int n => (n : ℚ) ≤ seconds
  | .float hinted => hinted ≤ seconds
  | .infinity => False

def Waits (policy : RetryPolicy ε) (error : ε) (attemptNumber : ℕ) (delay : ℚ) : Prop :=
  match (retryAfterSeconds error).hint with
  | some hint => hint.AtMost delay
  | none => policy.backoffFor attemptNumber = some delay

/-- From one attempt on: a call is the last one when it succeeds, fails with what is not accepted, or
is the last one allowed, and its outcome is the result; before another one there are one notice and
one sleep. -/
inductive Keeps (policy : RetryPolicy ε) (onRetry : Bool) (outcomes : ℕ → Except ε α) :
    ℕ → List (Event ε) → Result α ε → Prop
  | last {n : ℕ} (hn : n ≤ policy.maxAttempts)
      (hlast : ∀ error, outcomes n = .error error → policy.retryOn error = true →
        n = policy.maxAttempts) :
      Keeps policy onRetry outcomes n [.called] (.of (outcomes n))
  | retry {n : ℕ} {error : ε} {delay : ℚ} {rest : List (Event ε)} {result : Result α ε}
      (hfailed : outcomes n = .error error) (haccepted : policy.retryOn error = true)
      (hwaits : Waits retryAfterSeconds policy error n delay)
      (hrest : Keeps policy onRetry outcomes (n + 1) rest result) :
      Keeps policy onRetry outcomes n
        (.called :: notices onRetry error n ++ .slept delay :: rest) result

/-! ## When the contract is kept -/

def Hint.Honoured (ceiling : ℚ) : Hint → Prop
  | .int n => (∃ seconds, floatOf n = some seconds ∧ n ≤ seconds) ∧ (n : ℚ) ≤ ceiling
  | .float seconds => seconds ≤ ceiling
  | .infinity => False

def Hint.InRange : Hint → Prop
  | .int n => (floatOf n).isSome
  | .float _ | .infinity => True

def WaitsEnough (policy : RetryPolicy ε) (error : ε) (attemptNumber : ℕ) : Prop :=
  match (retryAfterSeconds error).hint with
  | some hint => hint.Honoured policy.maxDelaySeconds
  | none => attemptNumber ≤ 1024

def WaitIsDefined (error : ε) (attemptNumber : ℕ) : Prop :=
  match (retryAfterSeconds error).hint with
  | some hint => hint.InRange
  | none => attemptNumber ≤ 1024

def FailsFrom (policy : RetryPolicy ε) (outcomes : ℕ → Except ε α) (first n : ℕ) : Prop :=
  ∀ i, first ≤ i → i < n → ∃ error, outcomes i = .error error ∧ policy.retryOn error = true

theorem exists_capped {hint : Hint} {ceiling : ℚ} :
    (∃ delay, hint.capped ceiling = some delay ∧ hint.AtMost delay) ↔ hint.Honoured ceiling := by
  cases hint with
  | int n =>
    unfold Hint.capped Hint.AtMost Hint.Honoured
    simp [← exists_and_right, and_assoc]
  | float seconds => simp [Hint.capped, Hint.AtMost, Hint.Honoured]
  | infinity => simp [Hint.AtMost, Hint.Honoured]

theorem isSome_capped {hint : Hint} {ceiling : ℚ} :
    (hint.capped ceiling).isSome ↔ hint.InRange := by
  cases hint <;> simp [Hint.capped, Hint.InRange]

/-- At every call up to the last one allowed that fails, after failures only, with what the policy
accepts: another call is allowed and the wait is enough, or none is, there is a wait all the same,
and nobody asked for notices. -/
def Meets (policy : RetryPolicy ε) (onRetry : Bool) (outcomes : ℕ → Except ε α) (first : ℕ) :
    Prop :=
  ∀ n error, first ≤ n → n ≤ policy.maxAttempts → FailsFrom policy outcomes first n →
    outcomes n = .error error → policy.retryOn error = true →
      (n < policy.maxAttempts → WaitsEnough retryAfterSeconds policy error n) ∧
        (n = policy.maxAttempts →
          onRetry = false ∧ WaitIsDefined retryAfterSeconds error n)

variable {retryAfterSeconds} {policy : RetryPolicy ε} {onRetry : Bool}
  {outcomes : ℕ → Except ε α} {error : ε} {n : ℕ}

theorem isSome_backoffFor (hn : 1 ≤ n) : (policy.backoffFor n).isSome ↔ n ≤ 1024 := by
  unfold RetryPolicy.backoffFor
  dsimp only
  split_ifs with h
  · exact iff_of_true rfl (by omega)
  · exact iff_of_false Bool.false_ne_true (by omega)

theorem exists_wait (hn : 1 ≤ n) :
    (∃ delay, retryAfterAwareWait retryAfterSeconds policy error n = some delay ∧
      Waits retryAfterSeconds policy error n delay) ↔
      WaitsEnough retryAfterSeconds policy error n := by
  unfold retryAfterAwareWait Waits WaitsEnough
  cases (retryAfterSeconds error).hint with
  | some hint => exact exists_capped
  | none =>
    rw [← isSome_backoffFor hn, Option.isSome_iff_exists]
    exact exists_congr fun delay => and_self_iff

theorem isSome_wait (policy : RetryPolicy ε) (hn : 1 ≤ n) :
    (retryAfterAwareWait retryAfterSeconds policy error n).isSome ↔
      WaitIsDefined retryAfterSeconds error n := by
  unfold retryAfterAwareWait WaitIsDefined
  cases (retryAfterSeconds error).hint with
  | some hint => exact isSome_capped
  | none => exact isSome_backoffFor hn

theorem notices_eq_nil_iff (error : ε) (n : ℕ) : notices onRetry error n = [] ↔ onRetry = false := by
  cases onRetry <;> simp [notices]

theorem keeps_iff {trace : List (Event ε)} {result : Result α ε}
    (hfailed : outcomes n = .error error) (haccepted : policy.retryOn error = true) :
    Keeps retryAfterSeconds policy onRetry outcomes n trace result ↔
      (n = policy.maxAttempts ∧ trace = [.called] ∧ result = .raised error) ∨
        ∃ delay rest, trace = .called :: notices onRetry error n ++ .slept delay :: rest ∧
          Waits retryAfterSeconds policy error n delay ∧
          Keeps retryAfterSeconds policy onRetry outcomes (n + 1) rest result := by
  constructor
  · intro h
    cases h with
    | last hn hlast => exact .inl ⟨hlast error hfailed haccepted, rfl, by rw [hfailed]; rfl⟩
    | retry hfailed' _ hwaits hrest =>
      obtain rfl := Except.error.inj (hfailed.symm.trans hfailed')
      exact .inr ⟨_, _, rfl, hwaits, hrest⟩
  · rintro (⟨hmax, rfl, rfl⟩ | ⟨delay, rest, rfl, hwaits, hrest⟩)
    · have hlast : Keeps retryAfterSeconds policy onRetry outcomes n [.called] (.of (outcomes n)) :=
        .last hmax.le fun _ _ _ => hmax
      rwa [hfailed] at hlast
    · exact .retry hfailed haccepted hwaits hrest

theorem keeps_of_done (retryAfterSeconds : ε → Attribute) (onRetry : Bool)
    (hn : n ≤ policy.maxAttempts)
    (hdone : ∀ error, outcomes n = .error error → policy.retryOn error = false) :
    Keeps retryAfterSeconds policy onRetry outcomes n [.called] (.of (outcomes n)) :=
  .last hn fun error h haccepted => absurd (hdone error h) (by rw [haccepted]; simp)

theorem meets_of_done
    (hdone : ∀ error, outcomes n = .error error → policy.retryOn error = false) :
    Meets retryAfterSeconds policy onRetry outcomes n := by
  intro m error hm _ hfails hfailed haccepted
  rcases hm.eq_or_lt with rfl | hlt
  · exact absurd (hdone error hfailed) (by rw [haccepted]; simp)
  · obtain ⟨error', hfailed', haccepted'⟩ := hfails n le_rfl hlt
    exact absurd (hdone error' hfailed') (by rw [haccepted']; simp)

theorem meets_iff (hn : n ≤ policy.maxAttempts) (hfailed : outcomes n = .error error)
    (haccepted : policy.retryOn error = true) :
    Meets retryAfterSeconds policy onRetry outcomes n ↔
      (n < policy.maxAttempts → WaitsEnough retryAfterSeconds policy error n) ∧
        (n = policy.maxAttempts → onRetry = false ∧ WaitIsDefined retryAfterSeconds error n) ∧
        Meets retryAfterSeconds policy onRetry outcomes (n + 1) := by
  constructor
  · intro h
    obtain ⟨henough, hdefined⟩ :=
      h n error le_rfl hn (fun i hi hlt => absurd hi (by omega)) hfailed haccepted
    refine ⟨henough, hdefined, fun m error' hm hle hfails => h m error' (by omega) hle ?_⟩
    intro i hi hlt
    rcases hi.eq_or_lt with rfl | hlt'
    · exact ⟨error, hfailed, haccepted⟩
    · exact hfails i hlt' hlt
  · rintro ⟨henough, hdefined, hrest⟩ m error' hm hle hfails hfailed' haccepted'
    rcases hm.eq_or_lt with rfl | hlt
    · obtain rfl := Except.error.inj (hfailed.symm.trans hfailed')
      exact ⟨henough, hdefined⟩
    · exact hrest m error' hlt hle (fun i hi => hfails i (by omega)) hfailed' haccepted'

theorem attemptFrom_keeps : ∀ (fuel n : ℕ), n + fuel = policy.maxAttempts + 1 → 1 ≤ n → 1 ≤ fuel →
    (Keeps retryAfterSeconds policy onRetry outcomes n
        (attemptFrom retryAfterSeconds policy onRetry outcomes fuel n).1
        (attemptFrom retryAfterSeconds policy onRetry outcomes fuel n).2 ↔
      Meets retryAfterSeconds policy onRetry outcomes n) := by
  intro fuel
  induction fuel with
  | zero => exact fun n _ _ h => absurd h (by omega)
  | succ fuel ih =>
    intro n hfuel hpos _
    have hle : n ≤ policy.maxAttempts := by omega
    unfold attemptFrom
    cases houtcome : outcomes n with
    | ok value =>
      have hdone (error : ε) (h : outcomes n = .error error) : policy.retryOn error = false := by
        simp [houtcome] at h
      have hkeeps := keeps_of_done retryAfterSeconds onRetry hle hdone
      rw [houtcome] at hkeeps
      exact iff_of_true hkeeps (meets_of_done hdone)
    | error error =>
      dsimp only
      by_cases hrejected : policy.retryOn error = false
      · have hdone (error' : ε) (h : outcomes n = .error error') :
            policy.retryOn error' = false := by
          obtain rfl := Except.error.inj (houtcome.symm.trans h)
          exact hrejected
        have hkeeps := keeps_of_done retryAfterSeconds onRetry hle hdone
        rw [houtcome] at hkeeps
        rw [if_pos hrejected]
        exact iff_of_true hkeeps (meets_of_done hdone)
      have haccepted : policy.retryOn error = true := by simpa using hrejected
      rw [if_neg hrejected, meets_iff hle houtcome haccepted, keeps_iff houtcome haccepted,
        ← exists_wait hpos, ← isSome_wait policy hpos]
      cases hwait : retryAfterAwareWait retryAfterSeconds policy error n with
      | none =>
        -- No wait: an `OverflowError`, with or without calls left.
        refine iff_of_false ?_ ?_
        · rintro (⟨-, -, h⟩ | ⟨delay, rest, h, -⟩)
          · simp at h
          · simp at h
        · rintro ⟨henough, hdefined, -⟩
          rcases hle.eq_or_lt with hmax | hlt
          · simpa using (hdefined hmax).2
          · simpa using henough hlt
      | some delay =>
        dsimp only
        rcases hle.eq_or_lt with hmax | hlt
        · subst hmax
          have hnothing : Meets retryAfterSeconds policy onRetry outcomes
              (policy.maxAttempts + 1) := fun m error' hm hm' => absurd hm (by omega)
          rw [if_pos le_rfl, ← notices_eq_nil_iff error policy.maxAttempts]
          simp [hnothing]
        · rw [if_neg hlt.not_ge]
          have hrest := ih (n + 1) (by omega) (by omega) (by omega)
          simp [hlt.ne, hlt, hrest]

/-- The contract is kept exactly when no hint is above the cap or out of range and no power of two
is, and nobody asked for notices in a run that uses up its attempts on accepted failures. -/
theorem runWithRetry_keeps (retryAfterSeconds : ε → Attribute) (policy : RetryPolicy ε)
    (onRetry : Bool) (outcomes : ℕ → Except ε α) :
    Keeps retryAfterSeconds policy onRetry outcomes 1
        (runWithRetry retryAfterSeconds policy onRetry outcomes).1
        (runWithRetry retryAfterSeconds policy onRetry outcomes).2 ↔
      Meets retryAfterSeconds policy onRetry outcomes 1 :=
  attemptFrom_keeps _ 1 (Nat.add_comm ..) le_rfl policy.positive

theorem three_attempts : 1 ≤ 3 := by decide

/-- `DEFAULT_RETRY_POLICY`, for errors that are all transient. -/
def samplePolicy : RetryPolicy Attribute := ⟨3, 1 / 2, 20, fun _ => true, three_attempts⟩

def sampleFailures : ℕ → Except Attribute Unit := fun _ => .error .other

/-- Two retries and three notices; a hint of 30 seconds and a sleep of 20; and the 1025th attempt
ends in an `OverflowError` whatever it is told to do. -/
theorem runWithRetry_exhausted :
    runWithRetry id samplePolicy true sampleFailures =
      ([.called, .noticed .other 1, .slept (1 / 2), .called, .noticed .other 2, .slept 1, .called,
        .noticed .other 3], .raised .other) ∧
    ¬Keeps id samplePolicy true sampleFailures 1
      (runWithRetry id samplePolicy true sampleFailures).1
      (runWithRetry id samplePolicy true sampleFailures).2 ∧
    (runWithRetry id samplePolicy false
      fun n => if n = 1 then .error (.float 30) else .ok ()).1 = [.called, .slept 20, .called] ∧
    retryAfterAwareWait id samplePolicy .other 1025 = none := by
  refine ⟨by decide +kernel, fun h => ?_, by decide +kernel, rfl⟩
  have hmeets := (attemptFrom_keeps 3 1 rfl le_rfl (by decide)).mp h
  have hlast := hmeets 3 .other (by decide) le_rfl (fun i _ _ => ⟨.other, rfl, rfl⟩) rfl rfl
  exact Bool.noConfusion (hlast.2 rfl).1

end OmniSense.Agents
