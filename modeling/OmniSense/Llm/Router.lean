import Mathlib.Algebra.Order.Ring.Int
import Mathlib.Algebra.Order.Ring.Rat
import OmniSense.Library.Effect
import OmniSense.Llm.Provider

/-! Tiers of models, the token budget of a run, and the router that sheds a tier under load. The
result type and the world a provider works on stay open. -/

namespace OmniSense.Llm

open Library

inductive ModelTier
  | planner | worker | fast
  deriving DecidableEq, Repr

def shedLadder : ModelTier → Option ModelTier
  | .planner => some .worker
  | .worker => some .fast
  | .fast => none

def overloadStatuses : List ℕ := [429, 500, 502, 503, 504, 529]

inductive ShedReason
  | overload | budgetPressure
  deriving DecidableEq, Repr

structure ShedEvent where
  requested : ModelTier
  served : ModelTier
  reason : ShedReason
  deriving DecidableEq, Repr

structure RunBudget where
  limit : ℤ
  spent : ℤ
  shedEvents : List ShedEvent
  deriving DecidableEq

namespace RunBudget

variable (budget : RunBudget)

def remaining : ℤ := max 0 (budget.limit - budget.spent)

def exhausted : Bool := budget.limit ≤ budget.spent

def remainingFraction : ℚ :=
  if 0 < budget.limit then (budget.remaining : ℚ) / (budget.limit : ℚ) else 0

def check : Except Raised Unit :=
  if budget.exhausted then
    .error ⟨.tokenBudgetExceeded,
      s!"investigation token budget exhausted: {budget.spent} of {budget.limit} " ++
        "tokens spent (INVESTIGATION_TOKEN_BUDGET).", none⟩
  else .ok ()

def charge (response : LLMResponse) : RunBudget :=
  { budget with spent := budget.spent + response.billableTokens }

def recordShed (requested served : ModelTier) (reason : ShedReason) : RunBudget :=
  { budget with shedEvents := budget.shedEvents ++ [⟨requested, served, reason⟩] }

end RunBudget

/-- What a call of the router works on: the budget it was given, the world of the provider, and
the tiers asked so far, which nothing reads. -/
structure Session (ω : Type) where
  budget : Option RunBudget
  world : ω
  tried : List ModelTier

namespace Session

variable {ω ε α : Type}

def onBudget (f : RunBudget → RunBudget) (s : Session ω) : Session ω :=
  { s with budget := s.budget.map f }

def asked (tier : ModelTier) (s : Session ω) : Session ω :=
  { s with tried := s.tried ++ [tier] }

def lift (x : Effect ω ε α) : Effect (Session ω) ε α :=
  ExceptT.mk fun s => ((x.exec s.world).1, { s with world := (x.exec s.world).2 })

theorem exec_lift (x : Effect ω ε α) (s : Session ω) :
    (lift x).exec s = ((x.exec s.world).1, { s with world := (x.exec s.world).2 }) := rfl

end Session

/-- A schema failure is an `LLMError` and is ruled out first. -/
def isOverload (raised : Raised) : Bool :=
  match raised.errorClass with
  | .llmSchemaError => false
  | .llmRateLimited | .llmTimeout => true
  | .llmError => raised.providerStatus.any (· ∈ overloadStatuses)
  | .tokenBudgetExceeded | .configurationError | .assertionError | .builtin
  | .cancelled => false

structure ModelRouter where
  modelFor : ModelTier → String
  pressureFraction : ℚ

namespace ModelRouter

variable {ω α : Type}

def underPressure (router : ModelRouter) (tier : ModelTier) :
    Option RunBudget → ModelTier × Option RunBudget
  | none => (tier, none)
  | some budget =>
    if router.pressureFraction ≤ 0 then (tier, some budget)
    else if router.pressureFraction < budget.remainingFraction then (tier, some budget)
    else
      match shedLadder tier with
      | none => (tier, some budget)
      | some cheaper => (cheaper, some (budget.recordShed tier cheaper .budgetPressure))

/-- The loop of `_dispatch`. Three passes walk the whole ladder. -/
def descend (call : ModelTier → Effect (Session ω) Raised α) (requested : ModelTier) :
    ℕ → ModelTier → Effect (Session ω) Raised α
  | 0, _ => throw ⟨.assertionError, "unreachable: the shed ladder terminates", none⟩
  | fuel + 1, current => do
    modify (Session.asked current)
    tryCatch (call current) fun raised =>
      if isOverload raised then
        match shedLadder current with
        | none => throw raised
        | some next => do
          modify (Session.onBudget fun budget => budget.recordShed requested next .overload)
          descend call requested fuel next
      else throw raised

def dispatch (router : ModelRouter) (tier : ModelTier)
    (call : String → Effect (Session ω) Raised α) : Effect (Session ω) Raised α := do
  let session ← get
  match session.budget.elim (.ok ()) RunBudget.check with
  | .error raised => throw raised
  | .ok () =>
    let (current, budget) := router.underPressure tier session.budget
    modify fun s => { s with budget := budget }
    descend (fun tier => call (router.modelFor tier)) tier 3 current

def complete (router : ModelRouter) (provider : String → Effect ω Raised LLMResponse)
    (tier : ModelTier) : Effect (Session ω) Raised LLMResponse :=
  router.dispatch tier fun model => do
    let response ← Session.lift (provider model)
    modify (Session.onBudget fun budget => budget.charge response)
    pure response

end ModelRouter

end OmniSense.Llm
