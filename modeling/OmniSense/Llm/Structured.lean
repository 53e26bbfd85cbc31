import OmniSense.Llm.AnthropicProvider
import OmniSense.Llm.OpenAICompatible
import OmniSense.Llm.Router

/-! Schema-constrained calls with their usage: `structured_metered` of both providers, the shim of
`agents/base.py` that records usage in the ledger of a node, and the router over it. -/

namespace OmniSense.Llm

open Library

inductive StructuredMode
  | schema | object | prompt
  deriving DecidableEq, Repr

def StructuredMode.text : StructuredMode → String
  | schema => "json_schema"
  | object => "json_object"
  | prompt => "prompt"

structure MutableLedger where
  inputTokens : ℤ
  outputTokens : ℤ
  cachedTokens : ℤ
  calls : ℕ

def MutableLedger.record (ledger : MutableLedger) (response : LLMResponse) : MutableLedger where
  inputTokens := ledger.inputTokens + response.inputTokens
  outputTokens := ledger.outputTokens + response.outputTokens
  cachedTokens := ledger.cachedTokens + response.cachedTokens
  calls := ledger.calls + 1

structure Sent (κ : Type) where
  sender : κ
  outcome : Outcome

/-- What a call works on: what becomes of its requests (those after the listed ones fail), how many
requests the time slice of the node leaves room for, the modes the provider remembers, and the
ledger. Nothing reads the sender and the requests made. -/
structure Wire (κ : Type) where
  outcomes : List Outcome
  slice : Option ℕ
  modes : String → StructuredMode
  ledger : MutableLedger
  sender : κ
  sent : List (Sent κ)

namespace Wire

variable {κ : Type}

def next (wire : Wire κ) : Outcome := wire.outcomes.headD (.failed "")

def answered (wire : Wire κ) : Wire κ where
  outcomes := wire.outcomes.tail
  slice := wire.slice.map fun left => left - 1
  modes := wire.modes
  ledger := wire.ledger
  sender := wire.sender
  sent := wire.sent ++ [⟨wire.sender, wire.next⟩]

def abandoned (wire : Wire κ) : Wire κ :=
  { wire with sent := wire.sent ++ [⟨wire.sender, .failed ""⟩] }

def remember (model : String) (mode : StructuredMode) (wire : Wire κ) : Wire κ :=
  { wire with modes := fun name => if name = model then mode else wire.modes name }

def record (response : LLMResponse) (wire : Wire κ) : Wire κ :=
  { wire with ledger := wire.ledger.record response }

def request : Effect (Wire κ) Raised Outcome := do
  let wire ← get
  if wire.slice = some 0 then
    modify abandoned
    throw .cancelled
  else
    modify answered
    pure wire.next

end Wire

variable {κ : Type}

/-! ## Chat completions -/

namespace OpenAICompatibleProvider

variable (provider : OpenAICompatibleProvider)

def downgrade : StructuredMode → Option StructuredMode
  | .schema => some .object
  | .object => some .prompt
  | .prompt => none

def formatMarkers : List String :=
  ["response_format", "json_schema", "not supported", "unsupported"]

/-- Whether a failure reads like the endpoint refusing `response_format`. -/
def looksLikeFormatRejection (raised : Raised) : Bool :=
  let text := (provider.python.casefold raised.message).toList
  formatMarkers.any fun marker => text.tails.any fun rest => marker.toList.isPrefixOf rest

/-- The outermost braces of a reply, `none` where it has none. -/
def extractJson (text : String) : Option String :=
  let stripped := (strip text).toList
  if stripped.head? = some '\x7b' then some (String.ofList stripped)
  else
    match ((stripped.dropWhile (· ≠ '\x7b')).reverse.dropWhile (· ≠ '\x7d')).reverse with
    | [] => none
    | block => some (String.ofList block)

def validated (schema : Schema) (response : LLMResponse) : Except String Json :=
  match extractJson response.text with
  | none => .error "no JSON object found in the reply"
  | some block => schema.modelValidateJson block

/-- The loop of `structured_metered`, with that many attempts left. -/
def attempts (schema : Schema) (model : String) :
    ℕ → StructuredMode → Effect (Wire κ) Raised (Json × LLMResponse)
  | 0, _ =>
    throw (.llmError "unreachable: the structured loop always returns or raises" none)
  | left + 1, mode => do
    let outcome ← Wire.request
    match provider.post outcome with
    | .error raised =>
      match (downgrade mode).filter fun _ =>
          raised.isLLMError && provider.looksLikeFormatRejection raised with
      | some weaker =>
        modify (Wire.remember model weaker)
        attempts schema model left weaker
      | none => throw raised
    | .ok payload =>
      match provider.toResponse payload with
      | .error raised => throw raised
      | .ok response =>
        match validated schema response with
        | .ok value =>
          modify (Wire.remember model mode)
          pure (value, response)
        | .error error =>
          if left = 0 then
            throw (.llmError (s!"{model} did not produce valid {schema.name} after " ++
              s!"two attempts in {mode.text} mode: {error}") none)
          else attempts schema model left mode

def structuredMetered (schema : Schema) (model : String) :
    Effect (Wire κ) Raised (Json × LLMResponse) := do
  let resolved := if model = "" then provider.modelWorker else model
  let wire ← get
  provider.attempts schema resolved 2 (wire.modes resolved)

end OpenAICompatibleProvider

/-! ## The Messages API -/

def AnthropicProvider.structuredMetered (provider : AnthropicProvider) (schema : Schema)
    (model : String) : Effect (Wire κ) Raised (Json × LLMResponse) :=
  match provider.validatedModel (provider.orDefault model) with
  | .error raised => throw raised
  | .ok resolved => do
    let outcome ← Wire.request
    match provider.parsed schema resolved outcome with
    | .error raised => throw raised
    | .ok result => pure result

/-! ## The shim and the router -/

inductive LLMProvider
  | openAICompatible (provider : OpenAICompatibleProvider)
  | anthropic (provider : AnthropicProvider)

def LLMProvider.structuredMetered (schema : Schema) (model : String) :
    LLMProvider → Effect (Wire κ) Raised (Json × LLMResponse)
  | .openAICompatible provider => provider.structuredMetered schema model
  | .anthropic provider => provider.structuredMetered schema model

/-- `_LedgerMeteringProvider`: every response that comes back is recorded. -/
def LLMProvider.metered (provider : LLMProvider) (schema : Schema) (model : String) :
    Effect (Wire κ) Raised (Json × LLMResponse) := do
  let result ← provider.structuredMetered schema model
  modify (Wire.record result.2)
  pure result

def ModelRouter.structured (router : ModelRouter) (provider : LLMProvider) (tier : ModelTier)
    (schema : Schema) : Effect (Session (Wire κ)) Raised Json :=
  router.dispatch tier fun model => do
    let result ← Session.lift (provider.metered schema model)
    modify (Session.onBudget fun budget => budget.charge result.2)
    pure result.1

end OmniSense.Llm
