import OmniSense.Llm.Provider
import OmniSense.Models.Common

/-! The provider over the `anthropic` SDK. The SDK turns what became of a request into a message or
one of its exceptions; each is mapped onto the taxonomy. -/

namespace OmniSense.Llm

/-- The exceptions of the SDK, as far as `_send` has a clause for them. -/
inductive SdkError
  | rateLimitError
  | apiTimeoutError
  | apiConnectionError (name : String)
  /-- `AuthenticationError`, `PermissionDeniedError`, `NotFoundError` or `BadRequestError`. -/
  | rejected (statusCode : ℕ)
  | apiStatusError (statusCode : ℕ)
  | apiError (name : String)

structure Usage where
  inputTokens : ℤ
  outputTokens : ℤ
  cacheCreationInputTokens : Option ℤ
  cacheReadInputTokens : Option ℤ

structure Block where
  type : String
  text : String

structure Message where
  content : List Block
  model : String
  usage : Usage
  stopReason : Option String

/-- What `messages.parse` raises: an exception of the SDK, or the `ValidationError` of an answer
that does not fit, here by `_schema_detail` of it. -/
inductive ParseError
  | sdk (error : SdkError)
  | validation (detail : String)

structure AnthropicProvider where
  /-- What one call of `messages.create` comes to, the SDK's own retries included. -/
  sdk : Outcome → Except SdkError Message
  /-- The same for `messages.parse`, with the `parsed_output` of the message. -/
  parse : Schema → Outcome → Except ParseError (Message × Option Json)
  repr : String → String
  defaultModel : String
  /-- As messages show them. -/
  timeoutSeconds : String
  maxRetries : String

namespace AnthropicProvider

def retiredModelPrefixes : List String := ["claude-3", "claude-2", "claude-instant"]

def timeoutStatuses : List ℕ := [408, 504]

def statusError (statusCode : ℕ) : Raised :=
  if statusCode ∈ timeoutStatuses then
    .llmTimeout "the LLM provider timed out server-side." (some statusCode)
  else .llmError s!"the LLM provider returned HTTP {statusCode}." (some statusCode)

def textOf (message : Message) : String :=
  String.join ((message.content.filter fun block => block.type = "text").map Block.text)

def responseOf (message : Message) (model text : String) : LLMResponse where
  text := text
  model := if message.model = "" then model else message.model
  inputTokens := message.usage.inputTokens + message.usage.cacheCreationInputTokens.getD 0
  outputTokens := message.usage.outputTokens
  cachedTokens := message.usage.cacheReadInputTokens.getD 0
  stopReason := message.stopReason.elim .null .str

variable (provider : AnthropicProvider)

def validatedModel (model : String) : Except Raised String :=
  let normalized := strip model
  if normalized = "" then
    .error ⟨.configurationError,
      "an empty model id reached the Anthropic provider; check LLM_MODEL_*.", none⟩
  else if retiredModelPrefixes.any fun start => start.toList.isPrefixOf normalized.toList then
    .error ⟨.configurationError,
      s!"model {provider.repr normalized} is retired and will answer 404. Use one of " ++
        "claude-opus-5, claude-sonnet-5, claude-haiku-4-5-20251001.", none⟩
  else .ok normalized

/-- The clauses of `_send`. -/
def mapped : SdkError → Raised
  | .rateLimitError => .llmRateLimited "the LLM provider rate limited the request."
  | .apiTimeoutError => .llmTimeout
      (s!"no response from the LLM provider within {provider.timeoutSeconds}s " ++
        s!"per attempt ({provider.maxRetries} retries allowed).") none
  | .apiConnectionError name =>
    .llmError s!"transport failure talking to the LLM provider ({name})." none
  | .rejected statusCode => .llmError
      (s!"the LLM provider rejected the request with HTTP {statusCode}; " ++
        "the credential, the model id or the request shape is wrong.") (some statusCode)
  | .apiStatusError statusCode => statusError statusCode
  | .apiError name => .llmError s!"the LLM provider client failed ({name})." none

def send (outcome : Outcome) : Except Raised Message :=
  (provider.sdk outcome).mapError provider.mapped

/-- `model or self._default_model`. -/
def orDefault (model : String) : String :=
  if model = "" then provider.defaultModel else model

def complete (model : String) (outcome : Outcome) : Except Raised LLMResponse := do
  let resolved ← provider.validatedModel (provider.orDefault model)
  let message ← provider.send outcome
  .ok (responseOf message resolved (textOf message))

def emptyDetail (message : Message) : String :=
  if message.stopReason = some "max_tokens" then
    "the response hit max_tokens before any output was produced; raise LLM_MAX_OUTPUT_TOKENS"
  else if message.stopReason = some "refusal" then "the model refused the request"
  else
    let stopReason := message.stopReason.elim "None" provider.repr
    s!"the model returned no JSON object (stop_reason={stopReason})"

/-- `structured_metered`, from the outcome of its one request on. -/
def parsed (schema : Schema) (model : String) (outcome : Outcome) :
    Except Raised (Json × LLMResponse) :=
  match provider.parse schema outcome with
  | .error (.sdk error) => .error (provider.mapped error)
  | .error (.validation detail) =>
    .error ⟨.llmSchemaError, s!"{schema.name} could not be produced: {detail}", none⟩
  | .ok (message, none) =>
    let detail := provider.emptyDetail message
    .error ⟨.llmSchemaError, s!"{schema.name} could not be produced: {detail}", none⟩
  | .ok (message, some value) => .ok (value, responseOf message model (textOf message))

end AnthropicProvider

end OmniSense.Llm
