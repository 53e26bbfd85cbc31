import OmniSense.Llm.Provider

/-! The provider that speaks the chat-completions shape: one POST, its failures sorted into the
taxonomy, and the response read out of the payload. -/

namespace OmniSense.Llm

structure OpenAICompatibleProvider where
  python : Python
  baseUrl : String
  modelWorker : String
  /-- As a message shows it. -/
  timeoutSeconds : String

namespace OpenAICompatibleProvider

variable (provider : OpenAICompatibleProvider)

/-- The part of `_post` that reads the body of an answer below 400. -/
def payloadOf (text : String) : Except Raised (List (String × Json)) :=
  match provider.python.loads text with
  | none => .error (.llmError "the endpoint returned a non-JSON body" none)
  | some (.object payload) =>
    match Json.get payload "error" with
    | some (.object error) =>
      let message := provider.python.str
        ((Json.get error "message").getD (.str "unknown upstream error"))
      .error (.llmError s!"upstream model error: {message}" none)
    | _ => .ok payload
  -- Only a dict has a `get`.
  | some _ => .error .builtin

def post : Outcome → Except Raised (List (String × Json))
  | .timedOut =>
    .error (.llmTimeout s!"{provider.baseUrl} timed out after {provider.timeoutSeconds}s" none)
  | .failed error => .error (.llmError s!"request to {provider.baseUrl} failed: {error}" none)
  | .answered answer =>
    if answer.status = 401 then
      .error (.llmError ("The API key was rejected. For OpenRouter, check the key at " ++
        "openrouter.ai/keys and that it has credit.") none)
    else if answer.status = 402 then
      .error (.llmError ("Out of credit. OpenRouter returns 402 when the account balance " ++
        "is exhausted -- top up at openrouter.ai/credits.") none)
    else if answer.status = 429 then
      let retryAfter := answer.retryAfter.getD "unset"
      .error (.llmRateLimited s!"rate limited; retry-after={retryAfter}")
    else if 500 ≤ answer.status then
      .error (.llmError s!"{provider.baseUrl} returned {answer.status}" none)
    else if 400 ≤ answer.status then
      .error (.llmError (s!"{provider.baseUrl} rejected the request ({answer.status}): " ++
        String.ofList (answer.text.toList.take 300)) none)
    else provider.payloadOf answer.text

variable (fields : List (String × Json))

/-- `mapping.get(key) or {}`, which is then asked for keys of its own. -/
def mappingOr (key : String) :
    Except Raised (List (String × Json)) :=
  match Json.getTrue fields key with
  | none => .ok []
  | some (.object inner) => .ok inner
  | some _ => .error .builtin

/-- `int(mapping.get(key) or 0)`. -/
def countOf (key : String) : Except Raised ℤ :=
  match Json.getTrue fields key with
  | none => .ok 0
  | some value =>
    match provider.python.int value with
    | none => .error .builtin
    | some count => .ok count

/-- `str(mapping.get(key) or default)`. -/
def textOf (key default : String) : String :=
  match Json.getTrue fields key with
  | none => default
  | some value => provider.python.str value

def toResponse (payload : List (String × Json)) : Except Raised LLMResponse :=
  match Json.getTrue payload "choices" with
  | none => .error (.llmError "the endpoint returned no choices" none)
  | some (.array (.object choice :: _)) => do
    let message ← mappingOr choice "message"
    let usage ← mappingOr payload "usage"
    let details ← mappingOr usage "prompt_tokens_details"
    let inputTokens ← provider.countOf usage "prompt_tokens"
    let outputTokens ← provider.countOf usage "completion_tokens"
    let cachedTokens ← provider.countOf details "cached_tokens"
    .ok {
      text := provider.textOf message "content" ""
      model := provider.textOf payload "model" "unknown"
      inputTokens
      outputTokens
      cachedTokens
      stopReason := (Json.get choice "finish_reason").getD .null }
  | some _ => .error .builtin

def complete (outcome : Outcome) : Except Raised LLMResponse := do
  let payload ← provider.post outcome
  provider.toResponse payload

end OpenAICompatibleProvider

end OmniSense.Llm
