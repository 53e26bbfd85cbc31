import Mathlib.Data.Int.Notation
import Mathlib.Data.Nat.Notation
import OmniSense.Models.Json

/-! What a model call leaves: a response with its token counts, or an error of the taxonomy. -/

namespace OmniSense.Llm

structure LLMResponse where
  text : String
  model : String
  inputTokens : ℤ
  outputTokens : ℤ
  cachedTokens : ℤ
  stopReason : Json

def LLMResponse.billableTokens (response : LLMResponse) : ℤ :=
  response.inputTokens + response.outputTokens

/-- The classes that a caller tells apart; `builtin` is an error of Python's own, and `cancelled` is
no `Exception`. -/
inductive ErrorClass
  | llmError | llmTimeout | llmRateLimited | llmSchemaError
  | tokenBudgetExceeded | configurationError | assertionError | builtin | cancelled
  deriving DecidableEq, Repr

structure Raised where
  errorClass : ErrorClass
  message : String
  providerStatus : Option ℕ
  deriving DecidableEq, Repr

namespace Raised

def llmError (message : String) (providerStatus : Option ℕ) : Raised :=
  ⟨.llmError, message, providerStatus⟩

def llmTimeout (message : String) (providerStatus : Option ℕ) : Raised :=
  ⟨.llmTimeout, message, providerStatus⟩

def llmRateLimited (message : String) : Raised :=
  ⟨.llmRateLimited, message, some 429⟩

/-- A `TypeError`, `AttributeError`, `KeyError` or `ValueError`. -/
def builtin : Raised := ⟨.builtin, "", none⟩

def cancelled : Raised := ⟨.cancelled, "", none⟩

/-- What `except LLMError` catches. -/
def isLLMError (raised : Raised) : Bool :=
  match raised.errorClass with
  | .llmError | .llmTimeout | .llmRateLimited | .llmSchemaError => true
  | .tokenBudgetExceeded | .configurationError | .assertionError | .builtin | .cancelled => false

end Raised

structure Answer where
  status : ℕ
  retryAfter : Option String
  text : String

inductive Outcome
  | answered (answer : Answer)
  | timedOut
  | failed (error : String)

/-- What the code asks of Python: `response.json()`, `str` and `int` of a value, and the folding of
case. -/
structure Python where
  loads : String → Option Json
  str : Json → String
  int : Json → Option ℤ
  casefold : String → String

structure Schema where
  name : String
  modelValidateJson : String → Except String Json

end OmniSense.Llm
