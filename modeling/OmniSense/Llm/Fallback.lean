import OmniSense.Llm.Metering

/-! The modes of structured output that a provider tries on an endpoint, and which endpoints leave it
without an attempt for the mode they accept. -/

namespace OmniSense.Llm.OpenAICompatibleProvider

open Library Effect

variable (provider : OpenAICompatibleProvider)

def Refuses (outcome : Outcome) : Prop :=
  ∃ raised, provider.post outcome = .error raised ∧ raised.isLLMError = true ∧
    provider.looksLikeFormatRejection raised = true

def Gives (schema : Schema) (outcome : Outcome) (value : Json) (response : LLMResponse) : Prop :=
  ∃ payload, provider.post outcome = .ok payload ∧ provider.toResponse payload = .ok response ∧
    validated schema response = .ok value

def Garbles (schema : Schema) (outcome : Outcome) : Prop :=
  ∃ payload response error, provider.post outcome = .ok payload ∧
    provider.toResponse payload = .ok response ∧ validated schema response = .error error

/-- An endpoint, for one model: what it answers to a request in a mode, which may depend on the
number of the request. -/
structure Endpoint (schema : Schema) where
  accepts : StructuredMode → Bool
  reply : ℕ → StructuredMode → Outcome
  prompt : accepts .prompt = true
  gives : ∀ n mode, accepts mode = true → provider.Accepts schema (reply n mode)
  refuses : ∀ n mode, accepts mode = false → provider.Refuses (reply n mode)

def nextMode (mode : StructuredMode) (outcome : Outcome) : StructuredMode :=
  match provider.post outcome with
  | .error raised =>
    ((downgrade mode).filter fun _ =>
      raised.isLLMError && provider.looksLikeFormatRejection raised).getD mode
  | .ok _ => mode

def replies (reply : ℕ → StructuredMode → Outcome) : ℕ → ℕ → StructuredMode → List Outcome
  | 0, _, _ => []
  | left + 1, n, mode =>
    reply n mode :: replies reply left (n + 1) (provider.nextMode mode (reply n mode))

variable {κ : Type}

def resolvedModel (model : String) : String := if model = "" then provider.modelWorker else model

def facing (reply : ℕ → StructuredMode → Outcome) (model : String) (wire : Wire κ) : Wire κ :=
  { wire with
    outcomes := provider.replies reply 2 1 (wire.modes (provider.resolvedModel model))
    slice := none }

def Finds {schema : Schema} (endpoint : provider.Endpoint schema) (model : String)
    (wire : Wire κ) : Prop :=
  ∃ value response left,
    exec (provider.structuredMetered schema model)
        (provider.facing endpoint.reply model wire) = (.ok (value, response), left) ∧
      validated schema response = .ok value ∧ left.sent.length ≤ wire.sent.length + 3 ∧
      endpoint.accepts (left.modes (provider.resolvedModel model)) = true

variable {provider} {schema : Schema} {model : String} {mode weaker : StructuredMode}
  {wire : Wire κ} {outcome : Outcome} {rest : List Outcome} {left : ℕ}

theorem exec_request (hslice : wire.slice = none) :
    exec (Wire.request (κ := κ)) wire = (.ok wire.next, wire.answered) := by
  unfold Wire.request
  rw [exec_bind, exec_get]
  dsimp only
  rw [if_neg (by rw [hslice]; simp)]
  rfl

theorem exec_attempts_gives {value : Json} {response : LLMResponse} (hslice : wire.slice = none)
    (hgives : provider.Gives schema wire.next value response) :
    exec (provider.attempts schema model (left + 1) mode) wire =
      (.ok (value, response), wire.answered.remember model mode) := by
  obtain ⟨payload, hpost, hresponse, hvalue⟩ := hgives
  rw [attempts, exec_bind, exec_request hslice]
  dsimp only
  rw [hpost]
  dsimp only
  rw [hresponse]
  dsimp only
  rw [hvalue]
  rfl

theorem exec_attempts_refuses (hslice : wire.slice = none) (hrefuses : provider.Refuses wire.next)
    (hweaker : downgrade mode = some weaker) :
    exec (provider.attempts schema model (left + 1) mode) wire =
      exec (provider.attempts schema model left weaker)
        (wire.answered.remember model weaker) := by
  obtain ⟨raised, hpost, herror, hrejection⟩ := hrefuses
  rw [attempts, exec_bind, exec_request hslice]
  dsimp only
  rw [hpost]
  dsimp only
  rw [hweaker, Option.filter_some_pos (by rw [herror, hrejection]; rfl), exec_bind]
  rfl

theorem exec_attempts_garbles (hslice : wire.slice = none)
    (hgarbles : provider.Garbles schema wire.next) :
    exec (provider.attempts schema model (left + 2) mode) wire =
      exec (provider.attempts schema model (left + 1) mode) wire.answered := by
  obtain ⟨payload, response, error, hpost, hresponse, hvalue⟩ := hgarbles
  rw [attempts, exec_bind, exec_request hslice]
  dsimp only
  rw [hpost]
  dsimp only
  rw [hresponse]
  dsimp only
  rw [hvalue]
  dsimp only
  rw [if_neg (Nat.succ_ne_zero left)]

theorem nextMode_of_refuses (hrefuses : provider.Refuses outcome)
    (hweaker : downgrade mode = some weaker) : provider.nextMode mode outcome = weaker := by
  obtain ⟨raised, hpost, herror, hrejection⟩ := hrefuses
  unfold nextMode
  rw [hpost]
  dsimp only
  rw [hweaker, Option.filter_some_pos (by rw [herror, hrejection]; rfl), Option.getD_some]

theorem nextMode_of_ok {payload : List (String × Json)}
    (hpost : provider.post outcome = .ok payload) : provider.nextMode mode outcome = mode := by
  unfold nextMode
  rw [hpost]

theorem exec_structuredMetered (reply : ℕ → StructuredMode → Outcome) :
    exec (provider.structuredMetered schema model) (provider.facing reply model wire) =
      exec (provider.attempts schema (provider.resolvedModel model) 2
        (wire.modes (provider.resolvedModel model))) (provider.facing reply model wire) := by
  unfold structuredMetered
  rw [exec_bind, exec_get]
  rfl

variable (endpoint : provider.Endpoint schema)

theorem refused_twice (hweaker : downgrade mode = some weaker)
    (hmode : endpoint.accepts mode = false) :
    endpoint.accepts weaker = false ↔
      mode = .schema ∧ endpoint.accepts .schema = false ∧ endpoint.accepts .object = false := by
  cases mode with
  | schema =>
    cases hweaker
    exact ⟨fun h => ⟨rfl, hmode, h⟩, fun h => h.2.2⟩
  | object =>
    cases hweaker
    rw [endpoint.prompt]
    exact iff_of_false (by simp) (by simp)
  | prompt => simp [downgrade] at hweaker

theorem exists_downgrade
    (hmode : endpoint.accepts mode = false) : ∃ weaker, downgrade mode = some weaker := by
  cases mode with
  | schema | object => exact ⟨_, rfl⟩
  | prompt => exact absurd endpoint.prompt (by rw [hmode]; exact Bool.false_ne_true)

theorem next_answered (reply : ℕ → StructuredMode → Outcome) :
    (provider.facing reply model wire).answered.next =
      reply 2 (provider.nextMode (wire.modes (provider.resolvedModel model))
        (reply 1 (wire.modes (provider.resolvedModel model)))) := rfl

/-- The call finds a mode that works, unless it starts with the strongest one and only the weakest
one is accepted: both attempts are spent on the refusals. An answer that is no value is asked for
once more. -/
theorem structuredMetered_finds (model : String)
    (wire : Wire κ) :
    (provider.Finds endpoint model wire ↔
      ¬(wire.modes (provider.resolvedModel model) = .schema ∧
        endpoint.accepts .schema = false ∧ endpoint.accepts .object = false)) ∧
    ∀ (reply : ℕ → StructuredMode → Outcome) (value : Json) (response : LLMResponse),
      provider.Garbles schema (reply 1 (wire.modes (provider.resolvedModel model))) →
      provider.Gives schema (reply 2 (wire.modes (provider.resolvedModel model))) value response →
      ∃ left, exec (provider.structuredMetered schema model)
        (provider.facing reply model wire) = (.ok (value, response), left) := by
  constructor
  · unfold Finds
    rw [exec_structuredMetered]
    generalize hmode : wire.modes (provider.resolvedModel model) = mode
    have hnext : (provider.facing endpoint.reply model wire).next = endpoint.reply 1 mode := by
      rw [← hmode]
      rfl
    by_cases haccepts : endpoint.accepts mode = true
    · obtain ⟨payload, response, value, hpost, hresponse, hvalue⟩ :=
        endpoint.gives 1 mode haccepts
      refine iff_of_true ⟨value, response, _, exec_attempts_gives rfl
        (hnext ▸ ⟨payload, hpost, hresponse, hvalue⟩), hvalue, ?_, ?_⟩ ?_
      · simp [Wire.remember, Wire.answered, facing]
      · simpa [Wire.remember] using haccepts
      · rintro ⟨rfl, hschema, -⟩
        exact absurd haccepts (by rw [hschema]; exact Bool.false_ne_true)
    rw [Bool.not_eq_true] at haccepts
    obtain ⟨weaker, hweaker⟩ := exists_downgrade endpoint haccepts
    have hrefuses := endpoint.refuses 1 mode haccepts
    have hnext' : ((provider.facing endpoint.reply model wire).answered.remember
        (provider.resolvedModel model) weaker).next = endpoint.reply 2 weaker := by
      change (provider.facing endpoint.reply model wire).answered.next = _
      rw [next_answered, hmode, nextMode_of_refuses hrefuses hweaker]
    rw [← refused_twice endpoint hweaker haccepts,
      exec_attempts_refuses rfl (hnext ▸ hrefuses) hweaker]
    by_cases haccepts' : endpoint.accepts weaker = true
    · obtain ⟨payload, response, value, hpost, hresponse, hvalue⟩ :=
        endpoint.gives 2 weaker haccepts'
      refine iff_of_true ⟨value, response, _, exec_attempts_gives rfl
        (hnext' ▸ ⟨payload, hpost, hresponse, hvalue⟩), hvalue, ?_, ?_⟩ (by simp [haccepts'])
      · simp [Wire.remember, Wire.answered, facing]
      · simpa [Wire.remember] using haccepts'
    · -- The second refusal leaves no attempt for the mode that is left.
      rw [Bool.not_eq_true] at haccepts'
      obtain ⟨weakest, hweakest⟩ := exists_downgrade endpoint haccepts'
      rw [exec_attempts_refuses rfl (hnext' ▸ endpoint.refuses 2 weaker haccepts') hweakest]
      refine iff_of_false ?_ (by simp [haccepts'])
      rintro ⟨value, response, left, h, -⟩
      simp [attempts] at h
  · intro reply value response hgarbles hgives
    rw [exec_structuredMetered]
    refine ⟨_, (exec_attempts_garbles rfl hgarbles).trans (exec_attempts_gives rfl ?_)⟩
    obtain ⟨payload, -, -, hpost, -⟩ := hgarbles
    rw [next_answered, nextMode_of_ok hpost]
    exact hgives

/-! An endpoint that has no `response_format`. -/

def completionText (content : String) : String :=
  "\x7b\"choices\": [\x7b\"message\": \x7b\"content\": \"" ++ content ++ "\"\x7d\x7d]\x7d"

def completion (content : String) : Json :=
  .object [("choices", .array [.object [("message", .object [("content", .str content)])]])]

def plainProvider : OpenAICompatibleProvider where
  python := {
    loads text := ["\x7b\x7d", "sure"].findSome? fun content =>
      if text = completionText content then some (completion content) else none
    str value := value.asString.getD ""
    int _ := none
    casefold := id }
  baseUrl := "local"
  modelWorker := "m"
  timeoutSeconds := "60"

def emptyPlan : Schema where
  name := "Plan"
  modelValidateJson block := if block = "\x7b\x7d" then .ok (.object []) else .error "invalid"

def plainReply : StructuredMode → Outcome
  | .schema | .object => .answered ⟨400, none, "response_format is not supported"⟩
  | .prompt => .answered ⟨200, none, completionText "\x7b\x7d"⟩

def plainResponse : LLMResponse := ⟨"\x7b\x7d", "unknown", 0, 0, 0, .null⟩

theorem gives_plainReply :
    plainProvider.Gives emptyPlan (plainReply .prompt) (.object []) plainResponse :=
  ⟨_, rfl, rfl, rfl⟩

theorem refuses_plainReply (mode : StructuredMode) (h : decide (mode = .prompt) = false) :
    plainProvider.Refuses (plainReply mode) := by
  cases mode with
  | schema | object => exact ⟨_, rfl, rfl, by decide +kernel⟩
  | prompt => simp at h

theorem accepts_plainReply {mode : StructuredMode} (h : decide (mode = .prompt) = true) :
    plainProvider.Accepts emptyPlan (plainReply mode) := by
  obtain rfl := of_decide_eq_true h
  obtain ⟨payload, h⟩ := gives_plainReply
  exact ⟨payload, _, _, h⟩

def plainEndpoint : plainProvider.Endpoint emptyPlan where
  accepts mode := mode = .prompt
  reply _ := plainReply
  prompt := rfl
  gives _ _ := accepts_plainReply
  refuses _ := refuses_plainReply

def freshWire (mode : StructuredMode) : Wire Unit :=
  ⟨[], none, fun _ => mode, ⟨0, 0, 0, 0⟩, (), []⟩

def secondReply (n : ℕ) (_ : StructuredMode) : Outcome :=
  if n = 1 then .answered ⟨200, none, completionText "sure"⟩ else plainReply .prompt

theorem finds_remembered :
    plainProvider.Finds plainEndpoint "" (freshWire .object) ∧
      ∃ left, exec (plainProvider.structuredMetered emptyPlan "")
        (plainProvider.facing secondReply "" (freshWire .prompt)) =
          (.ok (.object [], plainResponse), left) := by
  have hgarbles : plainProvider.Garbles emptyPlan (secondReply 1 .prompt) := ⟨_, _, _, rfl, rfl, rfl⟩
  exact ⟨(structuredMetered_finds plainEndpoint "" (freshWire .object)).1.mpr (by simp [freshWire]),
    (structuredMetered_finds plainEndpoint "" (freshWire .prompt)).2 secondReply _ _ hgarbles
      gives_plainReply⟩

/-- Nothing is remembered yet, and both attempts are refused. -/
theorem finds_nothing :
    (exec (plainProvider.structuredMetered emptyPlan "")
      (plainProvider.facing plainEndpoint.reply "" (freshWire .schema))).1 =
        .error (.llmError "unreachable: the structured loop always returns or raises" none) ∧
      ¬plainProvider.Finds plainEndpoint "" (freshWire .schema) := by
  have hschema := refuses_plainReply .schema rfl
  have hobject := refuses_plainReply .object rfl
  have hrun : (exec (plainProvider.structuredMetered emptyPlan "")
      (plainProvider.facing plainEndpoint.reply "" (freshWire .schema))).1 =
        .error (.llmError "unreachable: the structured loop always returns or raises" none) := by
    have hnext : ((plainProvider.facing plainEndpoint.reply "" (freshWire .schema)).answered.remember
        "m" .object).next = plainReply .object := by
      change plainReply (plainProvider.nextMode .schema (plainReply .schema)) = _
      rw [nextMode_of_refuses hschema rfl]
    rw [exec_structuredMetered]
    rw [exec_attempts_refuses rfl hschema rfl, exec_attempts_refuses rfl (hnext ▸ hobject) rfl]
    rfl
  refine ⟨hrun, ?_⟩
  rintro ⟨value, response, left, h, -⟩
  rw [h] at hrun
  cases hrun

end OmniSense.Llm.OpenAICompatibleProvider
