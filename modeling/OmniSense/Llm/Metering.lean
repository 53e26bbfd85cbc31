import OmniSense.Library.Meters
import OmniSense.Llm.Structured

/-! What a structured call spends and what it records. A call that returns a value records the usage
of one answer; the usage of an answer it turns down is lost. -/

namespace OmniSense.Llm

open Library Effect.Triple

structure Spend where
  input : ℤ
  output : ℤ
  deriving DecidableEq, Repr

def Spend.zero : Spend := ⟨0, 0⟩

def LLMResponse.spend (response : LLMResponse) : Spend :=
  ⟨response.inputTokens, response.outputTokens⟩

/-! ## The usage of an answer -/

namespace OpenAICompatibleProvider

variable (provider : OpenAICompatibleProvider)

def usageOf (payload : List (String × Json)) : Except Raised Spend := do
  let usage ← mappingOr payload "usage"
  let inputTokens ← provider.countOf usage "prompt_tokens"
  let outputTokens ← provider.countOf usage "completion_tokens"
  .ok ⟨inputTokens, outputTokens⟩

def reported : Outcome → Spend
  | .answered answer =>
    if answer.status < 400 then
      match provider.python.loads answer.text with
      | some (.object payload) => (provider.usageOf payload).toOption.getD .zero
      | _ => .zero
    else .zero
  | .timedOut | .failed _ => .zero

def Accepts (schema : Schema) (outcome : Outcome) : Prop :=
  ∃ payload response value, provider.post outcome = .ok payload ∧
    provider.toResponse payload = .ok response ∧ validated schema response = .ok value

end OpenAICompatibleProvider

namespace AnthropicProvider

/-- The usage block of an answer, `usage` reading it off the body. -/
def reported (usage : Answer → Option Usage) : Outcome → Spend
  | .answered answer =>
    (usage answer).elim .zero fun block =>
      ⟨block.inputTokens + block.cacheCreationInputTokens.getD 0, block.outputTokens⟩
  | .timedOut | .failed _ => .zero

def AcceptsParsed (provider : AnthropicProvider) (schema : Schema) (outcome : Outcome) : Prop :=
  ∃ message value, provider.parse schema outcome = .ok (message, some value)

def Faithful (provider : AnthropicProvider) (usage : Answer → Option Usage) : Prop :=
  ∀ schema outcome message value, provider.parse schema outcome = .ok (message, value) →
    ∃ answer, outcome = .answered answer ∧ usage answer = some message.usage

end AnthropicProvider

namespace LLMProvider

variable (usage : Answer → Option Usage)

def reported : LLMProvider → Outcome → Spend
  | .openAICompatible provider => provider.reported
  | .anthropic _ => AnthropicProvider.reported usage

def Accepts (schema : Schema) (outcome : Outcome) : LLMProvider → Prop
  | .openAICompatible provider => provider.Accepts schema outcome
  | .anthropic provider => provider.AcceptsParsed schema outcome

def Faithful : LLMProvider → Prop
  | .openAICompatible _ => True
  | .anthropic provider => provider.Faithful usage

theorem reported_failed (provider : LLMProvider) (error : String) :
    provider.reported usage (.failed error) = .zero := by
  cases provider <;> rfl

end LLMProvider

/-! ## The state of the books -/

section Books

variable {κ : Type} (tokens : Outcome → Spend) (cap : κ → ℤ)

def inputSpent (sent : List (Sent κ)) : ℤ := spentOn (fun r => (tokens r.outcome).input) sent

def outputSpent (sent : List (Sent κ)) : ℤ := spentOn (fun r => (tokens r.outcome).output) sent

def totalCost (r : Sent κ) : ℤ := (tokens r.outcome).input + (tokens r.outcome).output

/-- While one sender with the ledger `ledger` works: what its requests have cost so far, and that
each was made below the cap of its sender. -/
structure Books (fair : Outcome → Prop) (sender : κ) (ledger : MutableLedger) (spent : Spend)
    (wire : Wire κ) : Prop where
  sender : wire.sender = sender
  ledger : wire.ledger = ledger
  fair : ∀ outcome ∈ wire.outcomes, fair outcome
  input : inputSpent tokens wire.sent = spent.input
  output : outputSpent tokens wire.sent = spent.output
  paced : Paced (totalCost tokens) (fun r => cap r.sender) wire.sent

variable {tokens cap} {fair : Outcome → Prop} {sender : κ} {ledger : MutableLedger} {spent : Spend}

def Spend.plus (spent more : Spend) : Spend :=
  ⟨spent.input + more.input, spent.output + more.output⟩

theorem Spend.plus_zero (spent : Spend) : spent.plus .zero = spent := by
  unfold Spend.plus Spend.zero
  rw [Int.add_zero, Int.add_zero]

theorem spentOn_totalCost (sent : List (Sent κ)) :
    spentOn (totalCost tokens) sent = inputSpent tokens sent + outputSpent tokens sent :=
  spentOn_add sent

variable {wire : Wire κ}

theorem Books.sent (h : Books tokens cap fair sender ledger spent wire)
    (hbelow : spent.input + spent.output < cap sender) (outcome : Outcome) :
    inputSpent tokens (wire.sent ++ [⟨wire.sender, outcome⟩]) =
        (spent.plus (tokens outcome)).input ∧
      outputSpent tokens (wire.sent ++ [⟨wire.sender, outcome⟩]) =
        (spent.plus (tokens outcome)).output ∧
      Paced (totalCost tokens) (fun r => cap r.sender)
        (wire.sent ++ [⟨wire.sender, outcome⟩]) := by
  refine ⟨?_, ?_, h.paced.concat ?_⟩
  · unfold inputSpent
    rw [spentOn_concat]
    exact congrArg (· + (tokens outcome).input) h.input
  · unfold outputSpent
    rw [spentOn_concat]
    exact congrArg (· + (tokens outcome).output) h.output
  · rw [spentOn_totalCost, h.input, h.output, h.sender]
    exact hbelow

theorem Books.remember (h : Books tokens cap fair sender ledger spent wire)
    {model : String} {mode : StructuredMode} :
    Books tokens cap fair sender ledger spent (wire.remember model mode) :=
  ⟨h.sender, h.ledger, h.fair, h.input, h.output, h.paced⟩

theorem fair_next (hfair : ∀ error, fair (.failed error))
    (h : ∀ outcome ∈ wire.outcomes, fair outcome) : fair wire.next := by
  unfold Wire.next
  cases houtcomes : wire.outcomes with
  | nil => exact hfair ""
  | cons outcome rest =>
    rw [houtcomes] at h
    exact h outcome (List.mem_cons_self ..)

theorem books_request (hfailed : ∀ error, tokens (.failed error) = .zero)
    (hfair : ∀ error, fair (.failed error))
    (hbelow : spent.input + spent.output < cap sender) :
    Effect.Triple (Books tokens cap fair sender ledger spent) Wire.request
      (fun outcome wire => fair outcome ∧
        Books tokens cap fair sender ledger (spent.plus (tokens outcome)) wire)
      (Books tokens cap fair sender ledger spent) := by
  refine of_state fun wire h => read fun wire' hwire => ?_
  subst hwire
  split_ifs with hslice
  · refine bind (Q := fun _ => Books tokens cap fair sender ledger spent)
      (update fun wire hwire => ?_) fun _ => raise fun _ h => h
    subst hwire
    have hsent := h.sent hbelow (.failed "")
    rw [hfailed, Spend.plus_zero] at hsent
    exact ⟨h.sender, h.ledger, h.fair, hsent.1, hsent.2.1, hsent.2.2⟩
  · refine bind
      (Q := fun _ => Books tokens cap fair sender ledger (spent.plus (tokens wire'.next)))
      (update fun wire hwire => ?_)
      fun _ => ret fun _ h' => ⟨fair_next hfair h.fair, h'⟩
    subst hwire
    have hsent := h.sent hbelow wire.next
    exact ⟨h.sender, h.ledger, fun outcome hmem => h.fair outcome (List.mem_of_mem_tail hmem),
      hsent.1, hsent.2.1, hsent.2.2⟩

end Books

/-! ## What a call records -/

section Calls

variable {κ : Type} {usage : Answer → Option Usage} {cap : κ → ℤ} {timed : Bool} {schema : Schema}
  {sender : κ} {ledger : MutableLedger} {spent : Spend}

def LLMProvider.Fair (usage : Answer → Option Usage) (provider : LLMProvider) (timed : Bool)
    (schema : Schema) (outcome : Outcome) : Prop :=
  provider.reported usage outcome = .zero ∨ (timed = false ∧ provider.Accepts schema outcome)

theorem LLMProvider.fair_failed (provider : LLMProvider) (error : String) :
    provider.Fair usage timed schema (.failed error) :=
  .inl (provider.reported_failed usage error)

def Settles (usage : Answer → Option Usage) (cap : κ → ℤ) (provider : LLMProvider) (timed : Bool)
    (schema : Schema) (sender : κ) (ledger : MutableLedger) (spent : Spend) (response : LLMResponse)
    (wire : Wire κ) : Prop :=
  Books (provider.reported usage) cap (provider.Fair usage timed schema) sender ledger
    (spent.plus response.spend) wire ∧ (timed = true → response.spend = .zero)

variable {provider : OpenAICompatibleProvider}

variable {outcome : Outcome} {response : LLMResponse} {payload : List (String × Json)}

theorem payload_of_post (h : provider.post outcome = .ok payload) :
    ∃ answer, outcome = .answered answer ∧ answer.status < 400 ∧
      provider.python.loads answer.text = some (.object payload) := by
  cases outcome with
  | timedOut | failed => cases h
  | answered answer =>
    rw [OpenAICompatibleProvider.post] at h
    split_ifs at h with hkey hcredit hlimited hserver hclient
    refine ⟨answer, rfl, Nat.lt_of_not_le hclient, ?_⟩
    unfold OpenAICompatibleProvider.payloadOf at h
    split at h
    · cases h
    · rename_i payload' hloads
      split at h
      · cases h
      · cases h
        exact hloads
    · cases h

theorem usageOf_of_response (h : provider.toResponse payload = .ok response) :
    provider.usageOf payload = .ok response.spend := by
  unfold OpenAICompatibleProvider.toResponse at h
  split at h
  · cases h
  · obtain ⟨message, _, h⟩ := ok_of_bind h
    obtain ⟨fields, hfields, h⟩ := ok_of_bind h
    obtain ⟨details, _, h⟩ := ok_of_bind h
    obtain ⟨inputTokens, hinput, h⟩ := ok_of_bind h
    obtain ⟨outputTokens, houtput, h⟩ := ok_of_bind h
    obtain ⟨cachedTokens, _, h⟩ := ok_of_bind h
    cases h
    unfold OpenAICompatibleProvider.usageOf
    rw [hfields]
    change (provider.countOf fields "prompt_tokens" >>= _) = _
    rw [hinput]
    rw [houtput]
    rfl
  · cases h

theorem reported_of_payload (hpost : provider.post outcome = .ok payload)
    (hresponse : provider.toResponse payload = .ok response) :
    provider.reported outcome = response.spend := by
  obtain ⟨answer, rfl, hstatus, hloads⟩ := payload_of_post hpost
  rw [OpenAICompatibleProvider.reported, if_pos hstatus, hloads]
  dsimp only
  rw [usageOf_of_response hresponse]
  rfl

theorem books_turned_down (provider : LLMProvider) {wire : Wire κ}
    (h : provider.Fair usage timed schema outcome ∧
      Books (provider.reported usage) cap (provider.Fair usage timed schema) sender ledger
        (spent.plus (provider.reported usage outcome)) wire)
    (hturned : ¬ provider.Accepts schema outcome) :
    Books (provider.reported usage) cap (provider.Fair usage timed schema) sender ledger spent
      wire := by
  obtain ⟨hfair, hbooks⟩ := h
  rw [hfair.resolve_right fun haccepts => hturned haccepts.2, Spend.plus_zero] at hbooks
  exact hbooks

theorem settles_of_accepted (provider : LLMProvider) {wire : Wire κ}
    (h : provider.Fair usage timed schema outcome ∧
      Books (provider.reported usage) cap (provider.Fair usage timed schema) sender ledger
        (spent.plus (provider.reported usage outcome)) wire)
    (hresponse : provider.reported usage outcome = response.spend) :
    Settles usage cap provider timed schema sender ledger spent response wire := by
  refine ⟨hresponse ▸ h.2, fun htimed => ?_⟩
  rcases h.1 with hzero | haccepts
  · exact hresponse.symm.trans hzero
  · exact absurd (htimed.symm.trans haccepts.1) Bool.true_eq_false_eq_False

theorem settles_attempts (hbelow : spent.input + spent.output < cap sender) (model : String)
    (left : ℕ) (mode : StructuredMode) :
    Effect.Triple (Books provider.reported cap
        ((LLMProvider.openAICompatible provider).Fair usage timed schema) sender ledger spent)
      (provider.attempts schema model left mode)
      (fun result => Settles usage cap (.openAICompatible provider) timed schema sender ledger spent
        result.2)
      (Books provider.reported cap
        ((LLMProvider.openAICompatible provider).Fair usage timed schema) sender ledger spent) := by
  induction left generalizing mode with
  | zero => exact raise fun _ h => h
  | succ left ih =>
    refine bind (books_request (LLMProvider.reported_failed usage
      (.openAICompatible provider)) (LLMProvider.fair_failed _) hbelow) fun outcome => ?_
    cases hpost : provider.post outcome with
    | error raised =>
      have hturned : ¬ provider.Accepts schema outcome := by
        rintro ⟨payload, response, value, hok, _⟩
        cases hpost.symm.trans hok
      dsimp only
      split
      · refine bind (update fun wire h => ?_) fun _ => ih _
        exact (books_turned_down (.openAICompatible provider) h hturned).remember
      · exact raise fun wire h =>
          books_turned_down (.openAICompatible provider) h hturned
    | ok payload =>
      dsimp only
      cases hresponse : provider.toResponse payload with
      | error raised =>
        refine raise fun wire h =>
          books_turned_down (.openAICompatible provider) h ?_
        rintro ⟨payload', response, value, hok, hto, _⟩
        obtain rfl := Except.ok.inj (hpost.symm.trans hok)
        cases hresponse.symm.trans hto
      | ok response =>
        dsimp only
        cases hvalue : OpenAICompatibleProvider.validated schema response with
        | ok value =>
          refine bind (Q := fun _ => Settles usage cap (.openAICompatible provider)
              timed schema sender ledger spent response)
            (update fun wire h => ?_) fun _ => ret fun _ h => h
          have hsettles := settles_of_accepted (.openAICompatible provider) h
            (reported_of_payload hpost hresponse)
          exact ⟨hsettles.1.remember, hsettles.2⟩
        | error error =>
          have hturned : ¬ provider.Accepts schema outcome := by
            rintro ⟨payload', response', value, hok, hto, hvalid⟩
            obtain rfl := Except.ok.inj (hpost.symm.trans hok)
            obtain rfl := Except.ok.inj (hresponse.symm.trans hto)
            cases hvalue.symm.trans hvalid
          split_ifs
          · exact raise fun wire h =>
              books_turned_down (.openAICompatible provider) h hturned
          · refine weaken (ih _) (fun wire h => ?_) (fun _ _ h => h) fun _ h => h
            exact books_turned_down (.openAICompatible provider) h hturned

theorem spend_of_parsed {provider : AnthropicProvider} (husage : provider.Faithful usage)
    {model : String} {result : Json × LLMResponse}
    (h : provider.parsed schema model outcome = .ok result) :
    AnthropicProvider.reported usage outcome = result.2.spend := by
  unfold AnthropicProvider.parsed at h
  split at h
  · cases h
  · cases h
  · cases h
  · rename_i message value hparse
    cases h
    obtain ⟨answer, rfl, hanswer⟩ := husage schema outcome message (some value) hparse
    rw [AnthropicProvider.reported, hanswer]
    rfl

theorem not_accepts_of_parsed {provider : AnthropicProvider} {model : String}
    {raised : Raised} (h : provider.parsed schema model outcome = .error raised) :
    ¬ provider.AcceptsParsed schema outcome := by
  rintro ⟨message, value, hparse⟩
  unfold AnthropicProvider.parsed at h
  rw [hparse] at h
  cases h

theorem settles_structuredMetered {provider : LLMProvider} (husage : provider.Faithful usage)
    (hbelow : spent.input + spent.output < cap sender) (model : String) :
    Effect.Triple (Books (provider.reported usage) cap (provider.Fair usage timed schema) sender
        ledger spent)
      (provider.structuredMetered schema model)
      (fun result => Settles usage cap provider timed schema sender ledger spent result.2)
      (Books (provider.reported usage) cap (provider.Fair usage timed schema) sender ledger
        spent) := by
  cases provider with
  | openAICompatible provider =>
    exact read fun wire _ => settles_attempts hbelow _ _ _
  | anthropic provider =>
    change Effect.Triple _ (provider.structuredMetered schema model) _ _
    unfold AnthropicProvider.structuredMetered
    split
    · exact raise fun _ h => h
    · rename_i resolved _
      refine bind (books_request (LLMProvider.reported_failed usage _)
        (LLMProvider.fair_failed _) hbelow) fun outcome => ?_
      cases hparsed : provider.parsed schema resolved outcome with
      | error raised =>
        exact raise fun _ h => books_turned_down _ h (not_accepts_of_parsed hparsed)
      | ok result =>
        exact ret fun _ h => settles_of_accepted _ h (spend_of_parsed husage hparsed)

variable (timed schema) in
theorem books_metered {provider : LLMProvider} (husage : provider.Faithful usage)
    (hbelow : spent.input + spent.output < cap sender) (model : String) :
    Effect.Triple (Books (provider.reported usage) cap (provider.Fair usage timed schema) sender
        ledger spent)
      (provider.metered schema model)
      (fun result wire => Books (provider.reported usage) cap (provider.Fair usage timed schema)
          sender (ledger.record result.2) (spent.plus result.2.spend) wire ∧
        (timed = true → result.2.spend = .zero))
      (Books (provider.reported usage) cap (provider.Fair usage timed schema) sender ledger
        spent) := by
  refine bind (settles_structuredMetered husage hbelow model) fun result => ?_
  refine bind (update fun wire h => ?_) fun _ =>
    ret fun _ h => h
  obtain ⟨hbooks, htimed⟩ := h
  exact ⟨⟨hbooks.sender, congrArg (MutableLedger.record · result.2) hbooks.ledger, hbooks.fair,
    hbooks.input, hbooks.output, hbooks.paced⟩, htimed⟩

/-- What a node that started when `base` was spent has on its books and in its budget. -/
structure Metered (usage : Answer → Option Usage) (cap : κ → ℤ) (provider : LLMProvider)
    (timed : Bool) (fair : Outcome → Prop) (sender : κ) (base : Spend) (ledger : MutableLedger)
    (s : Session (Wire κ)) : Prop where
  books : Books (provider.reported usage) cap fair sender ledger
    (base.plus ⟨ledger.inputTokens, ledger.outputTokens⟩) s.world
  budget : ∃ budget, s.budget = some budget ∧ budget.limit = cap sender ∧
    budget.spent = base.input + ledger.inputTokens + (base.output + ledger.outputTokens)
  timed : timed = true → ledger.inputTokens = 0 ∧ ledger.outputTokens = 0

variable {provider : LLMProvider} {base : Spend} {fair : Outcome → Prop}

/-- `Metered` with budget left. -/
def Funded (usage : Answer → Option Usage) (cap : κ → ℤ) (provider : LLMProvider) (timed : Bool)
    (fair : Outcome → Prop) (sender : κ) (base : Spend) (s : Session (Wire κ)) : Prop :=
  ∃ ledger, Metered usage cap provider timed fair sender base ledger s ∧
    base.input + ledger.inputTokens + (base.output + ledger.outputTokens) < cap sender

theorem lift_triple {ω α : Type} {x : Effect ω Raised α} {P E : ω → Prop} {Q : α → ω → Prop}
    (h : Effect.Triple P x Q E) {s : Session ω} (hs : P s.world) :
    Effect.Triple (· = s) (Session.lift x) (fun a s' => Q a s'.world ∧ s'.budget = s.budget)
      (fun s' => E s'.world ∧ s'.budget = s.budget) := by
  intro s' hs'
  subst hs'
  have hx := h s'.world hs
  rw [Session.exec_lift]
  rcases hrun : x.exec s'.world with ⟨raised | a, w⟩
  · rw [hrun] at hx
    exact ⟨hx, rfl⟩
  · rw [hrun] at hx
    exact ⟨hx, rfl⟩

theorem Metered.charge {ledger : MutableLedger} {s s' : Session (Wire κ)}
    (h : Metered usage cap provider timed fair sender base ledger s)
    (hbooks : Books (provider.reported usage) cap fair sender (ledger.record response)
      ((base.plus ⟨ledger.inputTokens, ledger.outputTokens⟩).plus response.spend) s'.world)
    (htimed : timed = true → response.spend = .zero) (hbudget : s'.budget = s.budget) :
    Metered usage cap provider timed fair sender base (ledger.record response)
      (s'.onBudget fun budget => budget.charge response) := by
  obtain ⟨budget, hbudget', hlimit, hspent⟩ := h.budget
  have hplus : (base.plus ⟨ledger.inputTokens, ledger.outputTokens⟩).plus response.spend =
      base.plus ⟨(ledger.record response).inputTokens, (ledger.record response).outputTokens⟩ := by
    exact congrArg₂ Spend.mk (Int.add_assoc ..) (Int.add_assoc ..)
  refine ⟨hplus ▸ hbooks, ⟨budget.charge response, ?_, hlimit, ?_⟩, fun h' => ?_⟩
  · unfold Session.onBudget
    rw [hbudget, hbudget']
    rfl
  · change budget.spent + (response.inputTokens + response.outputTokens) =
      base.input + (ledger.inputTokens + response.inputTokens) +
        (base.output + (ledger.outputTokens + response.outputTokens))
    rw [hspent]
    omega
  · have hzero := htimed h'
    have hledger := h.timed h'
    have hinput : response.inputTokens = 0 := congrArg Spend.input hzero
    have houtput : response.outputTokens = 0 := congrArg Spend.output hzero
    refine ⟨?_, ?_⟩
    · change ledger.inputTokens + response.inputTokens = 0
      rw [hledger.1, hinput]
      rfl
    · change ledger.outputTokens + response.outputTokens = 0
      rw [hledger.2, houtput]
      rfl

theorem Metered.shed {ledger : MutableLedger} {s s' : Session (Wire κ)}
    (h : Metered usage cap provider timed fair sender base ledger s) (hworld : s'.world = s.world)
    (hbudget : s'.budget = s.budget ∨ ∃ requested served reason,
      s'.budget = s.budget.map fun budget => budget.recordShed requested served reason) :
    Metered usage cap provider timed fair sender base ledger s' := by
  refine ⟨hworld ▸ h.books, ?_, h.timed⟩
  obtain ⟨budget, hsome, hlimit, hspent⟩ := h.budget
  rcases hbudget with hsame | ⟨_, _, _, hshed⟩
  · exact ⟨budget, hsame.trans hsome, hlimit, hspent⟩
  · rw [hsome] at hshed
    exact ⟨_, hshed, hlimit, hspent⟩

theorem funded_call (husage : provider.Faithful usage) (model : String) :
    Effect.Triple (Funded usage cap provider timed (provider.Fair usage timed schema) sender base)
      (do
        let result ← Session.lift (provider.metered schema model)
        modify (Session.onBudget fun budget => budget.charge result.2)
        pure result.1)
      (fun _ s => ∃ ledger, Metered usage cap provider timed (provider.Fair usage timed schema)
        sender base ledger s)
      (Funded usage cap provider timed (provider.Fair usage timed schema) sender base) := by
  refine of_state fun s ⟨ledger, hsession, hbelow⟩ => ?_
  have hmetered := lift_triple (books_metered timed schema husage hbelow model) hsession.books
  refine bind (weaken hmetered (fun _ h => h) (fun _ _ h => h)
    fun s' h => ?_) fun result => ?_
  · exact ⟨ledger, ⟨h.1, h.2 ▸ hsession.budget, hsession.timed⟩, hbelow⟩
  · refine bind (Q := fun _ s => ∃ ledger, Metered usage cap provider timed
        (provider.Fair usage timed schema) sender base ledger s)
      (update fun s' h => ?_) fun _ => ret fun _ h => h
    exact ⟨_, hsession.charge h.1.1 h.1.2 h.2⟩

theorem funded_descend {α : Type} {call : ModelTier → Effect (Session (Wire κ)) Raised α}
    {I : Session (Wire κ) → Prop}
    (hcall : ∀ tier, Effect.Triple (Funded usage cap provider timed fair sender base) (call tier)
      (fun _ => I) (Funded usage cap provider timed fair sender base))
    (requested : ModelTier) (fuel : ℕ) (current : ModelTier) :
    Effect.Triple (Funded usage cap provider timed fair sender base)
      (ModelRouter.descend call requested fuel current) (fun _ => I)
      (Funded usage cap provider timed fair sender base) := by
  induction fuel generalizing current with
  | zero => exact raise fun _ h => h
  | succ fuel ih =>
    refine bind
      (Q := fun _ => Funded usage cap provider timed fair sender base)
      (update fun s h => ?_) fun _ => ?_
    · obtain ⟨ledger, hsession, hbelow⟩ := h
      exact ⟨ledger, ⟨hsession.books, hsession.budget, hsession.timed⟩, hbelow⟩
    · refine catching (hcall current) fun raised => ?_
      split_ifs
      · split
        · exact raise fun _ h => h
        · refine bind
            (Q := fun _ => Funded usage cap provider timed fair sender base)
            (update fun s h => ?_) fun _ => ih _
          obtain ⟨ledger, hsession, hbelow⟩ := h
          exact ⟨ledger, hsession.shed rfl (.inr ⟨_, _, _, rfl⟩), hbelow⟩
      · exact raise fun _ h => h

theorem ModelRouter.underPressure_budget (router : ModelRouter) (tier : ModelTier)
    (budget : Option RunBudget) :
    (router.underPressure tier budget).2 = budget ∨
      ∃ cheaper, (router.underPressure tier budget).2 =
        budget.map fun budget => budget.recordShed tier cheaper .budgetPressure := by
  cases budget with
  | none => exact .inl rfl
  | some budget =>
    rw [ModelRouter.underPressure]
    split_ifs
    · exact .inl rfl
    · exact .inl rfl
    · split
      · exact .inl rfl
      · exact .inr ⟨_, rfl⟩

theorem metered_structured (husage : provider.Faithful usage) (router : ModelRouter)
    (tier : ModelTier) :
    Effect.Triple
      (fun s => ∃ ledger, Metered usage cap provider timed (provider.Fair usage timed schema)
        sender base ledger s)
      (router.structured provider tier schema)
      (fun _ s => ∃ ledger, Metered usage cap provider timed (provider.Fair usage timed schema)
        sender base ledger s)
      (fun s => ∃ ledger, Metered usage cap provider timed (provider.Fair usage timed schema)
        sender base ledger s) := by
  refine of_state fun s ⟨ledger, hsession⟩ => read fun s' hs' => ?_
  subst hs'
  obtain ⟨budget, hbudget, hlimit, hspent⟩ := hsession.budget
  rw [hbudget]
  dsimp only [Option.elim]
  unfold RunBudget.check
  split_ifs with hexhausted
  · exact raise fun s h => h ▸ ⟨ledger, hsession⟩
  · dsimp only
    have hbelow : base.input + ledger.inputTokens + (base.output + ledger.outputTokens) <
        cap sender := by
      rw [← hlimit, ← hspent]
      exact Int.lt_of_not_ge fun hle => hexhausted (decide_eq_true hle)
    refine bind
      (Q := fun _ => Funded usage cap provider timed (provider.Fair usage timed schema) sender base)
      (update fun s h => ?_) fun _ => ?_
    · subst h
      rw [← hbudget]
      refine ⟨ledger, ?_, hbelow⟩
      rcases router.underPressure_budget tier s.budget with hsame | ⟨cheaper, hshed⟩
      · exact hsession.shed rfl (.inl hsame)
      · exact hsession.shed rfl (.inr ⟨_, _, _, hshed⟩)
    · refine weaken (funded_descend (fun tier => funded_call husage _) _ _ _)
        (fun _ h => h) (fun _ _ h => h) fun s h => ?_
      obtain ⟨ledger, hsession, _⟩ := h
      exact ⟨ledger, hsession⟩

end Calls

end OmniSense.Llm
