import OmniSense.Library.Greedy
import OmniSense.Llm.AnthropicProvider
import OmniSense.Llm.OpenAICompatible
import OmniSense.Llm.Router

/-! Which tiers a completion goes through when the endpoint is overloaded. The router reads the
class of the error and its status, and the providers fill them in differently. -/

namespace OmniSense.Llm

open Library List Effect

abbrev Outcomes := ℕ → Outcome

def asking {α : Type} (read : Outcome → Except Raised α) : Effect Outcomes Raised α :=
  ExceptT.mk fun outcomes => (read (outcomes 0), fun k => outcomes (k + 1))

def OpenAICompatibleProvider.completing (provider : OpenAICompatibleProvider) (_ : String) :
    Effect Outcomes Raised LLMResponse :=
  asking provider.complete

def AnthropicProvider.completing (provider : AnthropicProvider) (model : String) :
    Effect Outcomes Raised LLMResponse :=
  match provider.validatedModel (provider.orDefault model) with
  | .error raised => throw raised
  | .ok _ => asking (provider.complete model)

/-- A completion at `tier`: what it returns or raises, and the session it leaves. -/
def served (router : ModelRouter) (provider : String → Effect Outcomes Raised LLMResponse)
    (tier : ModelTier) (budget : Option RunBudget) (outcomes : Outcomes) :
    Except Raised LLMResponse × Session Outcomes :=
  (router.complete provider tier).exec ⟨budget, outcomes, []⟩

def ladderFrom : ModelTier → List ModelTier
  | .planner => [.planner, .worker, .fast]
  | .worker => [.worker, .fast]
  | .fast => [.fast]

def Outcome.hasStatus (outcome : Outcome) (statuses : List ℕ) : Prop :=
  ∃ answer, outcome = .answered answer ∧ answer.status ∈ statuses

theorem hasStatus_answered {answer : Answer} {statuses : List ℕ} :
    (Outcome.answered answer).hasStatus statuses ↔ answer.status ∈ statuses :=
  ⟨fun ⟨_, h, hmem⟩ => Outcome.answered.inj h ▸ hmem, fun h => ⟨answer, rfl, h⟩⟩

def Outcome.Overloaded (outcome : Outcome) : Prop :=
  outcome = .timedOut ∨ outcome.hasStatus overloadStatuses

/-- The outcomes whose error says so, over `OpenAICompatibleProvider`. -/
def Outcome.Told (outcome : Outcome) : Prop :=
  outcome = .timedOut ∨ outcome.hasStatus [429]

def Outcome.Untold (outcome : Outcome) : Prop :=
  outcome.hasStatus [500, 502, 503, 504, 529]

def ModelRouter.Calm (router : ModelRouter) (budget : Option RunBudget) : Prop :=
  ∀ b ∈ budget, b.exhausted = false ∧
    (router.pressureFraction ≤ 0 ∨ router.pressureFraction < b.remainingFraction)

/-- The model ids that an `AnthropicProvider` sends. -/
def AnthropicProvider.Accepts (provider : AnthropicProvider) (router : ModelRouter) : Prop :=
  ∀ tier, (provider.validatedModel (provider.orDefault (router.modelFor tier))).isOk = true

/-- What is asked of a completion that tried `after.tried` and gave `result`; `answer` reads an
outcome as its provider does. -/
structure Sheds (answer : Outcome → Except Raised LLMResponse) (tier : ModelTier)
    (budget : Option RunBudget) (outcomes : Outcomes) (result : Except Raised LLMResponse)
    (after : Session Outcomes) : Prop where
  order : after.tried <+: ladderFrom tier
  first : after.tried ≠ []
  moves : ∀ k < after.tried.length, k + 1 < (ladderFrom tier).length →
    (k + 1 < after.tried.length ↔ (outcomes k).Overloaded)
  earlier : ∀ k, k + 1 < after.tried.length → ∃ raised, answer (outcomes k) = .error raised
  last : ∀ k, k + 1 = after.tried.length → result = answer (outcomes k)
  events : after.budget.map RunBudget.shedEvents = budget.map fun b =>
    b.shedEvents ++ after.tried.tail.map fun served => ⟨tier, served, .overload⟩

/-! ## What the router makes of an error -/

variable {α β : Type}

def shedding : Except Raised α → Bool
  | .ok _ => false
  | .error raised => isOverload raised

theorem shedding_bind {x : Except Raised α} {f : α → Except Raised β}
    (hf : ∀ a, shedding (f a) = false) : shedding (x >>= f) = shedding x := by
  cases x with
  | ok a => exact hf a
  | error raised => rfl

theorem error_of_shedding {x : Except Raised α} (h : shedding x = true) :
    ∃ raised, x = .error raised := by
  cases x with
  | ok a => cases h
  | error raised => exact ⟨raised, rfl⟩

namespace OpenAICompatibleProvider

variable {provider : OpenAICompatibleProvider}

theorem shedding_payloadOf (text : String) : shedding (provider.payloadOf text) = false := by
  unfold payloadOf
  split
  · rfl
  · split <;> rfl
  · rfl

theorem shedding_mappingOr (fields : List (String × Json)) (key : String) :
    shedding (mappingOr fields key) = false := by
  unfold mappingOr
  split <;> rfl

theorem shedding_countOf (fields : List (String × Json)) (key : String) :
    shedding (provider.countOf fields key) = false := by
  unfold countOf
  split
  · rfl
  · split <;> rfl

theorem shedding_toResponse (payload : List (String × Json)) :
    shedding (provider.toResponse payload) = false := by
  unfold toResponse
  split
  · rfl
  · refine (shedding_bind fun message => ?_).trans (shedding_mappingOr _ _)
    refine (shedding_bind fun usage => ?_).trans (shedding_mappingOr _ _)
    refine (shedding_bind fun details => ?_).trans (shedding_mappingOr _ _)
    refine (shedding_bind fun inputTokens => ?_).trans (shedding_countOf _ _)
    refine (shedding_bind fun outputTokens => ?_).trans (shedding_countOf _ _)
    exact (shedding_bind fun cachedTokens => rfl).trans (shedding_countOf _ _)
  · rfl

theorem shedding_answered (answer : Answer) :
    shedding (provider.post (.answered answer)) = true ↔ answer.status = 429 := by
  rw [post]
  split_ifs with hkey hcredit hlimited
  · exact ⟨fun h => absurd h Bool.false_ne_true, fun h => by omega⟩
  · exact ⟨fun h => absurd h Bool.false_ne_true, fun h => by omega⟩
  · exact ⟨fun _ => hlimited, fun _ => rfl⟩
  · exact ⟨fun h => absurd h Bool.false_ne_true, fun h => absurd h hlimited⟩
  · exact ⟨fun h => absurd h Bool.false_ne_true, fun h => absurd h hlimited⟩
  · rw [shedding_payloadOf]
    exact ⟨fun h => absurd h Bool.false_ne_true, fun h => absurd h hlimited⟩

theorem shedding_complete (outcome : Outcome) :
    shedding (provider.complete outcome) = true ↔ outcome.Told := by
  unfold complete Outcome.Told
  rw [shedding_bind shedding_toResponse]
  cases outcome with
  | timedOut => exact ⟨fun _ => .inl rfl, fun _ => rfl⟩
  | failed error =>
    refine ⟨fun h => absurd h Bool.false_ne_true, fun h => ?_⟩
    rcases h with h | ⟨answer, h, _⟩
    · cases h
    · cases h
  | answered answer =>
    rw [shedding_answered, hasStatus_answered, mem_singleton]
    exact ⟨.inr, fun h => h.resolve_left nofun⟩

end OpenAICompatibleProvider

/-! ## Over the SDK -/

structure Documented (sdk : Outcome → Except SdkError Message) : Prop where
  timedOut : sdk .timedOut = .error .apiTimeoutError
  failed : ∀ error, ∃ name, sdk (.failed error) = .error (.apiConnectionError name)
  rateLimited : ∀ answer : Answer, answer.status = 429 →
    sdk (.answered answer) = .error .rateLimitError
  rejected : ∀ answer : Answer, answer.status ∈ [400, 401, 403, 404] →
    sdk (.answered answer) = .error (.rejected answer.status)
  refused : ∀ answer : Answer, 400 ≤ answer.status → answer.status ∉ [400, 401, 403, 404, 429] →
    sdk (.answered answer) = .error (.apiStatusError answer.status)
  answered : ∀ answer : Answer, answer.status < 400 →
    (∃ message, sdk (.answered answer) = .ok message) ∨
      (∃ name, sdk (.answered answer) = .error (.apiError name)) ∨
      sdk (.answered answer) = .error (.apiStatusError answer.status)

namespace AnthropicProvider

variable {provider : AnthropicProvider}

theorem isOverload_statusError (statusCode : ℕ) :
    isOverload (statusError statusCode) = true ↔
      statusCode ∈ overloadStatuses ∨ statusCode = 408 := by
  unfold statusError
  split_ifs with h
  · refine ⟨fun _ => ?_, fun _ => rfl⟩
    rcases mem_cons.1 h with rfl | h
    · exact .inr rfl
    · obtain rfl := mem_singleton.1 h
      exact .inl (by decide)
  · refine ⟨fun hover => .inl (of_decide_eq_true hover), fun hover => ?_⟩
    rcases hover with hmem | rfl
    · exact decide_eq_true hmem
    · exact absurd (mem_cons_self ..) h

theorem shedding_send (hsdk : Documented provider.sdk) (outcome : Outcome) :
    shedding (provider.send outcome) = true ↔
      outcome.Overloaded ∨ outcome.hasStatus [408] := by
  unfold send Outcome.Overloaded
  cases outcome with
  | timedOut =>
    rw [hsdk.timedOut]
    exact ⟨fun _ => .inl (.inl rfl), fun _ => rfl⟩
  | failed error =>
    obtain ⟨name, hname⟩ := hsdk.failed error
    rw [hname]
    refine ⟨fun h => absurd h Bool.false_ne_true, fun h => ?_⟩
    rcases h with (h | ⟨answer, h, _⟩) | ⟨answer, h, _⟩
    · cases h
    · cases h
    · cases h
  | answered answer =>
    rw [hasStatus_answered, hasStatus_answered, mem_singleton]
    refine Iff.trans ?_ (or_congr_left (or_iff_right nofun)).symm
    by_cases hlow : answer.status < 400
    · have hcalm : ¬ (answer.status ∈ overloadStatuses ∨ answer.status = 408) := by
        rintro (hmem | h)
        · have hhigh : ∀ status ∈ overloadStatuses, 400 ≤ status := by decide
          exact absurd (hhigh _ hmem) (by omega)
        · omega
      rcases hsdk.answered answer hlow with ⟨message, h⟩ | ⟨name, h⟩ | h
      · rw [h]
        exact ⟨fun h => absurd h Bool.false_ne_true, fun h => absurd h hcalm⟩
      · rw [h]
        exact ⟨fun h => absurd h Bool.false_ne_true, fun h => absurd h hcalm⟩
      · rw [h]
        exact isOverload_statusError _
    · by_cases hlimited : answer.status = 429
      · rw [hsdk.rateLimited answer hlimited]
        exact ⟨fun _ => .inl (hlimited ▸ mem_cons_self ..), fun _ => rfl⟩
      by_cases hrejected : answer.status ∈ [400, 401, 403, 404]
      · rw [hsdk.rejected answer hrejected]
        have hfatal : ∀ status ∈ [400, 401, 403, 404],
            status ∉ overloadStatuses ∧ status ≠ 408 := by decide
        exact ⟨fun h => .inl (of_decide_eq_true h), fun h => absurd h
          (not_or.2 (hfatal _ hrejected))⟩
      · rw [hsdk.refused answer (Nat.le_of_not_lt hlow) fun h => ?_]
        · exact isOverload_statusError _
        · rcases mem_append.1 (show answer.status ∈ [400, 401, 403, 404] ++ [429] from h)
            with h | h
          · exact hrejected h
          · exact hlimited (mem_singleton.1 h)

theorem shedding_complete {model resolved : String}
    (hmodel : provider.validatedModel (provider.orDefault model) = .ok resolved)
    (outcome : Outcome) :
    shedding (provider.complete model outcome) = shedding (provider.send outcome) := by
  unfold complete
  rw [hmodel]
  change shedding (provider.send outcome >>= fun message =>
    .ok (responseOf message resolved (textOf message))) = _
  exact shedding_bind fun _ => rfl

end AnthropicProvider

/-! ## The walk down the ladder -/

theorem ladderFrom_eq (tier : ModelTier) :
    ladderFrom tier = tier :: (shedLadder tier).elim [] ladderFrom := by
  cases tier <;> rfl

def Answers (call : ModelTier → Effect (Session Outcomes) Raised LLMResponse)
    (answer : ModelTier → Outcome → Except Raised LLMResponse) : Prop :=
  ∀ tier s, ((call tier).exec s).1 = answer tier (s.world 0) ∧
    ((call tier).exec s).2.world = (fun k => s.world (k + 1)) ∧
    ((call tier).exec s).2.tried = s.tried ∧
    ((call tier).exec s).2.budget.map RunBudget.shedEvents = s.budget.map RunBudget.shedEvents

structure Descends (answer : ModelTier → Outcome → Except Raised LLMResponse)
    (requested current : ModelTier) (s : Session Outcomes) (result : Except Raised LLMResponse)
    (after : Session Outcomes) : Prop where
  tried : after.tried = s.tried ++
    descent (fun k tier => shedding (answer tier (s.world k)) = true) (ladderFrom current)
  last : ∀ k tier, k + 1 =
      (descent (fun k tier => shedding (answer tier (s.world k)) = true)
        (ladderFrom current)).length →
    (ladderFrom current)[k]? = some tier → result = answer tier (s.world k)
  events : after.budget.map RunBudget.shedEvents = s.budget.map fun b =>
    b.shedEvents ++ (descent (fun k tier => shedding (answer tier (s.world k)) = true)
      (ladderFrom current)).tail.map fun served => ⟨requested, served, .overload⟩

variable {call : ModelTier → Effect (Session Outcomes) Raised LLMResponse}
  {answer : ModelTier → Outcome → Except Raised LLMResponse} {requested current : ModelTier}

theorem map_events_append (budget : Option RunBudget) (events : List ShedEvent) :
    (budget.map fun b => b.shedEvents ++ events) =
      (budget.map RunBudget.shedEvents).map (· ++ events) := by
  cases budget <;> rfl

theorem descent_stop {s : Session Outcomes}
    (h : shedding (answer current (s.world 0)) = false) :
    descent (fun k tier => shedding (answer tier (s.world k)) = true) (ladderFrom current) =
      [current] := by
  rw [ladderFrom_eq, descent_cons, if_neg (Bool.eq_false_iff.1 h)]

theorem descends_stop {s after : Session Outcomes} {result : Except Raised LLMResponse}
    (hstop : descent (fun k tier => shedding (answer tier (s.world k)) = true)
      (ladderFrom current) = [current])
    (htried : after.tried = s.tried ++ [current]) (hresult : result = answer current (s.world 0))
    (hevents : after.budget.map RunBudget.shedEvents = s.budget.map RunBudget.shedEvents) :
    Descends answer requested current s result after := by
  refine ⟨?_, fun k tier hk htier => ?_, ?_⟩
  · rw [hstop, htried]
  · rw [hstop, length_singleton] at hk
    obtain rfl : k = 0 := Nat.succ.inj hk
    rw [ladderFrom_eq] at htier
    obtain rfl : current = tier := Option.some.inj htier
    exact hresult
  · rw [hstop, hevents]
    simp only [tail_cons, map_nil, append_nil]

theorem descends_next {next : ModelTier} {s s' after : Session Outcomes}
    {result : Except Raised LLMResponse} (hnext : shedLadder current = some next)
    (hshed : shedding (answer current (s.world 0)) = true)
    (hworld : s'.world = fun k => s.world (k + 1)) (htried : s'.tried = s.tried ++ [current])
    (hevents : s'.budget.map RunBudget.shedEvents = s.budget.map fun b =>
      b.shedEvents ++ [⟨requested, next, .overload⟩])
    (h : Descends answer requested next s' result after) :
    Descends answer requested current s result after := by
  have hladder : ladderFrom current = current :: ladderFrom next := by
    rw [ladderFrom_eq, hnext]
    rfl
  have hdescent : descent (fun k tier => shedding (answer tier (s.world k)) = true)
      (ladderFrom current) = current ::
        descent (fun k tier => shedding (answer tier (s'.world k)) = true) (ladderFrom next) := by
    rw [hladder, descent_cons, if_pos hshed, hworld]
  refine ⟨?_, fun k tier hk htier => ?_, ?_⟩
  · rw [h.tried, hdescent, htried, append_assoc, singleton_append]
  · rw [hdescent, length_cons] at hk
    rw [hladder] at htier
    have hk' := Nat.succ.inj hk
    cases k with
    | zero =>
      have hne : descent (fun k tier => shedding (answer tier (s'.world k)) = true)
          (ladderFrom next) ≠ [] :=
        descent_ne_nil (by rw [ladderFrom_eq]; exact cons_ne_nil _ _)
      exact absurd (length_eq_zero_iff.1 hk'.symm) hne
    | succ k =>
      rw [h.last k tier hk' htier, hworld]
  · rw [h.events, hdescent, tail_cons, ladderFrom_eq next, descent_cons, tail_cons,
      map_cons]
    rw [map_events_append, hevents, Option.map_map]
    refine Option.map_congr fun b _ => ?_
    exact append_assoc _ _ _

theorem descends_descend (hcall : Answers call answer) {fuel : ℕ}
    (hfuel : (ladderFrom current).length ≤ fuel) (s : Session Outcomes) :
    Descends answer requested current s ((ModelRouter.descend call requested fuel current).exec s).1
      ((ModelRouter.descend call requested fuel current).exec s).2 := by
  induction fuel generalizing current s with
  | zero =>
    rw [ladderFrom_eq] at hfuel
    exact absurd hfuel (Nat.not_succ_le_zero _)
  | succ fuel ih =>
    unfold ModelRouter.descend
    rw [exec_bind, exec_modify]
    dsimp only
    rw [exec_tryCatch]
    obtain ⟨hresult, hworld, htried, hevents⟩ := hcall current (s.asked current)
    have hgives : shedding (answer current (s.world 0)) =
        shedding ((call current).exec (s.asked current)).1 := congrArg shedding hresult.symm
    rcases hrun : (call current).exec (s.asked current) with ⟨raised | response, s'⟩
    · rw [hrun] at hresult hworld htried hevents hgives
      dsimp only at hresult hworld htried hevents ⊢
      split_ifs with hover
      · have hshed : shedding (answer current (s.world 0)) = true := hgives.trans hover
        rcases hnext : shedLadder current with _ | next
        · refine descends_stop ?_ htried hresult hevents
          rw [ladderFrom_eq, hnext]
          exact congrArg _ (ite_self _)
        · rw [exec_bind, exec_modify]
          refine descends_next hnext hshed ?_ ?_ ?_ (ih ?_ _)
          · exact hworld
          · exact htried
          · rw [map_events_append, ← show s'.budget.map RunBudget.shedEvents =
              s.budget.map RunBudget.shedEvents from hevents, ← map_events_append]
            exact Option.map_map _ _ _
          · rw [ladderFrom_eq, hnext] at hfuel
            exact Nat.le_of_succ_le_succ hfuel
      · exact descends_stop (descent_stop (hgives.trans (Bool.eq_false_of_not_eq_true hover)))
          htried hresult hevents
    · rw [hrun] at hresult hworld htried hevents hgives
      exact descends_stop (descent_stop hgives) htried hresult hevents

variable {router : ModelRouter} {tier : ModelTier} {budget : Option RunBudget} {outcomes : Outcomes}
  {completing : String → Effect Outcomes Raised LLMResponse}

theorem calm_none : router.Calm none := fun _ h => nomatch h

theorem served_eq (hcalm : router.Calm budget) :
    served router completing tier budget outcomes =
      (ModelRouter.descend (fun tier => do
        let response ← Session.lift (completing (router.modelFor tier))
        modify (Session.onBudget fun budget => budget.charge response)
        pure response) tier 3 tier).exec ⟨budget, outcomes, []⟩ := by
  unfold served ModelRouter.complete ModelRouter.dispatch
  rw [exec_bind, exec_get]
  dsimp only
  have hcheck : budget.elim (.ok ()) RunBudget.check = .ok () := by
    cases budget with
    | none => rfl
    | some b =>
      change b.check = .ok ()
      unfold RunBudget.check
      rw [(hcalm b rfl).1]
      rfl
  have hpressure : router.underPressure tier budget = (tier, budget) := by
    cases budget with
    | none => rfl
    | some b =>
      unfold ModelRouter.underPressure
      rcases (hcalm b rfl).2 with h | h
      · exact if_pos h
      · simp only [if_pos h, ite_self]
  rw [hcheck, hpressure]
  rw [exec_bind, exec_modify]

theorem descends_served (hcalm : router.Calm budget)
    (hprovider : ∀ tier outcomes, (completing (router.modelFor tier)).exec outcomes =
      (answer tier (outcomes 0), fun k => outcomes (k + 1))) :
    Descends answer tier tier ⟨budget, outcomes, []⟩
      (served router completing tier budget outcomes).1
      (served router completing tier budget outcomes).2 := by
  rw [served_eq hcalm]
  refine descends_descend (fun tier s => ?_) (by cases tier <;> decide) _
  rw [exec_bind, Session.exec_lift, hprovider]
  rcases answer tier (s.world 0) with raised | response
  · exact ⟨rfl, rfl, rfl, rfl⟩
  · dsimp only
    rw [exec_bind, exec_modify]
    refine ⟨rfl, rfl, rfl, ?_⟩
    change (s.budget.map _).map RunBudget.shedEvents = _
    rw [Option.map_map]
    rfl

theorem overloaded_iff (outcome : Outcome) :
    outcome.Overloaded ↔ outcome.Told ∨ outcome.Untold := by
  unfold Outcome.Overloaded Outcome.Told Outcome.Untold
  rw [or_assoc]
  refine or_congr_right ⟨fun ⟨answer, h, hmem⟩ => ?_, fun h => ?_⟩
  · rcases mem_cons.1 hmem with hlimited | hmem
    · exact .inl ⟨answer, h, mem_singleton.2 hlimited⟩
    · exact .inr ⟨answer, h, hmem⟩
  · rcases h with ⟨answer, h, hmem⟩ | ⟨answer, h, hmem⟩
    · exact ⟨answer, h, mem_singleton.1 hmem ▸ mem_cons_self ..⟩
    · exact ⟨answer, h, mem_cons_of_mem _ hmem⟩

theorem hasStatus_disjoint {outcome : Outcome} {statuses others : List ℕ}
    (h : outcome.hasStatus statuses) (hother : outcome.hasStatus others)
    (hdisjoint : ∀ status ∈ statuses, status ∉ others) : False := by
  obtain ⟨answer, rfl, hmem⟩ := h
  exact hdisjoint _ hmem (hasStatus_answered.1 hother)

theorem not_told {outcome : Outcome} {statuses : List ℕ} (h : outcome.hasStatus statuses)
    (hlimited : 429 ∉ statuses) : ¬ outcome.Told := by
  rintro (rfl | htold)
  · obtain ⟨answer, h, _⟩ := h
    cases h
  · exact hasStatus_disjoint htold h fun status hmem =>
      mem_singleton.1 hmem ▸ hlimited

variable {provider : OpenAICompatibleProvider} {anthropic : AnthropicProvider}

/-! ## How far the walk goes -/

section Reach

variable {gives : Outcome → Prop} {result : Except Raised LLMResponse} {after : Session Outcomes}
  (h : Descends answer tier tier ⟨budget, outcomes, []⟩ result after)

include h

theorem Descends.tried_eq : after.tried =
    descent (fun k tier => shedding (answer tier (outcomes k)) = true) (ladderFrom tier) := by
  rw [h.tried, nil_append]

theorem Descends.tried_prefix : after.tried <+: ladderFrom tier := by
  rw [h.tried_eq]
  exact descent_prefix _

theorem Descends.lt_tried
    (hgives : ∀ tier outcome, shedding (answer tier outcome) = true ↔ gives outcome) {k : ℕ} :
    k < after.tried.length ↔ k < (ladderFrom tier).length ∧ ∀ j < k, gives (outcomes j) := by
  rw [h.tried_eq, lt_length_descent]
  refine and_congr_right fun hk => ⟨fun hall j hj => ?_, fun hall j hj tier _ => ?_⟩
  · exact (hgives _ _).1 (hall j hj _ (List.getElem?_eq_getElem (hj.trans hk)))
  · exact (hgives _ _).2 (hall j hj)

end Reach

theorem eq_of_prefix_of_length {α : Type} {l l' rungs : List α} (h : l <+: rungs)
    (h' : l' <+: rungs)
    (hlength : ∀ k, k < l.length ↔ k < l'.length) : l = l' := by
  have heq : l.length = l'.length :=
    Nat.le_antisymm (Nat.le_of_not_lt fun hlt => Nat.lt_irrefl _ ((hlength _).1 hlt))
      (Nat.le_of_not_lt fun hlt => Nat.lt_irrefl _ ((hlength _).2 hlt))
  rw [prefix_iff_eq_take.1 h, prefix_iff_eq_take.1 h', heq]

variable {result : Except Raised LLMResponse} {after : Session Outcomes}

theorem sheds_of_told
    (h : Descends (fun _ => provider.complete) tier tier ⟨budget, outcomes, []⟩ result after)
    (htold : ∀ k, k + 1 < (ladderFrom tier).length → (∀ j < k, (outcomes j).Told) →
      ¬ (outcomes k).Untold) :
    Sheds provider.complete tier budget outcomes result after := by
  have hlt {k : ℕ} := h.lt_tried (k := k) fun _ => OpenAICompatibleProvider.shedding_complete
  refine ⟨h.tried_prefix, fun hnil => ?_, fun k hk hnext => ⟨fun hmore => ?_, fun hover => ?_⟩,
    fun k hmore => ?_, fun k hk => ?_, ?_⟩
  · have hfirst : 0 < after.tried.length :=
      hlt.2 ⟨by cases tier <;> decide, fun j hj => absurd hj (Nat.not_lt_zero j)⟩
    rw [hnil] at hfirst
    exact Nat.lt_irrefl 0 hfirst
  · exact (overloaded_iff _).2 (.inl ((hlt.1 hmore).2 k k.lt_succ_self))
  · refine hlt.2 ⟨hnext, fun j hj => ?_⟩
    have hbefore := (hlt.1 hk).2
    rcases Nat.lt_or_eq_of_le (Nat.le_of_lt_succ hj) with hj | rfl
    · exact hbefore j hj
    · exact ((overloaded_iff _).1 hover).resolve_right (htold j hnext hbefore)
  · exact error_of_shedding (OpenAICompatibleProvider.shedding_complete _ |>.2
      ((hlt.1 hmore).2 k k.lt_succ_self))
  · have hrung : k < (ladderFrom tier).length := (hlt.1 (hk ▸ k.lt_succ_self)).1
    rw [h.tried_eq] at hk
    exact h.last k _ hk (List.getElem?_eq_getElem hrung)
  · rw [h.tried_eq]
    exact h.events

section Sdk

variable (hsdk : Documented anthropic.sdk) (haccepts : anthropic.Accepts router)

include haccepts

theorem AnthropicProvider.Accepts.resolved (tier : ModelTier) :
    ∃ resolved,
      anthropic.validatedModel (anthropic.orDefault (router.modelFor tier)) = .ok resolved := by
  have hok := haccepts tier
  rcases hvalid : anthropic.validatedModel (anthropic.orDefault (router.modelFor tier))
    with raised | resolved
  · rw [hvalid] at hok
    cases hok
  · exact ⟨resolved, rfl⟩

variable (tier outcomes) in
theorem descends_anthropic (hcalm : router.Calm budget) :
    Descends (fun tier => anthropic.complete (router.modelFor tier)) tier tier
      ⟨budget, outcomes, []⟩ (served router anthropic.completing tier budget outcomes).1
      (served router anthropic.completing tier budget outcomes).2 := by
  refine descends_served hcalm fun tier outcomes => ?_
  obtain ⟨resolved, hresolved⟩ := haccepts.resolved tier
  unfold AnthropicProvider.completing
  rw [hresolved]
  rfl

include hsdk

theorem shedding_anthropic (tier : ModelTier) (outcome : Outcome) :
    shedding (anthropic.complete (router.modelFor tier) outcome) = true ↔
      outcome.Overloaded ∨ outcome.hasStatus [408] := by
  obtain ⟨resolved, hresolved⟩ := haccepts.resolved tier
  rw [AnthropicProvider.shedding_complete hresolved, AnthropicProvider.shedding_send hsdk]

end Sdk

/-- Tiers are shed as asked, and as over Anthropic's SDK, just when above the fast tier no 5xx of
the overload set ends the walk, nor a 408 that Anthropic's provider would take for a timeout. -/
theorem sheds_iff (hsdk : Documented anthropic.sdk) (hcalm : router.Calm budget) :
    (Sheds provider.complete tier budget outcomes
        (served router provider.completing tier budget outcomes).1
        (served router provider.completing tier budget outcomes).2 ∧
      (anthropic.Accepts router →
        (served router provider.completing tier budget outcomes).2.tried =
          (served router anthropic.completing tier budget outcomes).2.tried)) ↔
    ∀ k, k + 1 < (ladderFrom tier).length → (∀ j < k, (outcomes j).Told) →
      ¬ (outcomes k).Untold ∧ (anthropic.Accepts router → ¬ (outcomes k).hasStatus [408]) := by
  have hours : Descends (fun _ => provider.complete) tier tier ⟨budget, outcomes, []⟩
      (served router provider.completing tier budget outcomes).1
      (served router provider.completing tier budget outcomes).2 :=
    descends_served hcalm fun _ _ => rfl
  have hlt {k : ℕ} := hours.lt_tried (k := k) fun _ => OpenAICompatibleProvider.shedding_complete
  constructor
  · rintro ⟨hsheds, hagrees⟩ k hnext hbefore
    have htried : k < (served router provider.completing tier budget outcomes).2.tried.length :=
      hlt.2 ⟨Nat.lt_of_succ_lt hnext, hbefore⟩
    refine ⟨fun huntold => ?_, fun haccepts hlate => ?_⟩
    · have hmore := (hsheds.moves k htried hnext).2 ((overloaded_iff _).2 (.inr huntold))
      exact not_told huntold (by decide) ((hlt.1 hmore).2 k k.lt_succ_self)
    · have htheirs := (descends_anthropic tier outcomes haccepts hcalm).lt_tried (k := k + 1)
        (shedding_anthropic hsdk haccepts)
      rw [← hagrees haccepts] at htheirs
      have hmore := htheirs.2 ⟨hnext, fun j hj => ?_⟩
      · exact not_told hlate (by decide) ((hlt.1 hmore).2 k k.lt_succ_self)
      · rcases Nat.lt_or_eq_of_le (Nat.le_of_lt_succ hj) with hj | rfl
        · exact .inl ((overloaded_iff _).2 (.inl (hbefore j hj)))
        · exact .inr hlate
  · intro hall
    refine ⟨sheds_of_told hours fun k hnext hbefore => (hall k hnext hbefore).1,
      fun haccepts => ?_⟩
    have htheirs := descends_anthropic tier outcomes haccepts hcalm
    refine eq_of_prefix_of_length hours.tried_prefix htheirs.tried_prefix fun k => ?_
    rw [hlt, htheirs.lt_tried (shedding_anthropic hsdk haccepts)]
    refine and_congr_right fun hk => ⟨fun htold j hj => .inl ((overloaded_iff _).2 (.inl
      (htold j hj))), fun hgives j hj => ?_⟩
    -- The first outcome that only Anthropic's provider goes on at is ruled out.
    induction j using Nat.strong_induction_on with
    | _ j ih =>
      have hrung : j + 1 < (ladderFrom tier).length := Nat.lt_of_le_of_lt hj hk
      have hmissed := hall j hrung fun i hi => ih i hi (hi.trans hj)
      rcases hgives j hj with hover | hlate
      · exact ((overloaded_iff _).1 hover).resolve_right hmissed.1
      · exact absurd hlate (hmissed.2 haccepts)

def sdkOfStatus : Outcome → Except SdkError Message
  | .timedOut => .error .apiTimeoutError
  | .failed error => .error (.apiConnectionError error)
  | .answered answer =>
    if answer.status < 400 then .ok ⟨[⟨"text", answer.text⟩], "", ⟨0, 0, none, none⟩, none⟩
    else if answer.status = 429 then .error .rateLimitError
    else if answer.status ∈ [400, 401, 403, 404] then .error (.rejected answer.status)
    else .error (.apiStatusError answer.status)

theorem documented_sdkOfStatus : Documented sdkOfStatus where
  timedOut := rfl
  failed := fun error => ⟨error, rfl⟩
  rateLimited := fun answer h => by
    rw [sdkOfStatus, if_neg (by omega), if_pos h]
  rejected := fun answer h => by
    have hrange : ∀ status ∈ [400, 401, 403, 404], ¬ status < 400 ∧ status ≠ 429 := by decide
    rw [sdkOfStatus, if_neg (hrange _ h).1, if_neg (hrange _ h).2, if_pos h]
  refused := fun answer hhigh h => by
    have hlimited : answer.status ≠ 429 := fun heq => h (by rw [heq]; decide)
    have hrejected : answer.status ∉ [400, 401, 403, 404] :=
      fun hmem => h (mem_append_left [429] hmem)
    rw [sdkOfStatus, if_neg (Nat.not_lt_of_le hhigh), if_neg hlimited, if_neg hrejected]
  answered := fun answer h => .inl ⟨_, if_pos h⟩

def endpoint : OpenAICompatibleProvider :=
  ⟨⟨fun _ => none, fun _ => "", fun _ => none, id⟩, "", "m", "60"⟩

def messages : AnthropicProvider where
  sdk := sdkOfStatus
  parse := fun _ outcome => ((sdkOfStatus outcome).mapError .sdk).map fun message => (message, none)
  repr := id
  defaultModel := "m"
  timeoutSeconds := "60"
  maxRetries := "0"

def tiers : ModelRouter := ⟨fun _ => "m", 0⟩

def congested : Outcomes := fun k => if k = 0 then .timedOut else .answered ⟨429, none, ""⟩

theorem congested_sheds :
    Sheds endpoint.complete .planner none congested
        (served tiers endpoint.completing .planner none congested).1
        (served tiers endpoint.completing .planner none congested).2 ∧
      (messages.Accepts tiers →
        (served tiers endpoint.completing .planner none congested).2.tried =
          (served tiers messages.completing .planner none congested).2.tried) := by
  refine (sheds_iff documented_sdkOfStatus calm_none).2 fun k _ _ => ?_
  have htold : (congested k).Told := by
    unfold congested
    split_ifs
    · exact .inl rfl
    · exact .inr (hasStatus_answered.2 (mem_singleton.2 rfl))
  exact ⟨fun h => not_told h (by decide) htold, fun _ h => not_told h (by decide) htold⟩

/-- The planner is answered 503: the router stops there. -/
theorem unavailable_stops : Documented messages.sdk ∧ tiers.Calm none ∧
    ¬ Sheds endpoint.complete .planner none (fun _ => .answered ⟨503, none, ""⟩)
      (served tiers endpoint.completing .planner none fun _ => .answered ⟨503, none, ""⟩).1
      (served tiers endpoint.completing .planner none fun _ => .answered ⟨503, none, ""⟩).2 := by
  refine ⟨documented_sdkOfStatus, calm_none, fun h => ?_⟩
  have htried : (served tiers endpoint.completing .planner none
      fun _ => .answered ⟨503, none, ""⟩).2.tried = [.planner] := by decide
  have hmore := (h.moves 0 (by rw [htried]; exact Nat.one_pos) (by decide)).2
    (.inr (hasStatus_answered.2 (by decide)))
  rw [htried] at hmore
  exact Nat.lt_irrefl 1 hmore

end OmniSense.Llm
