import OmniSense.Library.Runs
import OmniSense.Tools.Outside

/-! What a server's words change of its results: nothing outside the fences, as long as its
exceptions are timeouts. -/

namespace OmniSense.Tools

open Agents Library List

/-! ## Behaviours that differ in the server's words -/

inductive Failure.Alike : Failure → Failure → Prop
  | timeout (message message' : List Char) : Alike (.timeout message) (.timeout message')
  | raised (type : ExceptionType) (message message' : List Char) :
    Alike (.raised type message) (.raised type message')

structure MCPCallOutcome.Alike (o o' : MCPCallOutcome) : Prop where
  isError : o'.isError = o.isError
  uris : o'.blocks.map MCPContentBlock.uri = o.blocks.map MCPContentBlock.uri

inductive Behaviour.Alike {ρ : Type*} (R : ρ → ρ → Prop) : Behaviour ρ → Behaviour ρ → Prop
  | replied {reply reply' : ρ} (h : R reply reply') : Alike R (.replied reply) (.replied reply')
  | failed {f f' : Failure} (h : f.Alike f') : Alike R (.failed f) (.failed f')
  | aborted : Alike R .aborted .aborted

/-- A request to a server, for an exposed tool or for its list of tools, and what came of it. -/
inductive Event
  | call (server : MCPServerDef) (tool : String) (exposed : tool ∈ server.exposes)
    (started ended : ℚ) (behaviour : Behaviour MCPCallOutcome)
  | discover (server : MCPServerDef) (started ended : ℚ) (behaviour : Behaviour Unit)

inductive Event.Alike : Event → Event → Prop
  | call {server : MCPServerDef} {tool : String} {exposed : tool ∈ server.exposes}
    {started ended : ℚ} {b b' : Behaviour MCPCallOutcome} (h : b.Alike MCPCallOutcome.Alike b') :
    Alike (.call server tool exposed started ended b) (.call server tool exposed started ended b')
  | discover {server : MCPServerDef} {started ended : ℚ} {b b' : Behaviour Unit}
    (h : b.Alike Eq b') :
    Alike (.discover server started ended b) (.discover server started ended b')

namespace Event

def server : Event → MCPServerDef
  | .call server _ _ _ _ _ => server
  | .discover server _ _ _ => server

def started : Event → ℚ
  | .call _ _ _ started _ _ => started
  | .discover _ started _ _ => started

def failure : Event → Option Failure
  | .call _ _ _ _ _ (.failed f) => some f
  | .discover _ _ _ (.failed f) => some f
  | _ => none

def toolName : Event → Option String
  | .call server tool _ _ _ _ => mcpToolName server.name tool
  | .discover _ _ _ _ => none

end Event

section

variable (lower : List Char → List Char) (client : MCPClient)

def MCPClient.perform (health : Health) : Event → Option MCPToolResult × Health
  | .call server tool _ started ended b => client.call lower health server tool started ended b
  | .discover server started ended b => (none, client.discoverOne health server started ended b)

def MCPClient.step (health : Health) (e : Event) : Option Health :=
  some (client.perform lower health e).2

/-- Every status as `ServerStatus(name=..)` makes it. -/
def newHealth : Health := fun _ => {}

variable (isPrintable : Char → Bool)

/-- Each result of the run, rendered for any agent, has the fences of its own spans only; and what
is outside of them is the same in every run that differs in the server's words only. -/
def StaysInside (run : List Event) : Prop :=
  ∀ before e later health r name agent, run = before ++ e :: later →
    runs (client.step lower) newHealth before = some health →
    (client.perform lower health e).1 = some r → e.toolName = some name →
    ∃ out, (ToolResult.mk name agent r).renderForPrompt isPrintable = .ok out ∧
      readDataBlock out = some (r.blocks.map UntrustedText.view) ∧
      ∀ before' e', List.Forall₂ Event.Alike before before' → e.Alike e' →
        ∃ health' r' out', runs (client.step lower) newHealth before' = some health' ∧
          (client.perform lower health' e').1 = some r' ∧
          (ToolResult.mk name agent r').renderForPrompt isPrintable = .ok out' ∧
          outsideText out' = outsideText out

def Failure.Quiet : Failure → Prop
  | .timeout _ => True
  | .raised type _ => MAX_REASON_CHARS ≤ type.name.length

def Quiet (health : Health) (e : Event) : Prop :=
  (health e.server.name).isOpen e.started = false → ∀ f ∈ e.failure, f.Quiet

def QuietCall (health : Health) (e : Event) : Prop := e.toolName.isSome → Quiet health e

end

/-! ## Reasons -/

variable {f f' : Failure}

variable (type : ExceptionType) (message : List Char) {server : MCPServerDef} {tool : String}
    {name : String}

theorem identifier_plain : '<' ∉ type.name := by
  intro hmem
  have hchar := all_eq_true.mp type.identifier '<' hmem
  exact absurd hchar (by decide)

theorem describe_raised : ∃ rest, describe (.raised type message) = type.name ++ rest := by
  unfold describe
  dsimp only
  split_ifs
  · exact ⟨[], (append_nil _).symm⟩
  · exact ⟨_, rfl⟩

theorem take_describe_raised {type : ExceptionType} (h : MAX_REASON_CHARS ≤ type.name.length) :
    (describe (.raised type message)).take MAX_REASON_CHARS = type.name.take MAX_REASON_CHARS := by
  obtain ⟨rest, hrest⟩ := describe_raised type message
  rw [hrest, take_append_of_le_length h]

theorem take_describe_alike (h : f.Alike f') (hq : f.Quiet) :
    (describe f').take MAX_REASON_CHARS = (describe f).take MAX_REASON_CHARS := by
  cases h with
  | timeout message message' => rfl
  | raised type message message' =>
    rw [take_describe_raised message hq, take_describe_raised message' hq]

theorem take_describe_plain (hq : f.Quiet) : '<' ∉ (describe f).take MAX_REASON_CHARS := by
  cases f with
  | timeout message =>
    have htext : '<' ∉ "timed out".toList.take MAX_REASON_CHARS := by decide
    exact htext
  | raised type message =>
    rw [take_describe_raised message hq]
    exact fun hmem => identifier_plain type (mem_of_mem_take hmem)

theorem trim_plain {text : List Char} (h : '<' ∉ text) : '<' ∉ trim text := fun hmem =>
  h (List.IsInfix.subset (trim_inside text) hmem)

theorem cooldownReason_plain {s : ServerStatus} (h : '<' ∉ s.lastError) :
    '<' ∉ cooldownReason s := by
  have htexts : '<' ∉ "server is in cooldown after ".toList ∧
      '<' ∉ " consecutive failures (last: ".toList ∧ '<' ∉ [')'] := by decide
  have hcount := less_not_mem_nat s.consecutiveFailures
  unfold cooldownReason
  simp only [mem_append, htexts.1, hcount, htexts.2.1, h, htexts.2.2, or_self,
    not_false_eq_true]

/-! ## One request -/

variable {lower : List Char → List Char} {client : MCPClient} {health : Health} {e e' : Event}
  {r : MCPToolResult}

def Clean (health : Health) : Prop := ∀ name, '<' ∉ (health name).lastError

theorem clean_update {s : ServerStatus} (h : Clean health)
    (hs : '<' ∉ s.lastError) : Clean (Function.update health name s) := by
  intro other
  rcases eq_or_ne other name with rfl | hne
  · rw [Function.update_self]
    exact hs
  · rw [Function.update_of_ne hne]
    exact h other

theorem recordFailure_lastError (s : ServerStatus) (reason : List Char) (now : ℚ) (threshold : ℕ)
    (cooldown : ℚ) :
    (s.recordFailure reason now threshold cooldown).lastError = reason.take MAX_REASON_CHARS := by
  unfold ServerStatus.recordFailure
  dsimp only
  split_ifs <;> rfl

theorem fail_clean {ended : ℚ} (h : Clean health) (hq : f.Quiet) :
    Clean (client.fail health server f ended) := by
  refine clean_update h ?_
  rw [recordFailure_lastError]
  exact take_describe_plain hq

theorem fail_alike {ended : ℚ} (hq : f.Quiet) (h : f.Alike f') :
    client.fail health server f' ended = client.fail health server f ended := by
  unfold MCPClient.fail ServerStatus.recordFailure
  rw [take_describe_alike h hq]

structure MCPToolResult.Alike (r r' : MCPToolResult) : Prop where
  truncated : r'.truncated = r.truncated
  dropped : r'.dropped = r.dropped
  server : r'.server = r.server
  tool : r'.tool = r.tool
  isError : r'.isError = r.isError
  degraded : r'.degraded = r.degraded
  unavailableReason : r'.unavailableReason = r.unavailableReason
  refs : r'.blocks.map UntrustedText.ref = r.blocks.map UntrustedText.ref

theorem MCPToolResult.Alike.refl (r : MCPToolResult) : r.Alike r :=
  ⟨rfl, rfl, rfl, rfl, rfl, rfl, rfl, rfl⟩

theorem toResult_alike {o o' : MCPCallOutcome}
    (h : o.Alike o') : (toResult lower server tool o).Alike (toResult lower server tool o') := by
  have hlength : o'.blocks.length = o.blocks.length := by
    have hmaps := congrArg List.length h.uris
    rw [length_map, length_map] at hmaps
    exact hmaps
  have huris : (o'.blocks.take MAX_BLOCKS).map MCPContentBlock.uri =
      (o.blocks.take MAX_BLOCKS).map MCPContentBlock.uri := by
    rw [map_take, map_take, h.uris]
  have hrefs : ∀ blocks : List MCPContentBlock,
      (blocks.mapIdx fun index block => captureBlock lower server tool block index).map
          UntrustedText.ref =
        (blocks.map MCPContentBlock.uri).mapIdx fun index uri =>
          cleanAttribute (uri.getD (tool.toList ++ '#' :: (toString index).toList)) := by
    intro blocks
    refine ext_getElem? fun i => ?_
    rw [List.getElem?_map, List.getElem?_mapIdx, List.getElem?_mapIdx, List.getElem?_map,
      Option.map_map, Option.map_map]
    rfl
  have htruncated : decide ((o'.blocks.take MAX_BLOCKS).length < o'.blocks.length) =
      decide ((o.blocks.take MAX_BLOCKS).length < o.blocks.length) := by
    rw [length_take, length_take, hlength]
  have hdropped : o'.blocks.length - (o'.blocks.take MAX_BLOCKS).length =
      o.blocks.length - (o.blocks.take MAX_BLOCKS).length := by
    rw [length_take, length_take, hlength]
  refine ⟨htruncated, hdropped, rfl, rfl, h.isError, rfl, rfl, ?_⟩
  exact (hrefs _).trans ((congrArg _ huris).trans (hrefs _).symm)

theorem degraded_alike {reason reason' : List Char}
    (h : reason'.take MAX_REASON_CHARS = reason.take MAX_REASON_CHARS) :
    (degraded server tool reason).Alike (degraded server tool reason') :=
  ⟨rfl, rfl, rfl, rfl, rfl, rfl, congrArg trim h, rfl⟩

theorem call_open {started ended : ℚ}
    {b : Behaviour MCPCallOutcome} (h : (health server.name).isOpen started = true) :
    client.call lower health server tool started ended b =
      (some (degraded server tool (cooldownReason (health server.name))), health) := by
  exact if_pos h

theorem discoverOne_open {started ended : ℚ} {b : Behaviour Unit}
    (h : (health server.name).isOpen started = true) :
    client.discoverOne health server started ended b = health := by
  exact if_pos h

theorem perform_alike (hq : Quiet health e) (h : e.Alike e') :
    (client.perform lower health e').2 = (client.perform lower health e).2 ∧
      ∀ r, (client.perform lower health e).1 = some r →
        ∃ r', (client.perform lower health e').1 = some r' ∧ r.Alike r' := by
  cases h with
  | @call server tool exposed started ended b b' h =>
    unfold MCPClient.perform
    dsimp only
    cases hopen : (health server.name).isOpen started with
    | true =>
      rw [call_open hopen, call_open hopen]
      exact ⟨rfl, fun r hr => ⟨r, hr, .refl r⟩⟩
    | false =>
      unfold MCPClient.call
      rw [if_neg (Bool.eq_false_iff.mp hopen), if_neg (Bool.eq_false_iff.mp hopen)]
      cases h with
      | replied halike =>
        refine ⟨rfl, fun r hr => ⟨_, rfl, ?_⟩⟩
        cases hr
        exact toResult_alike halike
      | @failed f f' halike =>
        have hf : f.Quiet := hq hopen f rfl
        refine ⟨fail_alike hf halike, fun r hr => ⟨_, rfl, ?_⟩⟩
        cases hr
        exact degraded_alike (take_describe_alike halike hf)
      | aborted => exact ⟨rfl, fun r hr => absurd hr nofun⟩
  | @discover server started ended b b' h =>
    refine ⟨?_, fun r hr => absurd hr nofun⟩
    unfold MCPClient.perform
    dsimp only
    cases hopen : (health server.name).isOpen started with
    | true => rw [discoverOne_open hopen, discoverOne_open hopen]
    | false =>
      unfold MCPClient.discoverOne
      rw [if_neg (Bool.eq_false_iff.mp hopen), if_neg (Bool.eq_false_iff.mp hopen)]
      cases h with
      | replied | aborted => rfl
      | @failed f f' halike => exact fail_alike (hq hopen f rfl) halike

theorem perform_clean (hclean : Clean health) (hq : Quiet health e) :
    Clean (client.perform lower health e).2 := by
  cases e with
  | call server tool exposed started ended b =>
    unfold MCPClient.perform
    dsimp only
    cases hopen : (health server.name).isOpen started with
    | true =>
      rw [call_open hopen]
      exact hclean
    | false =>
      unfold MCPClient.call
      rw [if_neg (Bool.eq_false_iff.mp hopen)]
      have hcounted : Clean (Function.update health server.name
          { health server.name with calls := (health server.name).calls + 1 }) :=
        clean_update hclean (hclean server.name)
      cases b with
      | replied outcome => exact clean_update hcounted not_mem_nil
      | failed f => exact fail_clean hcounted (hq hopen f rfl)
      | aborted => exact hcounted
  | discover server started ended b =>
    unfold MCPClient.perform
    dsimp only
    cases hopen : (health server.name).isOpen started with
    | true =>
      rw [discoverOne_open hopen]
      exact hclean
    | false =>
      unfold MCPClient.discoverOne
      rw [if_neg (Bool.eq_false_iff.mp hopen)]
      cases b with
      | replied reply => exact clean_update hclean not_mem_nil
      | failed f => exact fail_clean hclean (hq hopen f rfl)
      | aborted => exact hclean

/-! ## Names -/

theorem server_plain (server : MCPServerDef) : '<' ∉ server.name.toList := by
  have hname : isServerName server.name = true := (of_decide_eq_true server.valid).1
  intro hmem
  exact absurd ((isServerName_name hname).1.chars '<' hmem) (by decide)

theorem tool_plain (h : tool ∈ server.exposes) : '<' ∉ tool.toList := by
  have hname : isToolName tool = true := (of_decide_eq_true server.valid).2.1 tool h
  intro hmem
  exact absurd ((isToolName_name hname).chars '<' hmem) (by decide)

theorem toolName_plain (h : e.toolName = some name) : '<' ∉ name.toList := by
  cases e with
  | call server tool exposed started ended b =>
    obtain ⟨_, hname⟩ := Option.ite_none_left_eq_some.mp h
    cases hname
    have hpieces : '<' ∉ mcpPrefix.toList ∧ '<' ∉ ":".toList := by decide
    simp only [String.toList_append, mem_append, hpieces.1, hpieces.2, server_plain server,
      tool_plain exposed, or_self, not_false_eq_true]
  | discover server started ended b => cases h

theorem perform_plain (agent : AgentName) (hclean : Clean health)
    (hq : Quiet health e) (hr : (client.perform lower health e).1 = some r)
    (hname : e.toolName = some name) : IsPlain ⟨name, agent, r⟩ := by
  cases e with
  | discover server started ended b => cases hr
  | call server tool exposed started ended b =>
    have hdegraded : ∀ reason : List Char, '<' ∉ reason.take MAX_REASON_CHARS →
        IsPlain ⟨name, agent, degraded server tool reason⟩ := fun reason hreason =>
      ⟨toolName_plain hname, trim_plain (server_plain server), trim_plain (tool_plain exposed),
        trim_plain hreason⟩
    unfold MCPClient.perform at hr
    dsimp only at hr
    cases hopen : (health server.name).isOpen started with
    | true =>
      rw [call_open hopen] at hr
      cases hr
      refine hdegraded _ fun hmem => ?_
      exact cooldownReason_plain (hclean server.name) (mem_of_mem_take hmem)
    | false =>
      unfold MCPClient.call at hr
      rw [if_neg (Bool.eq_false_iff.mp hopen)] at hr
      cases b with
      | replied outcome =>
        cases hr
        exact ⟨toolName_plain hname, trim_plain (server_plain server),
          trim_plain (tool_plain exposed), not_mem_nil⟩
      | failed f =>
        cases hr
        exact hdegraded _ (take_describe_plain (hq hopen f rfl))
      | aborted => cases hr

/-! ## Runs -/

variable {isPrintable : Char → Bool} {run before before' : List Event}

theorem outside_alike {agent : AgentName} {r' : MCPToolResult} (h : r.Alike r') :
    (ToolResult.mk name agent r').outside isPrintable =
      (ToolResult.mk name agent r).outside isPrintable := by
  have hlength : r'.blocks.length = r.blocks.length := by
    have hmaps := congrArg List.length h.refs
    rw [length_map, length_map] at hmaps
    exact hmaps
  have hempty : r'.blocks = [] ↔ r.blocks = [] := by
    rw [← length_eq_zero_iff, hlength, length_eq_zero_iff]
  have hreferences : r'.blocks.map (fenceReference isPrintable) =
      r.blocks.map (fenceReference isPrintable) := by
    have hmaps := congrArg (List.map fun ref : List Char =>
      "<see fenced data ref=".toList ++ (reprText isPrintable ref ++ ['>'])) h.refs
    rw [map_map, map_map] at hmaps
    exact hmaps
  have hfields : redactedFields isPrintable r' = redactedFields isPrintable r := by
    unfold redactedFields
    rw [hreferences, h.degraded, h.dropped, h.isError, h.server, h.tool, h.truncated,
      h.unavailableReason]
  unfold ToolResult.outside ToolResult.front ToolResult.header skeleton
  simp only [hfields, h.truncated, hlength, hempty]

theorem step_keeps (hclean : Clean health) (hq : Quiet health e) {health' : Health}
    (h : client.step lower health e = some health') : Clean health' := by
  cases h
  exact perform_clean hclean hq

/-- **Quiet runs leak nothing.** -/
theorem staysInside_of_quiet (h : Along (client.step lower) Quiet newHealth run) :
    StaysInside lower client isPrintable run := by
  intro before e later health r name agent hrun hbefore hr hname
  have hq : Quiet health e := along_iff.mp h before e later health hrun hbefore
  have hall : Along (client.step lower) Quiet newHealth before := by
    rw [hrun] at h
    exact along_left h
  have hfresh : Clean newHealth := fun _ => not_mem_nil
  have hclean : Clean health :=
    runs_keeps (fun _ _ _ hI hC hs => step_keeps hI hC hs) hfresh hall hbefore
  have hplain : IsPlain ⟨name, agent, r⟩ := perform_plain agent hclean hq hr hname
  obtain ⟨out, hout, hread, houtside⟩ := @render_plain isPrintable _ hplain
  refine ⟨out, hout, hread, fun before' e' halike he => ?_⟩
  -- The other run comes to the same state, in which the other request is no louder.
  have hsame : runs (client.step lower) newHealth before' = some health := by
    rw [← hbefore]
    refine runs_alike (fun s e e' _ hC hR => ?_) (fun _ _ _ hI hC hs => step_keeps hI hC hs) hfresh
      hall halike
    exact congrArg some (perform_alike hC hR).1
  obtain ⟨r', hr', hresults⟩ := (perform_alike hq he).2 r hr
  have hplain' : IsPlain ⟨name, agent, r'⟩ := by
    refine ⟨hplain.name, ?_, ?_, ?_⟩
    · exact hresults.server ▸ hplain.server
    · exact hresults.tool ▸ hplain.tool
    · exact hresults.unavailableReason ▸ hplain.reason
  obtain ⟨out', hout', _, houtside'⟩ := @render_plain isPrintable _ hplain'
  refine ⟨health, r', out', hsame, hr', hout', ?_⟩
  rw [houtside', houtside]
  exact outside_alike hresults

/-! ## What leaks -/

theorem identifier_white : ∀ c ∈ type.name, isWhite c = false := by
  intro c hc
  have hchar := all_eq_true.mp type.identifier c hc
  have hspace : isSpace c = false := by
    rw [isNameChar, Bool.and_eq_true, Bool.not_eq_true'] at hchar
    exact hchar.2
  rw [isWhite, hspace, Bool.false_and]

theorem trim_append {text rest : List Char} (h : ∀ c ∈ text, isWhite c = false) (hne : text ≠ []) :
    ∃ rest', trim (text ++ rest) = text ++ rest' := by
  have hkept : ∀ {l : List Char}, l ≠ [] → (∀ c ∈ l, isWhite c = false) → ∀ l' : List Char,
      (l ++ l').dropWhile isWhite = l ++ l' := by
    intro l hl hall l'
    cases l with
    | nil => exact absurd rfl hl
    | cons c l =>
      rw [cons_append, dropWhile_cons_of_neg]
      exact Bool.eq_false_iff.mp (hall c mem_cons_self)
  have hback : ∀ c ∈ text.reverse, isWhite c = false := fun c hc => h c (mem_reverse.mp hc)
  have hself := hkept (mt reverse_eq_nil_iff.mp hne) hback []
  rw [append_nil] at hself
  unfold trim
  rw [hkept hne h, reverse_append, dropWhile_append]
  split_ifs
  · rw [hself, reverse_reverse]
    exact ⟨[], (append_nil text).symm⟩
  · rw [reverse_append, reverse_reverse]
    exact ⟨_, rfl⟩

theorem trim_self {text : List Char} (h : ∀ c ∈ text, isWhite c = false) : trim text = text := by
  rcases eq_or_ne text [] with rfl | hne
  · rfl
  · obtain ⟨rest, hrest⟩ := @trim_append text [] h hne
    rw [append_nil] at hrest
    have hlength : (trim text).length ≤ text.length := (trim_inside text).length_le
    rw [hrest, length_append] at hlength
    have hnil : rest = [] := length_eq_zero_iff.mp (by omega)
    rw [hrest, hnil, append_nil]

def shownReason (f : Failure) : List Char := trim ((describe f).take MAX_REASON_CHARS)

theorem shownReason_blank {type : ExceptionType} {message : List Char}
    (h : (flatten message).take 160 = []) (hshort : type.name.length < MAX_REASON_CHARS) :
    shownReason (.raised type message) = type.name := by
  unfold shownReason describe
  dsimp only
  rw [if_pos h, take_of_length_le hshort.le]
  exact trim_self (identifier_white type)

theorem shownReason_message {type : ExceptionType} {message : List Char}
    (h : (flatten message).take 160 ≠ []) (hshort : type.name.length < MAX_REASON_CHARS) :
    ∃ rest, shownReason (.raised type message) = type.name ++ ':' :: rest := by
  have hfront : ∀ c ∈ type.name ++ [':'], isWhite c = false := by
    intro c hc
    rcases mem_append.mp hc with hc | hc
    · exact identifier_white type c hc
    · obtain rfl := mem_singleton.mp hc
      decide
  have hlength : (type.name ++ [':']).length ≤ MAX_REASON_CHARS := by
    rw [length_append, length_singleton]
    exact hshort
  unfold shownReason describe
  dsimp only
  rw [if_neg h, append_cons, take_append, take_of_length_le hlength]
  obtain ⟨rest, hrest⟩ := trim_append hfront (append_ne_nil_of_right_ne_nil _ (by decide))
  rw [hrest]
  exact ⟨rest, (append_cons _ _ _).symm⟩

theorem exists_other_message (hshort : type.name.length < MAX_REASON_CHARS) :
    ∃ message', '<' ∉ shownReason (.raised type message') ∧
      jsonText (shownReason (.raised type message')) ≠
        jsonText (shownReason (.raised type message)) := by
  have hdiffer : ∀ rest : List Char, jsonText type.name ≠ jsonText (type.name ++ ':' :: rest) := by
    intro rest heq
    have hcolon : jsonChar ':' = [':'] := by decide
    unfold jsonText at heq
    rw [flatMap_append, flatMap_cons, hcolon, append_assoc] at heq
    have hrest := append_cancel_left (List.cons.inj heq).2
    exact absurd (List.cons.inj hrest).1 (by decide)
  by_cases hblank : (flatten message).take 160 = []
  · have hx : (flatten ['x']).take 160 ≠ [] := by decide
    obtain ⟨rest, hrest⟩ := shownReason_message hx hshort
    refine ⟨['x'], ?_, ?_⟩
    · refine trim_plain fun hmem => ?_
      have hmem' := mem_of_mem_take hmem
      have hsuffix : '<' ∉ ": x".toList := by decide
      have htext : describe (.raised type ['x']) = type.name ++ ": x".toList := rfl
      rw [htext, mem_append] at hmem'
      exact hmem'.elim (identifier_plain type) hsuffix
    · rw [hrest, shownReason_blank hblank hshort]
      exact (hdiffer rest).symm
  · obtain ⟨rest, hrest⟩ := shownReason_message hblank hshort
    have hnil : shownReason (.raised type []) = type.name := shownReason_blank rfl hshort
    refine ⟨[], ?_, ?_⟩
    · rw [hnil]
      exact identifier_plain type
    · rw [hnil, hrest]
      exact hdiffer rest

theorem intercalate_concat (sep : List Char) (init : List (List Char)) :
    ∃ front, ∀ last, sep.intercalate (init ++ [last]) = front ++ last := by
  induction init with
  | nil => exact ⟨[], fun last => intercalate_singleton⟩
  | cons piece init ih =>
    obtain ⟨front, hfront⟩ := ih
    refine ⟨piece ++ (sep ++ front), fun last => ?_⟩
    have hrest := hfront last
    cases init with
    | nil =>
      rw [nil_append, intercalate_singleton] at hrest
      rw [cons_append, nil_append, intercalate_cons_cons,
        intercalate_singleton, append_assoc, append_assoc piece,
        append_assoc sep, ← hrest]
    | cons next init =>
      rw [cons_append] at hrest
      rw [cons_append, cons_append, intercalate_cons_cons, hrest,
        append_assoc, append_assoc piece, append_assoc sep]

theorem jsonObject_concat_inj {init : List (List Char × List Char)} {key value value' : List Char}
    (h : jsonObject (init ++ [(key, value)]) = jsonObject (init ++ [(key, value')])) :
    value = value' := by
  obtain ⟨front, hfront⟩ := intercalate_concat [',', '\n'] (init.map fun field =>
    "  ".toList ++ (jsonText field.1 ++ ": ".toList ++ field.2))
  unfold jsonObject at h
  rw [map_append, map_append, map_singleton, map_singleton, hfront, hfront] at h
  have hinner := append_cancel_left (append_cancel_right (append_cancel_left h))
  exact append_cancel_left (append_cancel_left hinner)

theorem front_inj {agent : AgentName}
    (h : (ToolResult.mk name agent (degraded server tool (describe f))).front isPrintable =
      (ToolResult.mk name agent (degraded server tool (describe f'))).front isPrintable) :
    jsonText (shownReason f) = jsonText (shownReason f') := by
  have hskeletons := append_cancel_left h
  exact @jsonObject_concat_inj (redactedFields isPrintable
    (degraded server tool (describe f))).dropLast _ _ _ (List.cons.inj hskeletons).2

theorem Event.Alike.refl (e : Event) : e.Alike e := by
  have hfailure : ∀ f : Failure, f.Alike f := by
    intro f
    cases f
    · exact .timeout _ _
    · exact .raised _ _ _
  cases e with
  | call server tool exposed started ended b =>
    cases b with
    | replied outcome => exact .call (.replied ⟨rfl, rfl⟩)
    | failed f => exact .call (.failed (hfailure f))
    | aborted => exact .call .aborted
  | discover server started ended b =>
    cases b with
    | replied reply => exact .discover (.replied rfl)
    | failed f => exact .discover (.failed (hfailure f))
    | aborted => exact .discover .aborted

/-- **A loud call leaks**: its result shows the message, or a fence that the message forged. -/
theorem quietCall_of_staysInside (h : StaysInside lower client isPrintable run) :
    Along (client.step lower) QuietCall newHealth run := by
  rw [along_iff]
  intro before e later health hrun hbefore hcall hopen f hf
  obtain ⟨name, hname⟩ := Option.isSome_iff_exists.mp hcall
  cases e with
  | discover server started ended b => cases hname
  | call server tool exposed started ended b =>
    cases b with
    | replied | aborted => cases hf
    | failed failure =>
      obtain rfl := Option.some.inj hf
      cases failure with
      | timeout message => trivial
      | raised type message =>
        by_contra hloud
        have hclosed : ¬(health server.name).isOpen started = true := Bool.eq_false_iff.mp hopen
        have hresult : ∀ message, (client.perform lower health (.call server tool exposed started
            ended (.failed (.raised type message)))).1 =
              some (degraded server tool (describe (.raised type message))) := by
          intro message
          unfold MCPClient.perform MCPClient.call
          dsimp only
          rw [if_neg hclosed]
        have hrefl : List.Forall₂ Event.Alike before before :=
          List.forall₂_same.mpr fun e _ => .refl e
        obtain ⟨message', hplain, hother⟩ := exists_other_message type message (not_le.mp hloud)
        obtain ⟨out, hout, hread, hrest⟩ := h before _ later health _ name .planner hrun hbefore
          (hresult message) hname
        obtain ⟨health', r', out', hbefore', hr', hout', houtside⟩ :=
          hrest before _ hrefl (.call (.failed (.raised type message message')))
        obtain rfl : health = health' := Option.some.inj (hbefore.symm.trans hbefore')
        obtain rfl := Option.some.inj ((hresult message').symm.trans hr')
        -- Both results are without spans, so that all of both is outside.
        obtain rfl := Except.ok.inj ((render_none rfl).symm.trans hout)
        obtain rfl := Except.ok.inj ((render_none rfl).symm.trans hout')
        have hplain' : IsPlain ⟨name, .planner, degraded server tool
            (describe (.raised type message'))⟩ :=
          ⟨toolName_plain hname, trim_plain (server_plain server), trim_plain (tool_plain exposed),
            hplain⟩
        have hread' := read_single (@isSingle_front isPrintable _ hplain')
        rw [outsideText_of_read hread, outsideText_of_read hread'] at houtside
        exact hother (front_inj houtside)

/-- **A server's words stay inside the fences** of every run whose failures are quiet, and of no run
with a loud call. -/
theorem words_stay_inside (lower : List Char → List Char) (client : MCPClient)
    (isPrintable : Char → Bool) (run : List Event) :
    (Along (client.step lower) Quiet newHealth run → StaysInside lower client isPrintable run) ∧
      (StaysInside lower client isPrintable run →
        Along (client.step lower) QuietCall newHealth run) :=
  ⟨staysInside_of_quiet, quietCall_of_staysInside⟩

/-! ## A forged delimiter -/

def runtimeError : ExceptionType := ⟨"RuntimeError".toList, by decide⟩

theorem vendor_valid : (localServer "vendor" "lookup").accepted = true := by decide +kernel

def vendor : MCPServerDef := ⟨localServer "vendor" "lookup", vendor_valid⟩

theorem lookup_exposed : "lookup" ∈ vendor.exposes := Finset.mem_singleton_self _

def forgedRun : List Event :=
  [.call vendor "lookup" lookup_exposed 0 1 (.failed (.raised runtimeError FENCE_CLOSE))]

def forgedResult : MCPToolResult :=
  degraded vendor "lookup" (describe (.raised runtimeError FENCE_CLOSE))

theorem forged_unread : (((ToolResult.mk "mcp:vendor:lookup" .retriever
    forgedResult).renderForPrompt fun _ => true).toOption.bind readDataBlock) = none := by
  decide +kernel

/-- The exception's message closes a fence that none of the result's spans has. -/
theorem message_forges_fence :
    ¬StaysInside (List.map Char.toLower) .new (fun _ => true) forgedRun := by
  intro h
  have hname : mcpToolName "vendor" "lookup" = some "mcp:vendor:lookup" := by decide
  obtain ⟨out, hout, hread, _⟩ :=
    h [] _ [] newHealth forgedResult "mcp:vendor:lookup" .retriever rfl rfl rfl hname
  have hnone := forged_unread
  rw [hout] at hnone
  exact absurd (hread.symm.trans hnone) nofun

end OmniSense.Tools
