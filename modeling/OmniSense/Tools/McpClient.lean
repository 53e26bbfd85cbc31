import Mathlib.Algebra.Order.Ring.Rat
import OmniSense.Tools.Literals
import OmniSense.Tools.Servers

/-! `MCPClient`: a server's replies and its outages as tool results, the breaker between them, and
how such a result is rendered for a prompt. -/

namespace OmniSense.Tools

open Agents Library

/-! ## What a session does -/

structure MCPContentBlock where
  text : List Char
  uri : Option (List Char)

structure MCPCallOutcome where
  blocks : List MCPContentBlock
  isError : Bool

def isNameChar (c : Char) : Bool := (c.isAlphanum || c = '_' || 127 < c.toNat) && !isSpace c

structure ExceptionType where
  name : List Char
  identifier : name.all isNameChar = true

/-- An `Exception` and its message. A timeout is a `TimeoutError` of any origin. -/
inductive Failure
  | timeout (message : List Char)
  | raised (type : ExceptionType) (message : List Char)

/-- What comes of a request to a session. `aborted` is an exception that is no `Exception`, such as
a cancellation. -/
inductive Behaviour (ρ : Type*)
  | replied (reply : ρ)
  | failed (failure : Failure)
  | aborted

def MAX_REASON_CHARS : ℕ := 200

def describe : Failure → List Char
  | .timeout _ => "timed out".toList
  | .raised type message =>
    let message := (flatten message).take 160
    if message = [] then type.name else type.name ++ ':' :: ' ' :: message

/-! ## Health -/

/-- Health of one server; `lastError` is a reason. -/
structure ServerStatus where
  consecutiveFailures : ℕ := 0
  openUntil : ℚ := 0
  lastError : List Char := []
  calls : ℕ := 0
  failures : ℕ := 0

namespace ServerStatus

variable (s : ServerStatus)

def isOpen (now : ℚ) : Bool := now < s.openUntil

def recordSuccess : ServerStatus :=
  { s with consecutiveFailures := 0, openUntil := 0, lastError := [] }

def recordFailure (reason : List Char) (now : ℚ) (threshold : ℕ) (cooldown : ℚ) : ServerStatus :=
  let s :=
    { s with
      consecutiveFailures := s.consecutiveFailures + 1
      failures := s.failures + 1
      lastError := reason.take MAX_REASON_CHARS }
  if threshold ≤ s.consecutiveFailures then { s with openUntil := now + cooldown } else s

end ServerStatus

/-- `self._health`, with `setdefault`. -/
abbrev Health := String → ServerStatus

structure MCPClient where
  failureThreshold : ℕ
  cooldownSeconds : ℚ

def MCPClient.new (failureThreshold : ℤ := 3) (cooldownSeconds : ℚ := 60) : MCPClient where
  failureThreshold := (max 1 failureThreshold).toNat
  cooldownSeconds := max 0 cooldownSeconds

/-! ## Results -/

structure MCPToolResult where
  truncated : Bool := false
  dropped : ℕ := 0
  server : List Char
  tool : List Char
  isError : Bool := false
  degraded : Bool := false
  unavailableReason : List Char := []
  blocks : List UntrustedText := []

def MAX_BLOCKS : ℕ := 20

section

variable (lower : List Char → List Char)

def captureBlock (server : MCPServerDef) (tool : String) (block : MCPContentBlock) (index : ℕ) :
    UntrustedText :=
  let perBlock := max 1 (min (MAX_UNTRUSTED_CHARS : ℤ) (server.maxResultBytes / 4))
  UntrustedText.capture lower block.text ("mcp:".toList ++ server.name.toList)
    (block.uri.getD (tool.toList ++ '#' :: (toString index).toList)) none perBlock

def toResult (server : MCPServerDef) (tool : String) (outcome : MCPCallOutcome) : MCPToolResult :=
  let blocks := outcome.blocks.take MAX_BLOCKS
  { server := trim server.name.toList
    tool := trim tool.toList
    isError := outcome.isError
    blocks := blocks.mapIdx fun index block => captureBlock lower server tool block index
    truncated := blocks.length < outcome.blocks.length
    dropped := outcome.blocks.length - blocks.length }

def degraded (server : MCPServerDef) (tool : String) (reason : List Char) : MCPToolResult where
  server := trim server.name.toList
  tool := trim tool.toList
  degraded := true
  unavailableReason := trim (reason.take MAX_REASON_CHARS)

def cooldownReason (s : ServerStatus) : List Char :=
  "server is in cooldown after ".toList ++ (toString s.consecutiveFailures).toList ++
    " consecutive failures (last: ".toList ++ s.lastError ++ [')']

namespace MCPClient

variable (client : MCPClient) (health : Health) (server : MCPServerDef)

def fail (failure : Failure) (ended : ℚ) : Health :=
  Function.update health server.name
    ((health server.name).recordFailure (describe failure) ended client.failureThreshold
      client.cooldownSeconds)

/-- `MCPClient.call`; the clock is read at `started`, and again when the request fails. -/
def call (tool : String) (started ended : ℚ) (behaviour : Behaviour MCPCallOutcome) :
    Option MCPToolResult × Health :=
  let status := health server.name
  if status.isOpen started then (some (degraded server tool (cooldownReason status)), health)
  else
    let status := { status with calls := status.calls + 1 }
    let health := Function.update health server.name status
    match behaviour with
    | .replied outcome =>
      (some (toResult lower server tool outcome),
        Function.update health server.name status.recordSuccess)
    | .failed failure =>
      (some (degraded server tool (describe failure)), client.fail health server failure ended)
    | .aborted => (none, health)

/-- `MCPClient._discover_one`, which shares the breaker; a reply that cannot be read counts as a
failure. -/
def discoverOne (started ended : ℚ) (behaviour : Behaviour Unit) : Health :=
  if (health server.name).isOpen started then health
  else
    match behaviour with
    | .replied () => Function.update health server.name (health server.name).recordSuccess
    | .failed failure => client.fail health server failure ended
    | .aborted => health

end MCPClient

end

/-! ## Rendering -/

def agentText : AgentName → List Char
  | .planner => "planner".toList
  | .collector => "collector".toList
  | .retriever => "retriever".toList
  | .insight => "insight".toList
  | .strategy => "strategy".toList
  | .critic => "critic".toList
  | .report => "report".toList
  | .unknown => "unknown".toList

structure ToolResult where
  tool : String
  agent : AgentName
  data : MCPToolResult

section

variable (isPrintable : Char → Bool)

/-- What `_redact_untrusted` puts in a span's place. -/
def fenceReference (s : UntrustedText) : List Char :=
  "<see fenced data ref=".toList ++ (reprText isPrintable s.ref ++ ['>'])

def redactedFields (d : MCPToolResult) : List (List Char × List Char) :=
  [("blocks".toList, jsonArray (d.blocks.map (fenceReference isPrintable))),
    ("degraded".toList, jsonBool d.degraded),
    ("dropped".toList, (toString d.dropped).toList),
    ("is_error".toList, jsonBool d.isError),
    ("server".toList, jsonText d.server),
    ("tool".toList, jsonText d.tool),
    ("truncated".toList, jsonBool d.truncated),
    ("unavailable_reason".toList, jsonText d.unavailableReason)]

def skeleton (d : MCPToolResult) : List Char := jsonObject (redactedFields isPrintable d)

namespace ToolResult

variable (r : ToolResult)

def header : List Char :=
  "tool=".toList ++ r.tool.toList ++ " agent=".toList ++ agentText r.agent ++
    " truncated=".toList ++ (if r.data.truncated then "True".toList else "False".toList)

def renderForPrompt : Except UnsafeToolOutputError (List Char) := do
  let block ← renderDataBlock r.data.blocks
  return rstrip (r.header ++ '\n' :: (skeleton isPrintable r.data ++ '\n' :: '\n' :: block))

end ToolResult

end

end OmniSense.Tools
