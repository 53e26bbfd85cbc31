import Mathlib.Data.List.Nodup
import OmniSense.Agents.State
import OmniSense.Library.Words

/-! Tool names and the `ToolRegistry`: what is registered, who may call it, and under which names. -/

namespace OmniSense.Tools

open Agents Library

/-! ## Names -/

variable (name : String)

/-- `value.replace(":", "__")`. -/
def toWire : String := String.ofList (expand ':' '_' name.toList)

/-- `value.replace("__", ":")`. -/
def fromWire : String := String.ofList (contract ':' '_' name.toList)

def mcpPrefix : String := "mcp:"

/-- `mcp:<server>:<tool>`, or a `ValueError`. -/
def mcpToolName (server tool : String) : Option String :=
  if server = "" ∨ tool = "" ∨ ':' ∈ server.toList ∨ ':' ∈ tool.toList then none
  else some (mcpPrefix ++ server ++ ":" ++ tool)

/-- Inverse of `mcpToolName`. -/
def parseMcpToolName : Option (String × String) :=
  if mcpPrefix.toList <+: name.toList then
    let rest := name.toList.drop mcpPrefix.toList.length
    let server := rest.takeWhile (· ≠ ':')
    let tool := (rest.dropWhile (· ≠ ':')).drop 1
    if server = [] ∨ tool = [] then none else some (String.ofList server, String.ofList tool)
  else none

/-! ## The registry -/

/-- `body` stands for the schemas, the handler and the ceiling. -/
structure ToolSpec (β : Type*) where
  name : String
  body : β
  deriving DecidableEq

def ToolSpec.wireName {β : Type*} (spec : ToolSpec β) : String := toWire spec.name

/-- The two `ConfigurationError`s, and the `ValueError` of `parse_mcp_tool_name`. -/
inductive RegistryError
  | duplicateName | unregistered | notMcp
  deriving DecidableEq

/-- `agent {agent} may not call tool {tool!r}`. -/
structure ToolNotAllowedError where
  agent : AgentName
  tool : String
  allowed : List String

abbrev Allowlist := AgentName → List String

variable {β : Type*}

def agents : List AgentName :=
  [.planner, .collector, .retriever, .insight, .strategy, .critic, .report, .unknown]

theorem mem_agents (agent : AgentName) : agent ∈ agents := by
  cases agent <;> decide

structure ToolRegistry (β : Type*) where
  specs : List (ToolSpec β)
  allowlist : Allowlist
  distinct : (specs.map ToolSpec.name).Nodup
  registered : ∀ agent ∈ agents, ∀ name ∈ allowlist agent, name ∈ specs.map ToolSpec.name

namespace ToolRegistry

/-- `ToolRegistry.__init__`. -/
def new (specs : List (ToolSpec β)) (allowlist : Allowlist) :
    Except RegistryError (ToolRegistry β) :=
  if distinct : (specs.map ToolSpec.name).Nodup then
    if registered : ∀ agent ∈ agents, ∀ name ∈ allowlist agent, name ∈ specs.map ToolSpec.name then
      .ok ⟨specs, allowlist, distinct, registered⟩
    else .error .unregistered
  else .error .duplicateName

variable (r : ToolRegistry β)

def names : List String := r.specs.map ToolSpec.name

/-- `self._specs.get(name)`. -/
def get (name : String) : Option (ToolSpec β) := r.specs.find? fun spec => spec.name = name

def resolve (name : String) : Option (ToolSpec β) :=
  (r.get name).or (if ['_', '_'] <:+: name.toList then r.get (fromWire name) else none)

def requireAllowed (agent : AgentName) (tool : String) : Except ToolNotAllowedError (ToolSpec β) :=
  match r.resolve tool with
  | some spec =>
    if spec.name ∈ r.allowlist agent then .ok spec
    else .error ⟨agent, tool, r.allowlist agent⟩
  | none => .error ⟨agent, tool, r.allowlist agent⟩

def withMcpTools (specs : List (ToolSpec β)) (grants : Allowlist) :
    Except RegistryError (ToolRegistry β) :=
  if ∀ spec ∈ specs, (parseMcpToolName spec.name).isSome then
    new (r.specs ++ specs) fun agent => r.allowlist agent ++ grants agent
  else .error .notMcp

end ToolRegistry

/-- The names of the toolsets under `agents/tools/`. -/
def NATIVE_TOOLS : List String :=
  ["list_available", "fetch", "sync_status", "search_entities", "neighbours", "find_paths",
    "subgraph", "hybrid_search", "fetch_passage", "rerank", "resolve_citation"]

def AGENT_TOOL_ALLOWLIST : Allowlist
  | .planner => ["search_entities", "list_available"]
  | .collector => ["list_available", "fetch", "sync_status"]
  | .retriever => ["hybrid_search", "fetch_passage", "rerank", "resolve_citation", "neighbours"]
  | .insight => ["fetch_passage", "find_paths"]
  | .strategy => ["hybrid_search", "aggregate"]
  | .critic => ["fetch_passage", "resolve_citation"]
  | .report => ["fetch_passage", "resolve_citation"]
  | .unknown => []

def buildDefaultRegistry (toolsets : List (List (ToolSpec β))) (allowlist : Allowlist) :
    Except RegistryError (ToolRegistry β) :=
  let specs := toolsets.flatten
  ToolRegistry.new specs fun agent => (allowlist agent).filter fun name => name ∈ specs.map ToolSpec.name

end OmniSense.Tools
