import Mathlib.Data.Finset.Sort
import Mathlib.Data.String.Basic
import OmniSense.Tools.Registry

/-! MCP server definitions, and the tools that discovery makes of what the servers advertise. -/

namespace OmniSense.Tools

/-! ## Patterns -/

variable (c : Char)

def isLower : Bool := 'a' ≤ c ∧ c ≤ 'z'

def isUpper : Bool := 'A' ≤ c ∧ c ≤ 'Z'

def isDigit : Bool := '0' ≤ c ∧ c ≤ '9'

def isSlugEnd : Bool := isLower c || isDigit c

def isSlug : Bool := isSlugEnd c || c = '_' || c = '-'

def isToolChar : Bool := isSlug c || isUpper c || c = '.'

/-- `re.match` of a pattern that ends with `$`, which matches before a final newline too. -/
def matchesLine (pattern : List Char → Bool) (s : String) : Bool :=
  pattern s.toList || (s.toList.getLast? = some '\n' && pattern s.toList.dropLast)

def serverPattern (cs : List Char) : Bool :=
  cs ≠ [] ∧ cs.length ≤ 40 ∧ cs.all isSlug ∧ cs.head?.all isSlugEnd ∧ cs.getLast?.all isSlugEnd

def toolPattern (cs : List Char) : Bool := cs ≠ [] ∧ cs.length ≤ 64 ∧ cs.all isToolChar

/-- `SERVER_NAME_RE.match`. -/
def isServerName (name : String) : Bool := matchesLine serverPattern name

/-- `TOOL_NAME_RE.match`. -/
def isToolName (name : String) : Bool := matchesLine toolPattern name

/-! ## Servers -/

inductive MCPTransport
  | stdio | streamableHttp | sse
  deriving DecidableEq

def MAX_TIMEOUT_SECONDS : ℚ := 60

/-- The fields that `__post_init__` looks at. -/
structure ServerFields where
  name : String
  transport : MCPTransport := .stdio
  enabled : Bool := false
  exposes : Finset String := ∅
  command : String := ""
  url : String := ""
  timeoutSeconds : ℚ := 20
  connectTimeoutSeconds : ℚ := 10
  maxResultBytes : ℤ := 16384

namespace ServerFields

variable (f : ServerFields)

def validStdio : Bool := f.command ≠ "" ∧ f.url = ""

def validRemote : Bool :=
  f.url ≠ "" ∧ f.command = "" ∧
    (("https://".toList <+: f.url.toList) ∨ "http://localhost".toList <+: f.url.toList)

/-- `__post_init__` raises no `ConfigurationError`. -/
def accepted : Bool :=
  isServerName f.name ∧ (∀ name ∈ f.exposes, isToolName name) ∧
    (if f.transport = .stdio then f.validStdio else f.validRemote) ∧
    (0 < f.timeoutSeconds ∧ f.timeoutSeconds ≤ MAX_TIMEOUT_SECONDS) ∧
    (0 < f.connectTimeoutSeconds ∧ f.connectTimeoutSeconds ≤ MAX_TIMEOUT_SECONDS) ∧
    0 < f.maxResultBytes

end ServerFields

structure MCPServerDef extends ServerFields where
  valid : toServerFields.accepted = true

structure MCPServerRegistry where
  servers : List MCPServerDef
  distinct : (servers.map fun server => server.name).Nodup

def MCPServerRegistry.enabled (servers : MCPServerRegistry) : List MCPServerDef :=
  (servers.servers.insertionSort fun s s' => s.name ≤ s'.name).filter fun server => server.enabled

/-! ## Discovery -/

structure MCPToolDescriptor (σ : Type*) where
  name : String
  inputSchema : σ

section

variable {σ β : Type*}
  -- `_input_model_for`, and the spec's other fields: nothing where the schema is unusable.
  (proxy : MCPServerDef → String → σ → Option β)

/-- `by_name[name]`: the last tool of that name whose name is well formed. -/
def advertisedAs (advertised : List (MCPToolDescriptor σ)) (name : String) :
    Option (MCPToolDescriptor σ) :=
  advertised.reverse.find? fun tool => tool.name = name ∧ isToolName tool.name

/-- What `_specs_from` makes of an exposed name, for which `mcp_tool_name` does not raise. -/
def specFor (server : MCPServerDef) (advertised : List (MCPToolDescriptor σ)) (name : String) :
    Option (ToolSpec β) :=
  (advertisedAs advertised name).bind fun descriptor =>
    (proxy server name descriptor.inputSchema).bind fun body =>
      (mcpToolName server.name name).map fun full => ⟨full, body⟩

theorem names_trans : IsTrans String (· ≤ ·) := inferInstance

theorem names_antisymm : Std.Antisymm fun x y : String => x ≤ y := inferInstance

theorem names_total : Std.Total fun x y : String => x ≤ y := inferInstance

/-- `sorted(names)`. -/
def sortedNames (names : Finset String) : List String :=
  @Finset.sort String names (· ≤ ·) _ names_trans names_antisymm names_total

def specsFrom (server : MCPServerDef) (advertised : List (MCPToolDescriptor σ)) :
    List (ToolSpec β) :=
  (sortedNames server.exposes).filterMap (specFor proxy server advertised)

def discover (servers : MCPServerRegistry)
    (listTools : MCPServerDef → Option (List (MCPToolDescriptor σ))) : List (ToolSpec β) :=
  let gathered := servers.enabled.map fun server =>
    match listTools server with
    | some advertised => specsFrom proxy server advertised
    | none => []
  gathered.flatten.insertionSort fun s s' => s.name ≤ s'.name

end

/-- `attach_mcp_tools`, after discovery. -/
def attachMcpTools {β : Type*} (r : ToolRegistry β) (specs : List (ToolSpec β))
    (grants : Allowlist) : Except RegistryError (ToolRegistry β) :=
  if specs.isEmpty then .ok r else r.withMcpTools specs grants

end OmniSense.Tools
