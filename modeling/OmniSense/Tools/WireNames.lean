import OmniSense.Library.Effect
import OmniSense.Tools.Servers

/-! When wire names identify tools: exactly when the names of the registered MCP tools have no full
stop and no final newline, those that may be called no doubled underscore, and no two of them part
the same text in two ways. -/

namespace OmniSense.Tools

open Agents Library List

variable {β σ : Type*} {r : ToolRegistry β} {name name' s s' t t' : String}

/-! ## What is asked of a registry -/

/-- `[a-zA-Z0-9_-]`. -/
def isWireChar (c : Char) : Bool := isSlug c || isUpper c

structure ToolRegistry.WireNamesIdentify (r : ToolRegistry β) : Prop where
  distinct : (r.specs.map ToolSpec.wireName).Nodup
  charset : ∀ spec ∈ r.specs, ∀ c ∈ spec.wireName.toList, isWireChar c = true
  resolved : ∀ agent, ∀ spec ∈ r.specs, spec.name ∈ r.allowlist agent →
    r.resolve spec.wireName = some spec ∧ r.requireAllowed agent spec.wireName = .ok spec

/-- `"__" in name`. -/
def IsDoubled (name : String) : Prop := ['_', '_'] <:+: name.toList

instance (name : String) : Decidable (IsDoubled name) :=
  inferInstanceAs (Decidable (_ <:+: _))

structure ToolRegistry.Unambiguous (r : ToolRegistry β) : Prop where
  plain : ∀ spec ∈ r.specs, ∀ s t, parseMcpToolName spec.name = some (s, t) →
    '\n' ∉ s.toList ∧ '\n' ∉ t.toList ∧ '.' ∉ t.toList
  undoubled : ∀ agent, ∀ name ∈ r.allowlist agent, ∀ s t, parseMcpToolName name = some (s, t) →
    ¬IsDoubled s ∧ ¬IsDoubled t
  unsplit : ∀ spec ∈ r.specs, ∀ spec' ∈ r.specs, ∀ s t s' t' u,
    parseMcpToolName spec.name = some (s, t) → parseMcpToolName spec'.name = some (s', t') →
      s' = s ++ "__" ++ u → t ≠ u ++ "__" ++ t'

def ToolRegistry.BuiltFrom (r : ToolRegistry β) (discovered : List (ToolSpec β)) : Prop :=
  ∀ spec ∈ r.specs, spec.name ∈ NATIVE_TOOLS ∨ spec ∈ discovered

/-! ## Accepted names -/

theorem matchesLine_iff {pattern : List Char → Bool} (h : matchesLine pattern s = true) :
    ∃ cs, pattern cs = true ∧ (s.toList = cs ∨ s.toList = cs ++ ['\n']) := by
  rcases Bool.or_eq_true_iff.mp h with h | h
  · exact ⟨s.toList, h, .inl rfl⟩
  · obtain ⟨hlast, h⟩ := Bool.and_eq_true_iff.mp h
    exact ⟨_, h, .inr (dropLast_append_getLast? _ (of_decide_eq_true hlast)).symm⟩

structure IsName (isChar : Char → Bool) (cs : List Char) : Prop where
  nonempty : cs ≠ []
  chars : ∀ c ∈ cs, isChar c = true ∨ c = '\n'

theorem isServerName_name (h : isServerName s = true) :
    IsName isSlug s.toList ∧ s.toList.getLast? ≠ some '_' := by
  obtain ⟨cs, hcs, hs⟩ := matchesLine_iff h
  obtain ⟨hnonempty, -, hchars, -, hlast⟩ := of_decide_eq_true hcs
  have hall : ∀ c ∈ cs, isSlug c = true := all_eq_true.mp hchars
  rcases hs with hs | hs
  · rw [hs]
    refine ⟨⟨hnonempty, fun c hc => .inl (hall c hc)⟩, fun heq => ?_⟩
    rw [heq] at hlast
    exact absurd hlast (by decide)
  · rw [hs]
    refine ⟨⟨append_ne_nil_of_right_ne_nil _ (cons_ne_nil _ _), fun c hc => ?_⟩, ?_⟩
    · exact (mem_append.mp hc).imp (hall c) mem_singleton.mp
    · rw [List.getLast?_concat]
      decide

theorem isToolName_name (h : isToolName t = true) : IsName isToolChar t.toList := by
  obtain ⟨cs, hcs, ht⟩ := matchesLine_iff h
  obtain ⟨hnonempty, -, hchars⟩ := of_decide_eq_true hcs
  have hall : ∀ c ∈ cs, isToolChar c = true := all_eq_true.mp hchars
  rcases ht with ht | ht
  · rw [ht]
    exact ⟨hnonempty, fun c hc => .inl (hall c hc)⟩
  · rw [ht]
    refine ⟨append_ne_nil_of_right_ne_nil _ (cons_ne_nil _ _), fun c hc => ?_⟩
    exact (mem_append.mp hc).imp (hall c) mem_singleton.mp

theorem IsName.colon_notMem {isChar : Char → Bool} {cs : List Char} (h : IsName isChar cs)
    (hcolon : isChar ':' = false) : ':' ∉ cs := by
  intro hmem
  rcases h.chars ':' hmem with hc | hc
  · rw [hcolon] at hc
    cases hc
  · exact absurd hc (by decide)

structure IsMcpName (name s t : String) : Prop where
  toList : name.toList = "mcp:".toList ++ (s.toList ++ ':' :: t.toList)
  server : IsName isSlug s.toList
  unedged : s.toList.getLast? ≠ some '_'
  tool : IsName isToolChar t.toList

theorem mcpToolName_isMcpName (hs : isServerName s = true) (ht : isToolName t = true)
    (h : mcpToolName s t = some name) : IsMcpName name s t := by
  obtain ⟨hserver, hedge⟩ := isServerName_name hs
  obtain ⟨_, hname⟩ := Option.ite_none_left_eq_some.mp h
  cases hname
  refine ⟨?_, hserver, hedge, isToolName_name ht⟩
  simp [mcpPrefix]

namespace IsMcpName

theorem colon_server (h : IsMcpName name s t) : ':' ∉ s.toList := h.server.colon_notMem (by decide)

theorem colon_tool (h : IsMcpName name s t) : ':' ∉ t.toList := h.tool.colon_notMem (by decide)

theorem parse (h : IsMcpName name s t) : parseMcpToolName name = some (s, t) := by
  have hserver : ∀ c ∈ s.toList, (c ≠ ':' : Bool) = true := by
    intro c hc
    exact decide_eq_true fun heq => h.colon_server (heq ▸ hc)
  have hdrop : name.toList.drop mcpPrefix.toList.length = s.toList ++ ':' :: t.toList := by
    rw [h.toList]
    exact drop_left
  have htake : (s.toList ++ ':' :: t.toList).takeWhile (· ≠ ':') = s.toList := by
    rw [takeWhile_append_of_pos hserver, takeWhile_cons_of_neg (by decide)]
    exact append_nil _
  have hrest : (s.toList ++ ':' :: t.toList).dropWhile (· ≠ ':') = ':' :: t.toList := by
    rw [dropWhile_append_of_pos hserver, dropWhile_cons_of_neg (by decide)]
  have hprefix : mcpPrefix.toList <+: name.toList := by
    rw [h.toList]
    exact prefix_append _ _
  unfold parseMcpToolName
  rw [if_pos hprefix]
  dsimp only
  rw [hdrop, htake, hrest, if_neg, drop_one, tail_cons, String.ofList_toList,
    String.ofList_toList]
  rintro (hnil | hnil)
  · exact h.server.nonempty hnil
  · exact h.tool.nonempty hnil

theorem toWire (h : IsMcpName name s t) :
    (toWire name).toList = "mcp__".toList ++ (s.toList ++ '_' :: '_' :: t.toList) := by
  unfold Tools.toWire
  rw [String.toList_ofList, h.toList, expand_append, expand_append, expand_cons, if_pos rfl,
    expand_of_notMem h.colon_server, expand_of_notMem h.colon_tool]
  rfl

theorem isDoubled_iff (h : IsMcpName name s t) : IsDoubled name ↔ IsDoubled s ∨ IsDoubled t := by
  unfold IsDoubled
  have hcolon : ¬(':' :: t.toList).head? = some '_' := by
    rw [List.head?_cons]
    decide
  rw [h.toList, pair_infix_append_iff, pair_infix_append_iff, infix_cons_iff, prefix_pair_iff]
  tauto

theorem not_edge (h : IsMcpName name s t) : ¬['_', ':'] <:+: name.toList := by
  have hmem : ∀ {cs : List Char}, ':' ∉ cs → ¬['_', ':'] <:+: cs := by
    intro cs hcs hinfix
    have hcolon : ':' ∈ cs := hinfix.subset (mem_cons_of_mem _ mem_cons_self)
    exact hcs hcolon
  have hserver := hmem h.colon_server
  have htool := hmem h.colon_tool
  have hunedged := h.unedged
  rw [h.toList, pair_infix_append_iff, pair_infix_append_iff, infix_cons_iff, prefix_pair_iff]
  tauto

theorem fromWire_toWire_iff (h : IsMcpName name s t) :
    fromWire (Tools.toWire name) = name ↔ ¬IsDoubled s ∧ ¬IsDoubled t := by
  have hlist : fromWire (Tools.toWire name) = name ↔
      contract ':' '_' (expand ':' '_' name.toList) = name.toList := by
    unfold fromWire Tools.toWire
    rw [String.toList_ofList]
    constructor
    · intro heq
      rw [← String.toList_inj, String.toList_ofList] at heq
      exact heq
    · intro heq
      rw [heq, String.ofList_toList]
  rw [hlist, ← not_or, ← h.isDoubled_iff]
  exact ⟨not_double_of_contract_expand (by decide), fun hd => contract_expand hd h.not_edge⟩

end IsMcpName

theorem toList_doubled (s u : String) : (s ++ "__" ++ u).toList = s.toList ++ '_' :: '_' :: u.toList := by
  simp

theorem split_iff {s s' t t' : String} :
    (∃ u : List Char, s'.toList = s.toList ++ '_' :: '_' :: u ∧
      t.toList = u ++ '_' :: '_' :: t'.toList) ↔
    ∃ u : String, s' = s ++ "__" ++ u ∧ t = u ++ "__" ++ t' := by
  constructor
  · rintro ⟨u, hs, ht⟩
    refine ⟨String.ofList u, String.toList_inj.mp ?_, String.toList_inj.mp ?_⟩
    · rw [toList_doubled, String.toList_ofList, hs]
    · rw [toList_doubled, String.toList_ofList, ht]
  · rintro ⟨u, rfl, rfl⟩
    exact ⟨u.toList, toList_doubled s u, toList_doubled u t'⟩

theorem IsMcpName.toWire_eq_iff (h : IsMcpName name s t) (h' : IsMcpName name' s' t') :
    Tools.toWire name = Tools.toWire name' ↔ name = name' ∨
      (∃ u, s' = s ++ "__" ++ u ∧ t = u ++ "__" ++ t') ∨
        ∃ u, s = s' ++ "__" ++ u ∧ t' = u ++ "__" ++ t := by
  have hlist : Tools.toWire name = Tools.toWire name' ↔
      s.toList ++ '_' :: '_' :: t.toList = s'.toList ++ '_' :: '_' :: t'.toList := by
    rw [← String.toList_inj, h.toWire, h'.toWire]
    exact append_right_inj _
  rw [hlist, ← split_iff, ← split_iff]
  constructor
  · intro heq
    refine (split_double h.unedged h'.unedged heq).imp_left fun hsame => ?_
    rw [← String.toList_inj, h.toList, h'.toList, hsame.1, hsame.2]
  · rintro (rfl | ⟨u, hs, ht⟩ | ⟨u, hs, ht⟩)
    · have hparts := Option.some.inj (h.parse.symm.trans h'.parse)
      rw [(Prod.mk.inj hparts).1, (Prod.mk.inj hparts).2]
    · rw [hs, ht, append_assoc, cons_append, cons_append]
    · rw [hs, ht, append_assoc, cons_append, cons_append]

theorem isWireChar_iff {c : Char} : (isToolChar c = true ∨ c = '\n') →
    (isWireChar c = true ↔ c ≠ '\n' ∧ c ≠ '.') := by
  have hplain : isWireChar c = true → c ≠ '\n' ∧ c ≠ '.' := by
    intro hwire
    refine ⟨?_, ?_⟩
    · rintro rfl
      exact absurd hwire (by decide)
    · rintro rfl
      exact absurd hwire (by decide)
  rintro (h | rfl)
  · refine ⟨hplain, fun hne => (Bool.or_eq_true_iff.mp h).resolve_right fun hdot => ?_⟩
    exact hne.2 (of_decide_eq_true hdot)
  · decide

theorem IsMcpName.charset_iff (h : IsMcpName name s t) :
    (∀ c ∈ (Tools.toWire name).toList, isWireChar c = true) ↔
      '\n' ∉ s.toList ∧ '\n' ∉ t.toList ∧ '.' ∉ t.toList := by
  have hserver : ∀ c ∈ s.toList, isWireChar c = true ↔ c ≠ '\n' := by
    intro c hc
    rcases h.server.chars c hc with hslug | rfl
    · have htool : isToolChar c = true := by
        unfold isToolChar
        rw [hslug]
        rfl
      rw [isWireChar_iff (.inl htool)]
      refine and_iff_left ?_
      rintro rfl
      exact absurd hslug (by decide)
    · decide
  have htool : ∀ c ∈ t.toList, isWireChar c = true ↔ c ≠ '\n' ∧ c ≠ '.' := fun c hc =>
    isWireChar_iff (h.tool.chars c hc)
  have hprefix : "mcp__".toList.all isWireChar = true := by decide
  have hsep : isWireChar '_' = true := by decide
  rw [h.toWire]
  constructor
  · intro hall
    refine ⟨fun hc => ?_, fun hc => ?_, fun hc => ?_⟩
    · refine (hserver _ hc).mp (hall _ ?_) rfl
      exact mem_append_right _ (mem_append_left _ hc)
    · refine ((htool _ hc).mp (hall _ ?_)).1 rfl
      exact mem_append_right _ (mem_append_right _ (mem_cons_of_mem _
        (mem_cons_of_mem _ hc)))
    · refine ((htool _ hc).mp (hall _ ?_)).2 rfl
      exact mem_append_right _ (mem_append_right _ (mem_cons_of_mem _
        (mem_cons_of_mem _ hc)))
  · rintro ⟨hs, ht, hdot⟩ c hc
    rcases mem_append.mp hc with hc | hc
    · exact all_eq_true.mp hprefix c hc
    rcases mem_append.mp hc with hc | hc
    · exact (hserver c hc).mpr fun heq => hs (heq ▸ hc)
    rcases mem_cons.mp hc with rfl | hc
    · exact hsep
    rcases mem_cons.mp hc with rfl | hc
    · exact hsep
    · exact (htool c hc).mpr ⟨fun heq => ht (heq ▸ hc), fun heq => hdot (heq ▸ hc)⟩

/-! ## The registry -/

def IsKnown (name : String) : Prop := name ∈ NATIVE_TOOLS ∨ ∃ s t, IsMcpName name s t

variable {spec : ToolSpec β}

theorem isKnown_of_discover {proxy : MCPServerDef → String → σ → Option β}
    {servers : MCPServerRegistry}
    {listTools : MCPServerDef → Option (List (MCPToolDescriptor σ))}
    (h : spec ∈ discover proxy servers listTools) : ∃ s t, IsMcpName spec.name s t := by
  have hflat := (mem_insertionSort _).mp h
  obtain ⟨batch, hbatch, hspec⟩ := mem_flatten.mp hflat
  obtain ⟨server, -, rfl⟩ := mem_map.mp hbatch
  have hserver : isServerName server.name = true := (of_decide_eq_true server.valid).1
  cases hlist : listTools server with
  | none =>
    rw [hlist] at hspec
    exact absurd hspec not_mem_nil
  | some advertised =>
    rw [hlist] at hspec
    obtain ⟨tool, htool, hmade⟩ := mem_filterMap.mp hspec
    obtain ⟨descriptor, hfound, hmade⟩ := Option.bind_eq_some_iff.mp hmade
    obtain ⟨body, -, hmade⟩ := Option.bind_eq_some_iff.mp hmade
    obtain ⟨full, hfull, rfl⟩ := Option.map_eq_some_iff.mp hmade
    have hname := List.find?_some hfound
    obtain ⟨rfl, htoolName⟩ := of_decide_eq_true hname
    exact ⟨server.name, descriptor.name, mcpToolName_isMcpName hserver htoolName hfull⟩

def isPlainName (name : String) : Bool :=
  toWire name = name && !decide (IsDoubled name) && (parseMcpToolName name).isNone &&
    name.toList.all isWireChar

theorem native_plain : NATIVE_TOOLS.all isPlainName = true := by decide

theorem native_wire (h : name ∈ NATIVE_TOOLS) : toWire name = name ∧ ¬IsDoubled name ∧
    parseMcpToolName name = none ∧ ∀ c ∈ name.toList, isWireChar c = true := by
  have hplain : isPlainName name = true := all_eq_true.mp native_plain name h
  unfold isPlainName at hplain
  rw [Bool.and_eq_true, Bool.and_eq_true, Bool.and_eq_true, Bool.not_eq_true', decide_eq_true_iff,
    decide_eq_false_iff_not, Option.isNone_iff_eq_none, all_eq_true] at hplain
  exact ⟨hplain.1.1.1, hplain.1.1.2, hplain.1.2, hplain.2⟩

theorem new_specs {specs : List (ToolSpec β)} {allowlist : Allowlist}
    (h : ToolRegistry.new specs allowlist = .ok r) : r.specs = specs := by
  unfold ToolRegistry.new at h
  split_ifs at h
  cases h
  rfl

theorem attachMcpTools_builtFrom {toolsets : List (List (ToolSpec β))}
    {allowlist grants : Allowlist} {discovered : List (ToolSpec β)} {native : ToolRegistry β}
    (htoolsets : ∀ spec ∈ toolsets.flatten, spec.name ∈ NATIVE_TOOLS)
    (hnative : buildDefaultRegistry toolsets allowlist = .ok native)
    (h : attachMcpTools native discovered grants = .ok r) : r.BuiltFrom discovered := by
  have hspecs : native.specs = toolsets.flatten := new_specs hnative
  unfold attachMcpTools ToolRegistry.withMcpTools at h
  split_ifs at h
  · cases h
    exact fun spec hspec => .inl (htoolsets spec (hspecs ▸ hspec))
  · intro spec hspec
    rw [new_specs h, mem_append, hspecs] at hspec
    exact hspec.imp_left (htoolsets spec)

theorem IsKnown.cases (h : IsKnown name) (hparse : parseMcpToolName name = some (s, t)) :
    IsMcpName name s t := by
  rcases h with hnative | ⟨s', t', hmcp⟩
  · rw [(native_wire hnative).2.2.1] at hparse
    cases hparse
  · have hparts := Option.some.inj (hmcp.parse.symm.trans hparse)
    obtain ⟨rfl, rfl⟩ := Prod.mk.inj hparts
    exact hmcp

theorem get_iff : r.get name = some spec ↔ spec ∈ r.specs ∧ spec.name = name := by
  unfold ToolRegistry.get
  constructor
  · intro h
    have hname := List.find?_some h
    exact ⟨mem_of_find?_eq_some h, of_decide_eq_true hname⟩
  · rintro ⟨hspec, rfl⟩
    cases hfound : r.specs.find? fun other => other.name = spec.name with
    | none =>
      exact absurd (decide_eq_true rfl) (List.find?_eq_none.mp hfound spec hspec)
    | some other =>
      have hname := List.find?_some hfound
      rw [inj_on_of_nodup_map r.distinct (mem_of_find?_eq_some hfound) hspec
        (of_decide_eq_true hname)]

theorem IsMcpName.isDoubled_wire (h : IsMcpName name s t) : IsDoubled (Tools.toWire name) := by
  unfold IsDoubled
  rw [h.toWire]
  exact ⟨"mcp".toList, s.toList ++ '_' :: '_' :: t.toList, rfl⟩

theorem get_wire (hknown : ∀ spec ∈ r.specs, IsKnown spec.name) (h : IsMcpName name s t) :
    r.get (toWire name) = none := by
  refine Option.eq_none_iff_forall_ne_some.mpr fun spec hspec => ?_
  obtain ⟨hmem, hname⟩ := get_iff.mp hspec
  rcases hknown spec hmem with hnative | ⟨s', t', hmcp⟩
  · rw [hname] at hnative
    exact (native_wire hnative).2.1 h.isDoubled_wire
  · have hcolon : ':' ∈ spec.name.toList := by
      rw [hmcp.toList]
      exact mem_append_left _ (by decide)
    rw [hname, toWire, String.toList_ofList] at hcolon
    exact notMem_expand (by decide) hcolon

theorem resolve_wire (hknown : ∀ spec ∈ r.specs, IsKnown spec.name) (h : IsMcpName name s t) :
    r.resolve (toWire name) = r.get (fromWire (toWire name)) := by
  unfold ToolRegistry.resolve
  rw [get_wire hknown h, Option.none_or]
  exact if_pos h.isDoubled_wire

theorem wireName_inj (hknown : ∀ spec ∈ r.specs, IsKnown spec.name) (h : r.Unambiguous)
    {spec spec' : ToolSpec β} (hspec : spec ∈ r.specs) (hspec' : spec' ∈ r.specs)
    (heq : toWire spec.name = toWire spec'.name) : spec.name = spec'.name := by
  have hmixed : ∀ {name name' s t : String}, name ∈ NATIVE_TOOLS → IsMcpName name' s t →
      toWire name ≠ toWire name' := by
    intro name name' s t hnative hmcp hwire
    have hdoubled := hmcp.isDoubled_wire
    rw [← hwire, (native_wire hnative).1] at hdoubled
    exact (native_wire hnative).2.1 hdoubled
  rcases hknown spec hspec with hnative | ⟨s, t, hmcp⟩
  · rcases hknown spec' hspec' with hnative' | ⟨s', t', hmcp'⟩
    · rw [(native_wire hnative).1, (native_wire hnative').1] at heq
      exact heq
    · exact absurd heq (hmixed hnative hmcp')
  · rcases hknown spec' hspec' with hnative' | ⟨s', t', hmcp'⟩
    · exact absurd heq.symm (hmixed hnative' hmcp)
    · rcases (hmcp.toWire_eq_iff hmcp').mp heq with hname | ⟨u, hs, ht⟩ | ⟨u, hs, ht⟩
      · exact hname
      · exact absurd ht (h.unsplit spec hspec spec' hspec' s t s' t' u hmcp.parse hmcp'.parse hs)
      · exact absurd ht (h.unsplit spec' hspec' spec hspec s' t' s t u hmcp'.parse hmcp.parse hs)

theorem resolves (hknown : ∀ spec ∈ r.specs, IsKnown spec.name) (h : r.Unambiguous)
    {agent : AgentName} (hspec : spec ∈ r.specs)
    (hallowed : spec.name ∈ r.allowlist agent) : r.resolve spec.wireName = some spec := by
  change r.resolve (toWire spec.name) = some spec
  rcases hknown spec hspec with hnative | ⟨s, t, hmcp⟩
  · unfold ToolRegistry.resolve
    rw [(native_wire hnative).1, get_iff.mpr ⟨hspec, rfl⟩]
    rfl
  · rw [resolve_wire hknown hmcp, get_iff]
    exact ⟨hspec, (hmcp.fromWire_toWire_iff.mpr
      (h.undoubled agent spec.name hallowed s t hmcp.parse)).symm⟩

theorem requireAllowed_of_resolve {agent : AgentName}
    (h : r.resolve name = some spec) (hallowed : spec.name ∈ r.allowlist agent) :
    r.requireAllowed agent name = .ok spec := by
  unfold ToolRegistry.requireAllowed
  rw [h]
  exact if_pos hallowed

/-- **Wire names identify tools** in a registry of native and discovered tools exactly when the
names of its MCP tools are unambiguous. -/
theorem wire_names_identify_iff (proxy : MCPServerDef → String → σ → Option β)
    (servers : MCPServerRegistry) (listTools : MCPServerDef → Option (List (MCPToolDescriptor σ)))
    (hbuilt : r.BuiltFrom (discover proxy servers listTools)) :
    r.WireNamesIdentify ↔ r.Unambiguous := by
  have hknown : ∀ spec ∈ r.specs, IsKnown spec.name := fun spec hspec =>
    (hbuilt spec hspec).imp_right isKnown_of_discover
  have hspecs : r.specs.Nodup := r.distinct.of_map _
  constructor
  · intro h
    refine ⟨fun spec hspec s t hparse => ?_, fun agent name hallowed s t hparse => ?_,
      fun spec hspec spec' hspec' s t s' t' u hparse hparse' hs ht => ?_⟩
    · have hmcp : IsMcpName spec.name s t := (hknown spec hspec).cases hparse
      exact hmcp.charset_iff.mp (h.charset spec hspec)
    · obtain ⟨spec, hspec, rfl⟩ :=
        mem_map.mp (r.registered agent (mem_agents agent) name hallowed)
      have hmcp : IsMcpName spec.name s t := (hknown spec hspec).cases hparse
      have hresolved : r.resolve (toWire spec.name) = some spec :=
        (h.resolved agent spec hspec hallowed).1
      rw [resolve_wire hknown hmcp] at hresolved
      exact hmcp.fromWire_toWire_iff.mp (get_iff.mp hresolved).2.symm
    · -- Both names have one wire name, so both specs are one.
      have hmcp : IsMcpName spec.name s t := (hknown spec hspec).cases hparse
      have hmcp' : IsMcpName spec'.name s' t' := (hknown spec' hspec').cases hparse'
      have hwire : spec.wireName = spec'.wireName :=
        (hmcp.toWire_eq_iff hmcp').mpr (.inr (.inl ⟨u, hs, ht⟩))
      have hsame := (nodup_map_iff_inj_on hspecs).mp h.distinct spec hspec spec' hspec' hwire
      subst hsame
      have hparts := Prod.mk.inj (Option.some.inj (hparse.symm.trans hparse'))
      have hlength := congrArg (fun text : String => text.toList.length) (hparts.1.trans hs)
      rw [toList_doubled, length_append, length_cons] at hlength
      omega
  · intro h
    refine ⟨?_, fun spec hspec => ?_, fun agent spec hspec hallowed => ?_⟩
    · refine (nodup_map_iff_inj_on hspecs).mpr fun spec hspec spec' hspec' heq => ?_
      exact inj_on_of_nodup_map r.distinct hspec hspec' (wireName_inj hknown h hspec hspec' heq)
    · rcases hknown spec hspec with hnative | ⟨s, t, hmcp⟩
      · have hwire : spec.wireName = spec.name := (native_wire hnative).1
        rw [hwire]
        exact (native_wire hnative).2.2.2
      · exact hmcp.charset_iff.mpr (h.plain spec hspec s t hmcp.parse)
    · have hresolved := resolves hknown h hspec hallowed
      exact ⟨hresolved, requireAllowed_of_resolve hresolved hallowed⟩

/-! ## Two deployments -/

def localServer (name tool : String) : ServerFields where
  name := name
  enabled := true
  exposes := {tool}
  command := "serve"

theorem files_valid : (localServer "files" "read_file").accepted = true := by decide

theorem short_valid : (localServer "a" "b__c").accepted = true := by decide

theorem long_valid : (localServer "a__b" "c").accepted = true := by decide

theorem long_not_mem : "a" ∉ ["a__b"] := by decide

def filesServers : MCPServerRegistry := ⟨[⟨_, files_valid⟩], nodup_singleton _⟩

def splitServers : MCPServerRegistry :=
  ⟨[⟨_, short_valid⟩, ⟨_, long_valid⟩], nodup_cons.mpr ⟨long_not_mem, nodup_singleton _⟩⟩

def discovered (servers : MCPServerRegistry) : List (ToolSpec Unit) :=
  discover (fun _ _ _ => some ()) servers fun _ =>
    some [⟨"read_file", ()⟩, ⟨"b__c", ()⟩, ⟨"c", ()⟩]

/-- The native tool `fetch`, and the tools of the servers, granted to the collector. -/
def deployed (servers : MCPServerRegistry) : Except RegistryError (ToolRegistry Unit) := do
  let native ← buildDefaultRegistry [[⟨"fetch", ()⟩]] AGENT_TOOL_ALLOWLIST
  attachMcpTools native (discovered servers) fun agent =>
    if agent = .collector then (discovered servers).map ToolSpec.name else []

theorem wire_names_identify_files :
    ∃ r, deployed filesServers = .ok r ∧ r.names = ["fetch", "mcp:files:read_file"] ∧
      (r.WireNamesIdentify ↔ r.Unambiguous) := by
  obtain ⟨hok, hfacts⟩ : (deployed filesServers).toOption.isSome = true ∧
      ∀ r ∈ (deployed filesServers).toOption, r.names = ["fetch", "mcp:files:read_file"] ∧
        ∀ spec ∈ r.specs, spec.name ∈ NATIVE_TOOLS ∨ spec ∈ discovered filesServers := by
    decide +kernel
  obtain ⟨r, hr⟩ := Option.isSome_iff_exists.mp hok
  obtain ⟨hnames, hbuilt⟩ := hfacts r hr
  exact ⟨r, ok_of_toOption hr, hnames,
    wire_names_identify_iff (fun _ _ _ => some ()) filesServers _ hbuilt⟩

/-- Two tools share one wire name, and neither can be called under it. -/
theorem wire_names_collide :
    ∃ r, deployed splitServers = .ok r ∧ r.BuiltFrom (discovered splitServers) ∧
      r.names = ["fetch", "mcp:a:b__c", "mcp:a__b:c"] ∧
      r.specs.map ToolSpec.wireName = ["fetch", "mcp__a__b__c", "mcp__a__b__c"] ∧
      ∀ spec ∈ r.specs.drop 1, spec.name ∈ r.allowlist .collector ∧
        r.resolve spec.wireName = none := by
  obtain ⟨hok, hfacts⟩ : (deployed splitServers).toOption.isSome = true ∧
      ∀ r ∈ (deployed splitServers).toOption,
        (∀ spec ∈ r.specs, spec.name ∈ NATIVE_TOOLS ∨ spec ∈ discovered splitServers) ∧
      r.names = ["fetch", "mcp:a:b__c", "mcp:a__b:c"] ∧
      r.specs.map ToolSpec.wireName = ["fetch", "mcp__a__b__c", "mcp__a__b__c"] ∧
      ∀ spec ∈ r.specs.drop 1, spec.name ∈ r.allowlist .collector ∧
        r.resolve spec.wireName = none := by
    decide +kernel
  obtain ⟨r, hr⟩ := Option.isSome_iff_exists.mp hok
  exact ⟨r, ok_of_toOption hr, hfacts r hr⟩

end OmniSense.Tools
