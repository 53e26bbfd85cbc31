import Mathlib.Algebra.Order.Ring.Rat
import Mathlib.Data.Finset.Sort
import Mathlib.Data.String.Basic
import OmniSense.Library.Dict
import OmniSense.Models.Common

/-! One metadata filter and its three dialects. The predicates carry the meaning, the emitters
regroup them for OpenSearch, Qdrant and Cypher. -/

namespace OmniSense.Retrieval

open Library

inductive SourceCategory
  | social | reviews | enterprise | research | news | unknown
  deriving DecidableEq, Repr

def SourceCategory.value : SourceCategory → String
  | .social => "social"
  | .reviews => "reviews"
  | .enterprise => "enterprise"
  | .research => "research"
  | .news => "news"
  | .unknown => "unknown"

inductive Platform
  | reddit | x | youtube | instagram | tiktok | linkedin
  | amazon | playStore | appStore | trustpilot | googleReviews
  | slack | jira | confluence | notion | github | salesforce | hubspot
  | arxiv | semanticScholar | papersWithCode
  | rss | gdelt | newsApi
  | unknown
  deriving DecidableEq, Repr

def Platform.value : Platform → String
  | .reddit => "reddit"
  | .x => "x"
  | .youtube => "youtube"
  | .instagram => "instagram"
  | .tiktok => "tiktok"
  | .linkedin => "linkedin"
  | .amazon => "amazon"
  | .playStore => "play_store"
  | .appStore => "app_store"
  | .trustpilot => "trustpilot"
  | .googleReviews => "google_reviews"
  | .slack => "slack"
  | .jira => "jira"
  | .confluence => "confluence"
  | .notion => "notion"
  | .github => "github"
  | .salesforce => "salesforce"
  | .hubspot => "hubspot"
  | .arxiv => "arxiv"
  | .semanticScholar => "semantic_scholar"
  | .papersWithCode => "papers_with_code"
  | .rss => "rss"
  | .gdelt => "gdelt"
  | .newsApi => "news_api"
  | .unknown => "unknown"

/-- A `datetime`: the clock reading in microseconds and, when it is aware, its UTC offset. -/
structure Datetime where
  wall : ℤ
  utcoffset : Option ℤ
  deriving DecidableEq, Repr

def Datetime.instant (t : Datetime) : ℤ := t.wall - t.utcoffset.getD 0

def Datetime.isAware (t : Datetime) : Bool := t.utcoffset.isSome

structure Filter where
  publishedAfter : Option Datetime
  publishedBefore : Option Datetime
  platforms : Finset Platform
  sources : Finset SourceCategory
  languages : Finset String
  entityIds : Finset String
  minConfidence : Option ℚ
  tenantId : String

inductive FilterField
  | tenantId | publishedAt | platform | source | language | entityIds | confidence
  deriving DecidableEq, Repr

def FilterField.value : FilterField → String
  | .tenantId => "tenant_id"
  | .publishedAt => "published_at"
  | .platform => "platform"
  | .source => "source"
  | .language => "language"
  | .entityIds => "entity_ids"
  | .confidence => "confidence"

def filterFields : List FilterField :=
  [.tenantId, .publishedAt, .platform, .source, .language, .entityIds, .confidence]

inductive Operator
  | equals | anyOf | containsAny | gte | lt
  deriving DecidableEq, Repr

def Operator.value : Operator → String
  | .equals => "equals"
  | .anyOf => "any_of"
  | .containsAny => "contains_any"
  | .gte => "gte"
  | .lt => "lt"

inductive Bound
  | time (t : Datetime)
  | num (q : ℚ)
  deriving DecidableEq

inductive Comparison
  | equals (value : String)
  | anyOf (values : List String) (nonempty : values ≠ [])
  | containsAny (values : List String) (nonempty : values ≠ [])
  | gte (bound : Bound)
  | lt (bound : Bound)
  deriving DecidableEq

def Comparison.op : Comparison → Operator
  | .equals _ => .equals
  | .anyOf .. => .anyOf
  | .containsAny .. => .containsAny
  | .gte _ => .gte
  | .lt _ => .lt

structure Predicate where
  field : FilterField
  test : Comparison
  deriving DecidableEq

/-! ## `compile_predicates` -/

inductive FilterError
  | blankTenant
  | naive (label : String)
  deriving DecidableEq, Repr

def requireAware (value : Datetime) (label : String) : Except FilterError Datetime :=
  if value.isAware then .ok value else .error (.naive label)

variable {α : Type*}

def sortedValues (value : α → String) (values : Finset α) : List String :=
  (values.val.map value).sort (· ≤ ·)

theorem sortedValues_ne_nil (value : α → String) {values : Finset α}
    (h : values ≠ ∅) : sortedValues value values ≠ [] := by
  intro hnil
  have hcard := congrArg List.length hnil
  rw [sortedValues, Multiset.length_sort, Multiset.card_map] at hcard
  exact h (Finset.card_eq_zero.mp hcard)

def windowBound (test : Bound → Comparison) (label : String) :
    Option Datetime → Except FilterError (List Predicate)
  | none => .ok []
  | some t => (requireAware t label).map fun t => [⟨.publishedAt, test (.time t)⟩]

def memberPredicate [DecidableEq α] (field : FilterField) (value : α → String)
    (test : (values : List String) → values ≠ [] → Comparison) (values : Finset α) :
    List Predicate :=
  if h : values = ∅ then [] else [⟨field, test _ (sortedValues_ne_nil value h)⟩]

def confidencePredicate : Option ℚ → List Predicate
  | none => []
  | some q => [⟨.confidence, .gte (.num q)⟩]

def compilePredicates (f : Filter) : Except FilterError (List Predicate) :=
  if f.tenantId = "" ∨ strip f.tenantId = "" then .error .blankTenant
  else do
    let after ← windowBound .gte "published_after" f.publishedAfter
    let before ← windowBound .lt "published_before" f.publishedBefore
    .ok (⟨.tenantId, .equals f.tenantId⟩ :: (after ++ before ++
      memberPredicate .platform Platform.value .anyOf f.platforms ++
      memberPredicate .source SourceCategory.value .anyOf f.sources ++
      memberPredicate .language id .anyOf f.languages ++
      memberPredicate .entityIds id .containsAny f.entityIds ++
      confidencePredicate f.minConfidence))

/-! ## Documents and what a predicate asks of them -/

inductive Stored
  | str (s : String)
  | time (instant : ℤ)
  | num (q : ℚ)
  | strs (xs : List String)
  deriving DecidableEq

def Stored.elements : Option Stored → List Stored
  | none => []
  | some (.strs xs) => xs.map .str
  | some v => [v]

structure Document where
  tenantId : Option String
  publishedAt : Option ℤ
  platform : Option String
  source : Option String
  language : Option String
  entityIds : Option (List String)
  confidence : Option ℚ

namespace Document

variable (d : Document)

def get : FilterField → Option Stored
  | .tenantId => d.tenantId.map .str
  | .publishedAt => d.publishedAt.map .time
  | .platform => d.platform.map .str
  | .source => d.source.map .str
  | .language => d.language.map .str
  | .entityIds => d.entityIds.map .strs
  | .confidence => d.confidence.map .num

def lookup (name : String) : Option Stored :=
  (filterFields.find? fun field => field.value = name).bind d.get

def values (name : String) : List Stored := Stored.elements (d.lookup name)

theorem lookup_value (field : FilterField) : d.lookup field.value = d.get field := by
  have hfind : filterFields.find? (fun other => other.value = field.value) = some field := by
    cases field <;> decide
  unfold lookup
  rw [hfind]
  rfl

end Document

def Bound.atMost : Bound → Stored → Bool
  | .time t, .time i => t.instant ≤ i
  | .num q, .num c => q ≤ c
  | _, _ => false

def Bound.above : Bound → Stored → Bool
  | .time t, .time i => i < t.instant
  | .num q, .num c => c < q
  | _, _ => false

def Predicate.holds (p : Predicate) (d : Document) : Bool :=
  (d.get p.field).any fun stored =>
    match p.test with
    | .equals v => stored = .str v
    | .anyOf vs _ => vs.any fun v => stored = .str v
    | .containsAny vs _ =>
      match stored with
      | .strs xs => xs.any fun x => x ∈ vs
      | _ => false
    | .gte b => b.atMost stored
    | .lt b => b.above stored

/-! ## The shape of a compiled filter -/

inductive Predicate.Compiled : Predicate → Prop
  | tenant (v : String) : Compiled ⟨.tenantId, .equals v⟩
  | after {t : Datetime} (h : t.isAware = true) : Compiled ⟨.publishedAt, .gte (.time t)⟩
  | before {t : Datetime} (h : t.isAware = true) : Compiled ⟨.publishedAt, .lt (.time t)⟩
  | platform (vs : List String) (h : vs ≠ []) : Compiled ⟨.platform, .anyOf vs h⟩
  | source (vs : List String) (h : vs ≠ []) : Compiled ⟨.source, .anyOf vs h⟩
  | language (vs : List String) (h : vs ≠ []) : Compiled ⟨.language, .anyOf vs h⟩
  | entities (vs : List String) (h : vs ≠ []) : Compiled ⟨.entityIds, .containsAny vs h⟩
  | confidence (q : ℚ) : Compiled ⟨.confidence, .gte (.num q)⟩

def Predicate.dimension (p : Predicate) : FilterField × Operator := (p.field, p.test.op)

def dimensions : List (FilterField × Operator) :=
  [(.tenantId, .equals), (.publishedAt, .gte), (.publishedAt, .lt), (.platform, .anyOf),
    (.source, .anyOf), (.language, .anyOf), (.entityIds, .containsAny), (.confidence, .gte)]

/-- A filter that `compile_predicates` does not refuse. -/
structure Filter.Admissible (f : Filter) : Prop where
  tenant : strip f.tenantId ≠ ""
  after : ∀ t, f.publishedAfter = some t → t.isAware = true
  before : ∀ t, f.publishedBefore = some t → t.isAware = true

section

variable {test : Bound → Comparison} {label : String} {bound : Option Datetime}

theorem windowBound_ok (h : ∀ t, bound = some t → t.isAware = true) :
    windowBound test label bound =
      .ok (bound.toList.map fun t => ⟨.publishedAt, test (.time t)⟩) := by
  cases bound with
  | none => rfl
  | some t =>
    have haware : requireAware t label = .ok t := if_pos (h t rfl)
    change Except.map _ (requireAware t label) = _
    rw [haware]
    rfl

theorem windowBound_compiled (h : ∀ t, bound = some t → t.isAware = true) {op : Operator}
    (htest : ∀ t, t.isAware = true →
      Predicate.Compiled ⟨.publishedAt, test (.time t)⟩ ∧ (test (.time t)).op = op) :
    let ps := bound.toList.map fun t => (⟨.publishedAt, test (.time t)⟩ : Predicate)
    (∀ p ∈ ps, p.Compiled) ∧ (ps.map Predicate.dimension).Sublist [(.publishedAt, op)] := by
  cases bound with
  | none => exact ⟨by simp, List.nil_sublist _⟩
  | some t =>
    obtain ⟨hp, rfl⟩ := htest t (h t rfl)
    exact ⟨by simpa using hp, .refl _⟩

theorem memberPredicate_compiled [DecidableEq α] {field : FilterField} {op : Operator}
    (value : α → String) {test : (values : List String) → values ≠ [] → Comparison}
    (values : Finset α)
    (htest : ∀ vs h, Predicate.Compiled ⟨field, test vs h⟩ ∧ (test vs h).op = op) :
    let ps := memberPredicate field value test values
    (∀ p ∈ ps, p.Compiled) ∧ (ps.map Predicate.dimension).Sublist [(field, op)] := by
  unfold memberPredicate
  split_ifs with h
  · exact ⟨by simp, List.nil_sublist _⟩
  · obtain ⟨hp, rfl⟩ := htest _ (sortedValues_ne_nil value h)
    exact ⟨by simpa using hp, .refl _⟩

theorem confidencePredicate_compiled (q : Option ℚ) :
    (∀ p ∈ confidencePredicate q, p.Compiled) ∧
      ((confidencePredicate q).map Predicate.dimension).Sublist [(.confidence, .gte)] := by
  cases q with
  | none => exact ⟨by simp [confidencePredicate], List.nil_sublist _⟩
  | some q => exact ⟨by simpa [confidencePredicate] using .confidence q, .refl _⟩

end

theorem compilePredicates_ok {f : Filter} (hf : f.Admissible) :
    compilePredicates f = .ok (⟨.tenantId, .equals f.tenantId⟩ ::
      (f.publishedAfter.toList.map (fun t => ⟨.publishedAt, .gte (.time t)⟩) ++
        f.publishedBefore.toList.map (fun t => ⟨.publishedAt, .lt (.time t)⟩) ++
        memberPredicate .platform Platform.value .anyOf f.platforms ++
        memberPredicate .source SourceCategory.value .anyOf f.sources ++
        memberPredicate .language id .anyOf f.languages ++
        memberPredicate .entityIds id .containsAny f.entityIds ++
        confidencePredicate f.minConfidence)) := by
  have htenant : ¬(f.tenantId = "" ∨ strip f.tenantId = "") := by
    rintro (h | h)
    · have hempty : strip "" = "" := rfl
      refine hf.tenant ?_
      rw [h]
      exact hempty
    · exact hf.tenant h
  unfold compilePredicates
  rw [if_neg htenant, windowBound_ok hf.after, windowBound_ok hf.before]
  rfl

theorem compilePredicates_compiled {f : Filter} (hf : f.Admissible) {ps : List Predicate}
    (h : compilePredicates f = .ok ps) :
    (∀ p ∈ ps, p.Compiled) ∧ (ps.map Predicate.dimension).Sublist dimensions := by
  rw [compilePredicates_ok hf] at h
  cases h
  have hafter := windowBound_compiled hf.after fun t ht => ⟨.after ht, rfl⟩
  have hbefore := windowBound_compiled hf.before fun t ht => ⟨.before ht, rfl⟩
  have hplatform := memberPredicate_compiled Platform.value f.platforms
    fun vs h => ⟨.platform vs h, rfl⟩
  have hsource := memberPredicate_compiled SourceCategory.value f.sources
    fun vs h => ⟨.source vs h, rfl⟩
  have hlanguage := memberPredicate_compiled id f.languages fun vs h => ⟨.language vs h, rfl⟩
  have hentities := memberPredicate_compiled id f.entityIds fun vs h => ⟨.entities vs h, rfl⟩
  have hconfidence := confidencePredicate_compiled f.minConfidence
  constructor
  · intro p hp
    simp only [List.mem_cons, List.mem_append] at hp
    rcases hp with rfl | (((((hp | hp) | hp) | hp) | hp) | hp) | hp
    · exact .tenant _
    · exact hafter.1 p hp
    · exact hbefore.1 p hp
    · exact hplatform.1 p hp
    · exact hsource.1 p hp
    · exact hlanguage.1 p hp
    · exact hentities.1 p hp
    · exact hconfidence.1 p hp
  · rw [List.map_cons]
    simp only [List.map_append]
    exact .cons_cons _ ((((((hafter.2.append hbefore.2).append hplatform.2).append hsource.2).append
      hlanguage.2).append hentities.2).append hconfidence.2)

end OmniSense.Retrieval
