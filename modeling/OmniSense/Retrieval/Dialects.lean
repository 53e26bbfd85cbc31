import Mathlib.Logic.Equiv.Nat
import OmniSense.Retrieval.Filters

/-! The three emitters and what each store is documented to select. Bounds of one field are grouped
into one clause; a Cypher clause refers to its value by a parameter name. -/

namespace OmniSense.Retrieval

open Library List Predicate Document

/-! ## Grouped bounds -/

section

variable {κ ι ν β : Type*} [DecidableEq κ] [DecidableEq ι]

/-- `groups.setdefault(k, {})[i] = v`. -/
def setIn (groups : Dict κ (Dict ι ν)) (k : κ) (i : ι) (v : ν) : Dict κ (Dict ι ν) :=
  groups.alter k fun old => (old.getD .empty).set i v

def Within (values : κ → List β) (meets : ι → ν → β → Bool) (groups : Dict κ (Dict ι ν)) : Prop :=
  ∀ e ∈ groups.items, ∃ x ∈ values e.1, ∀ b ∈ e.2.items, meets b.1 b.2 x = true

theorem within_iff {values : κ → List β} {meets : ι → ν → β → Bool} {groups : Dict κ (Dict ι ν)} :
    Within values meets groups ↔ ∀ k bounds, groups.get? k = some bounds →
      ∃ x ∈ values k, ∀ i v, bounds.get? i = some v → meets i v x = true := by
  have hinner : ∀ (bounds : Dict ι ν) (x : β), (∀ b ∈ bounds.items, meets b.1 b.2 x = true) ↔
      ∀ i v, bounds.get? i = some v → meets i v x = true := fun bounds x =>
    ⟨fun h i v hv => h (i, v) (Dict.mem_items_iff.mpr hv),
      fun h b hb => h b.1 b.2 (Dict.mem_items_iff.mp hb)⟩
  simp only [Within, hinner]
  exact ⟨fun h k bounds hk => h (k, bounds) (Dict.mem_items_iff.mpr hk),
    fun h e he => h e.1 e.2 (Dict.mem_items_iff.mp he)⟩

omit [DecidableEq κ] [DecidableEq ι] in
theorem within_empty (values : κ → List β) (meets : ι → ν → β → Bool) :
    Within values meets .empty := by
  intro e he
  cases he

theorem within_setIn {values : κ → List β} {meets : ι → ν → β → Bool}
    {groups : Dict κ (Dict ι ν)} {k : κ} {i : ι} {v : ν}
    (hone : ∀ x ∈ values k, ∀ y ∈ values k, ∀ i j u v, meets i u x = true → meets j v y = true →
      x = y)
    (hfresh : ∀ bounds, groups.get? k = some bounds → bounds.get? i = none) :
    Within values meets (setIn groups k i v) ↔
      Within values meets groups ∧ ∃ x ∈ values k, meets i v x = true := by
  -- A new bound is one more condition, where a key has at most one value that bounds apply to.
  rw [within_iff, within_iff]
  have hget : ∀ k', (setIn groups k i v).get? k' =
      if k' = k then some (((groups.get? k).getD .empty).set i v) else groups.get? k' :=
    fun k' => Dict.get?_alter ..
  constructor
  · intro h
    obtain ⟨x, hx, hall⟩ := h k _ (by rw [hget, if_pos rfl])
    have hnew : meets i v x = true := hall i v (by rw [Dict.get?_set, if_pos rfl])
    refine ⟨fun k' bounds hk' => ?_, x, hx, hnew⟩
    by_cases hk : k' = k
    · subst hk
      refine ⟨x, hx, fun j u hu => hall j u ?_⟩
      have hj : j ≠ i := by
        rintro rfl
        rw [hfresh bounds hk'] at hu
        cases hu
      rw [Dict.get?_set, if_neg hj, hk', Option.getD_some, hu]
    · exact h k' bounds (by rw [hget, if_neg hk, hk'])
  · rintro ⟨hold, y, hy, hnew⟩ k' bounds hk'
    rw [hget] at hk'
    split_ifs at hk' with hk
    · subst hk
      cases hk'
      refine ⟨y, hy, fun j u hu => ?_⟩
      rw [Dict.get?_set] at hu
      split_ifs at hu with hj
      · rw [hj, ← Option.some.inj hu]
        exact hnew
      · cases hg : groups.get? k' with
        | none =>
          rw [hg] at hu
          cases hu
        | some old =>
          rw [hg] at hu
          obtain ⟨x, hx, hall⟩ := hold k' old hg
          have hmeets : meets j u x = true := hall j u hu
          rwa [hone y hy x hx i j v u hnew hmeets]
    · exact hold k' bounds hk'

end

/-! ## OpenSearch -/

/-- `datetime.isoformat`, and the reading of ISO dates by a `date` field. -/
structure IsoDates where
  isoformat : Datetime → String
  parse : String → Option ℤ

inductive OsScalar
  | str (s : String)
  | num (q : ℚ)
  deriving DecidableEq

inductive OsClause
  | term (name value : String)
  | terms (name : String) (values : List String)
  | range (name : String) (bounds : Dict String OsScalar)

namespace IsoDates

variable (dates : IsoDates)

def osScalar : Bound → OsScalar
  | .time t => .str (dates.isoformat t)
  | .num q => .num q

/-- One bound of a `range`, on an indexed value: a `date` field parses the bound. -/
def inRange (op : String) (bound : OsScalar) (stored : Stored) : Bool :=
  match stored, bound with
  | .time i, .str s => (dates.parse s).any fun t =>
      if op = "gte" then t ≤ i else if op = "lt" then i < t else false
  | .num c, .num q => if op = "gte" then q ≤ c else if op = "lt" then c < q else false
  | _, _ => false

def osStep (acc : List OsClause × Dict String (Dict String OsScalar)) (p : Predicate) :
    List OsClause × Dict String (Dict String OsScalar) :=
  match p.test with
  | .equals v => (acc.1 ++ [.term p.field.value v], acc.2)
  | .anyOf vs _ => (acc.1 ++ [.terms p.field.value vs], acc.2)
  | .containsAny vs _ => (acc.1 ++ [.terms p.field.value vs], acc.2)
  | .gte b => (acc.1, setIn acc.2 p.field.value p.test.op.value (dates.osScalar b))
  | .lt b => (acc.1, setIn acc.2 p.field.value p.test.op.value (dates.osScalar b))

def opensearchClauses (ps : List Predicate) : List OsClause :=
  let (clauses, ranges) := ps.foldl dates.osStep ([], .empty)
  clauses ++ ranges.items.map fun e => .range e.1 e.2

def compileOpensearch (f : Filter) : Except FilterError (List OsClause) :=
  (compilePredicates f).map dates.opensearchClauses

/-- A clause in the `filter` array of a `bool` query. -/
def osSelects (d : Document) : OsClause → Bool
  | .term name value => (d.values name).any fun v => v = .str value
  | .terms name values => (d.values name).any fun v => values.any fun value => v = .str value
  | .range name bounds => (d.values name).any fun v =>
      bounds.items.all fun b => dates.inRange b.1 b.2 v

end IsoDates

/-! ## Qdrant -/

inductive QdrantCondition
  | matchValue (key value : String)
  | matchAny (key : String) (any : List String)
  | datetimeRange (key : String) (bounds : Dict String Datetime)
  | range (key : String) (bounds : Dict String ℚ)

/-- `conditions`, `datetime_bounds` and `numeric_bounds`. -/
structure QdrantState where
  conditions : List QdrantCondition
  datetimeBounds : Dict String (Dict String Datetime)
  numericBounds : Dict String (Dict String ℚ)

def QdrantState.bound (acc : QdrantState) (name op : String) : Bound → QdrantState
  | .time t => { acc with datetimeBounds := setIn acc.datetimeBounds name op t }
  | .num q => { acc with numericBounds := setIn acc.numericBounds name op q }

def QdrantState.step (acc : QdrantState) (p : Predicate) : QdrantState :=
  match p.test with
  | .equals v => { acc with conditions := acc.conditions ++ [.matchValue p.field.value v] }
  | .anyOf vs _ => { acc with conditions := acc.conditions ++ [.matchAny p.field.value vs] }
  | .containsAny vs _ => { acc with conditions := acc.conditions ++ [.matchAny p.field.value vs] }
  | .gte b => acc.bound p.field.value p.test.op.value b
  | .lt b => acc.bound p.field.value p.test.op.value b

def qdrantConditions (ps : List Predicate) : List QdrantCondition :=
  let acc := ps.foldl QdrantState.step ⟨[], .empty, .empty⟩
  acc.conditions ++ acc.datetimeBounds.items.map (fun e => .datetimeRange e.1 e.2) ++
    acc.numericBounds.items.map fun e => .range e.1 e.2

def compileQdrant (f : Filter) : Except FilterError (List QdrantCondition) :=
  (compilePredicates f).map qdrantConditions

def inDatetimeRange (op : String) (bound : Datetime) (stored : Stored) : Bool :=
  match stored with
  | .time i =>
    if op = "gte" then bound.instant ≤ i else if op = "lt" then i < bound.instant else false
  | _ => false

def inNumericRange (op : String) (bound : ℚ) (stored : Stored) : Bool :=
  match stored with
  | .num c => if op = "gte" then bound ≤ c else if op = "lt" then c < bound else false
  | _ => false

/-- A condition in `must`; on a list it asks for one element. -/
def QdrantCondition.selects (d : Document) : QdrantCondition → Bool
  | .matchValue key value => (d.values key).any fun v => v = .str value
  | .matchAny key values => (d.values key).any fun v => values.any fun value => v = .str value
  | .datetimeRange key bounds => (d.values key).any fun v =>
      bounds.items.all fun b => inDatetimeRange b.1 b.2 v
  | .range key bounds => (d.values key).any fun v =>
      bounds.items.all fun b => inNumericRange b.1 b.2 v

/-! ## Cypher -/

def cypherParamPrefix : String := "flt_"

inductive CypherValue
  | str (s : String)
  | strs (xs : List String)
  | bound (b : Bound)
  deriving DecidableEq

inductive CypherClause
  | eq (name param : String)
  | isIn (name param : String)
  | mentions (param : String)
  | ge (name param : String)
  | lt (name param : String)
  deriving DecidableEq

def CypherClause.text : CypherClause → String
  | .eq name param => "s." ++ name ++ " = $" ++ param
  | .isIn name param => "s." ++ name ++ " IN $" ++ param
  | .mentions param =>
    "EXISTS \x7b MATCH (s)-[:MENTIONS]->(_fe) WHERE _fe.id IN $" ++ param ++ " \x7d"
  | .ge name param => "s." ++ name ++ " >= $" ++ param
  | .lt name param => "s." ++ name ++ " < $" ++ param

def CypherClause.param : CypherClause → String
  | .eq _ param => param
  | .isIn _ param => param
  | .mentions param => param
  | .ge _ param => param
  | .lt _ param => param

structure CypherFilter where
  clauses : List CypherClause
  parameters : Dict String CypherValue

namespace Predicate

def param (p : Predicate) : String :=
  cypherParamPrefix ++ p.field.value ++ "_" ++ p.test.op.value

def cypherClause (p : Predicate) : CypherClause :=
  match p.test with
  | .equals _ => .eq p.field.value p.param
  | .anyOf .. => .isIn p.field.value p.param
  | .containsAny .. => .mentions p.param
  | .gte _ => .ge p.field.value p.param
  | .lt _ => .lt p.field.value p.param

def cypherValue (p : Predicate) : CypherValue :=
  match p.test with
  | .equals v => .str v
  | .anyOf vs _ => .strs vs
  | .containsAny vs _ => .strs vs
  | .gte b => .bound b
  | .lt b => .bound b

end Predicate

def cypherFilter (ps : List Predicate) : CypherFilter :=
  ps.foldl (fun acc p =>
    ⟨acc.clauses ++ [p.cypherClause], acc.parameters.set p.param p.cypherValue⟩) ⟨[], .empty⟩

def compileCypher (f : Filter) : Except FilterError CypherFilter :=
  (compilePredicates f).map cypherFilter

namespace CypherFilter

def compare (test : Bound → Stored → Bool) (stored : Option Stored) (value : Option CypherValue) :
    Option Bool :=
  match stored, value with
  | some (.time i), some (.bound (.time t)) => some (test (.time t) (.time i))
  | some (.num c), some (.bound (.num q)) => some (test (.num q) (.num c))
  | _, _ => none

/-- The ids of the entities that a Signal node `MENTIONS`. -/
def mentioned (d : Document) : List String := d.entityIds.getD []

def property (d : Document) (name : String) : Option Stored :=
  if name = FilterField.entityIds.value then none else d.lookup name

def eval (c : CypherFilter) (d : Document) : CypherClause → Option Bool
  | .eq name param =>
    match property d name, c.parameters.get? param with
    | some (.str s), some (.str v) => some (s = v)
    | _, _ => none
  | .isIn name param =>
    match property d name, c.parameters.get? param with
    | some (.str s), some (.strs vs) => some (s ∈ vs)
    | _, _ => none
  | .mentions param =>
    match c.parameters.get? param with
    | some (.strs vs) => some ((mentioned d).any fun x => x ∈ vs)
    | _ => none
  | .ge name param => compare Bound.atMost (property d name) (c.parameters.get? param)
  | .lt name param => compare Bound.above (property d name) (c.parameters.get? param)

/-- `WHERE` keeps a row when the conjunction is true, not when it is null. -/
def conjunction : List (Option Bool) → Option Bool
  | [] => some true
  | some true :: rest => conjunction rest
  | some false :: _ => some false
  | none :: rest => if conjunction rest = some false then some false else none

def selects (c : CypherFilter) (d : Document) : Bool :=
  conjunction (c.clauses.map (c.eval d)) = some true

end CypherFilter

/-! ## Grouping keeps the meaning -/

theorem FilterField.value_injective : Function.Injective FilterField.value := by
  intro a b h
  cases a <;> cases b <;> first | rfl | exact absurd h (by decide)

theorem Operator.value_injective : Function.Injective Operator.value := by
  intro a b h
  cases a <;> cases b <;> first | rfl | exact absurd h (by decide)

def Ungrouped {ν : Type*} (groups : Dict String (Dict String ν)) (p : Predicate) : Prop :=
  ∀ bounds, groups.get? p.field.value = some bounds → bounds.get? p.test.op.value = none

theorem ungrouped_empty {ν : Type*} (p : Predicate) :
    Ungrouped (.empty : Dict String (Dict String ν)) p := by
  intro bounds h
  cases h

theorem Ungrouped.setIn {ν : Type*} {groups : Dict String (Dict String ν)} {p p' : Predicate}
    (h : Ungrouped groups p') (hne : p.dimension ≠ p'.dimension) (v : ν) :
    Ungrouped (setIn groups p.field.value p.test.op.value v) p' := by
  intro bounds hget
  unfold Retrieval.setIn at hget
  rw [Dict.get?_alter] at hget
  split_ifs at hget with hfield
  · cases hget
    have hop : p'.test.op.value ≠ p.test.op.value := fun hop => hne <|
      Prod.ext (FilterField.value_injective hfield.symm) (Operator.value_injective hop.symm)
    rw [Dict.get?_set, if_neg hop, ← hfield]
    cases hold : groups.get? p'.field.value with
    | none => rfl
    | some old => exact h old hold
  · exact h bounds hget

variable {ps : List Predicate}

theorem foldl_selects {σ : Type*} {step : σ → Predicate → σ} {selects : σ → Prop}
    {fresh : σ → Predicate → Prop} {d : Document} {aware : Predicate → Prop}
    (hstep : ∀ s p, aware p → fresh s p → (selects (step s p) ↔ selects s ∧ p.holds d = true))
    (hfresh : ∀ s p p', p.dimension ≠ p'.dimension → fresh s p' → fresh (step s p) p')
    {s : σ} (hall : ∀ p ∈ ps, aware p)
    (hnodup : (ps.map dimension).Nodup) (hnew : ∀ p ∈ ps, fresh s p) :
    selects (ps.foldl step s) ↔ selects s ∧ ∀ p ∈ ps, p.holds d = true := by
  induction ps generalizing s with
  | nil => simp
  | cons p ps ih =>
    obtain ⟨hp, hps⟩ := forall_mem_cons.mp hall
    obtain ⟨hnew, hnews⟩ := forall_mem_cons.mp hnew
    obtain ⟨hhead, htail⟩ := nodup_cons.mp (map_cons .. ▸ hnodup)
    have hkept : ∀ p' ∈ ps, fresh (step s p) p' := fun p' hp' =>
      hfresh s p p' (fun heq => hhead (heq ▸ mem_map_of_mem hp')) (hnews p' hp')
    rw [foldl_cons, ih hps htail hkept, hstep s p hp hnew, forall_mem_cons, and_assoc]

theorem Document.values_unique {d : Document} {name : String} {x y : Stored}
    (hx : x ∈ d.values name) (hy : y ∈ d.values name) (hxs : ∀ s, x ≠ .str s) : x = y := by
  unfold values at hx hy
  revert hx hy
  rcases d.lookup name with _ | stored
  · intro hx
    cases hx
  · cases stored with
    | strs xs =>
      intro hx
      obtain ⟨s, -, rfl⟩ := mem_map.mp hx
      exact absurd rfl (hxs s)
    | str | time | num =>
      exact fun hx hy => (mem_singleton.mp hx).trans (mem_singleton.mp hy).symm

theorem Document.values_value (d : Document) (field : FilterField) :
    d.values field.value = Stored.elements (d.get field) := by
  unfold values
  rw [lookup_value]

theorem Stored.any_str (value : Option String) (f : Stored → Bool) :
    (Stored.elements (value.map .str)).any f = (value.map .str).any f := by
  cases value <;> simp [Stored.elements]

/-! ## OpenSearch selects what the predicates do -/

namespace IsoDates

variable {dates : IsoDates}

/-- A `date` field reads a bound as the instant it was written from. -/
def Faithful (dates : IsoDates) : Prop :=
  ∀ t : Datetime, t.isAware = true → dates.parse (dates.isoformat t) = some t.instant

def Selects (dates : IsoDates) (d : Document)
    (acc : List OsClause × Dict String (Dict String OsScalar)) : Prop :=
  (∀ c ∈ acc.1, dates.osSelects d c = true) ∧
    Within d.values (fun op b v => dates.inRange op b v) acc.2

theorem inRange_not_str {op : String} {b : OsScalar} {v : Stored}
    (h : dates.inRange op b v = true) (s : String) : v ≠ .str s := by
  rintro rfl
  cases b <;> cases h

variable {acc : List OsClause × Dict String (Dict String OsScalar)} {d : Document}

theorem selects_clause {c : OsClause} :
    dates.Selects d (acc.1 ++ [c], acc.2) ↔ dates.Selects d acc ∧ dates.osSelects d c = true := by
  simp only [Selects, mem_append, mem_singleton, or_imp, forall_and, forall_eq]
  tauto

theorem selects_bound {p : Predicate} (b : OsScalar) (hp : Ungrouped acc.2 p) :
    dates.Selects d (acc.1, setIn acc.2 p.field.value p.test.op.value b) ↔
      dates.Selects d acc ∧
        ∃ x ∈ d.values p.field.value, dates.inRange p.test.op.value b x = true := by
  unfold Selects
  rw [within_setIn ?_ hp, and_assoc]
  intro x hx y hy i j u v hux _
  exact values_unique hx hy (inRange_not_str hux)

theorem selects_osStep (hdates : dates.Faithful) {p : Predicate} (hp : p.Compiled)
    (hfresh : Ungrouped acc.2 p) :
    dates.Selects d (dates.osStep acc p) ↔ dates.Selects d acc ∧ p.holds d = true := by
  cases hp with
  | tenant | platform | source | language =>
    refine selects_clause.trans (and_congr_right fun _ => ?_)
    simp only [osSelects, Document.values_value, holds, Document.get, Stored.any_str]
  | entities vs h =>
    refine selects_clause.trans (and_congr_right fun _ => ?_)
    simp only [osSelects, Document.values_value, holds, Document.get]
    cases d.entityIds <;> simp [Stored.elements]
  | @after t ht =>
    refine (selects_bound _ hfresh).trans (and_congr_right fun _ => ?_)
    simp only [Document.values_value, holds, Document.get]
    cases d.publishedAt <;>
      simp [Stored.elements, inRange, osScalar, hdates t ht, Bound.atMost, Comparison.op,
        Operator.value]
  | @before t ht =>
    refine (selects_bound _ hfresh).trans (and_congr_right fun _ => ?_)
    simp only [Document.values_value, holds, Document.get]
    cases d.publishedAt <;>
      simp [Stored.elements, inRange, osScalar, hdates t ht, Bound.above, Comparison.op,
        Operator.value]
  | confidence q =>
    refine (selects_bound _ hfresh).trans (and_congr_right fun _ => ?_)
    simp only [Document.values_value, holds, Document.get]
    cases d.confidence <;>
      simp [Stored.elements, inRange, osScalar, Bound.atMost, Comparison.op, Operator.value]

theorem ungrouped_osStep
    {p p' : Predicate} (hne : p.dimension ≠ p'.dimension) (h : Ungrouped acc.2 p') :
    Ungrouped (dates.osStep acc p).2 p' := by
  obtain ⟨field, test⟩ := p
  cases test with
  | gte b => exact h.setIn (p := ⟨field, .gte b⟩) hne _
  | lt b => exact h.setIn (p := ⟨field, .lt b⟩) hne _
  | equals | anyOf | containsAny => exact h

theorem opensearchClauses_iff (hdates : dates.Faithful) {ps : List Predicate}
    (hps : ∀ p ∈ ps, p.Compiled) (hnodup : (ps.map dimension).Nodup) (d : Document) :
    (∀ c ∈ dates.opensearchClauses ps, dates.osSelects d c = true) ↔
      ∀ p ∈ ps, p.holds d = true := by
  have hfold : dates.Selects d (ps.foldl dates.osStep ([], .empty)) ↔
      dates.Selects d ([], .empty) ∧ ∀ p ∈ ps, p.holds d = true :=
    foldl_selects (fun _ _ => selects_osStep hdates)
      (fun _ _ _ => ungrouped_osStep) hps hnodup fun p _ => ungrouped_empty p
  have hstart : dates.Selects d ([], .empty) := ⟨by simp, within_empty _ _⟩
  rw [and_iff_right hstart] at hfold
  rw [← hfold]
  unfold opensearchClauses Selects Within
  simp only [mem_append, mem_map, or_imp, forall_and, forall_exists_index, and_imp,
    forall_apply_eq_imp_iff₂, osSelects, any_eq_true, all_eq_true]

end IsoDates

/-! ## Qdrant selects what the predicates do -/

namespace QdrantState

def Selects (d : Document) (acc : QdrantState) : Prop :=
  (∀ c ∈ acc.conditions, c.selects d = true) ∧ Within d.values inDatetimeRange acc.datetimeBounds ∧
    Within d.values inNumericRange acc.numericBounds

def Fresh (acc : QdrantState) (p : Predicate) : Prop :=
  Ungrouped acc.datetimeBounds p ∧ Ungrouped acc.numericBounds p

variable {d : Document} {acc : QdrantState} {p p' : Predicate}

theorem selects_condition {c : QdrantCondition} :
    Selects d { acc with conditions := acc.conditions ++ [c] } ↔
      Selects d acc ∧ c.selects d = true := by
  simp only [Selects, mem_append, mem_singleton, or_imp, forall_and, forall_eq]
  tauto

theorem selects_time {t : Datetime} (hp : Fresh acc p) :
    Selects d (acc.bound p.field.value p.test.op.value (.time t)) ↔ Selects d acc ∧
      ∃ x ∈ d.values p.field.value, inDatetimeRange p.test.op.value t x = true := by
  have hgroup := @within_setIn _ _ _ _ _ _ d.values inDatetimeRange _ p.field.value
    p.test.op.value t (fun x hx y hy i j u v hux _ => values_unique hx hy (by
      rintro s rfl
      cases hux)) hp.1
  unfold Selects QdrantState.bound
  rw [hgroup, and_assoc, and_assoc, and_assoc, and_comm (a := ∃ _, _)]

theorem selects_num {q : ℚ} (hp : Fresh acc p) :
    Selects d (acc.bound p.field.value p.test.op.value (.num q)) ↔ Selects d acc ∧
      ∃ x ∈ d.values p.field.value, inNumericRange p.test.op.value q x = true := by
  have hgroup := @within_setIn _ _ _ _ _ _ d.values inNumericRange _ p.field.value
    p.test.op.value q (fun x hx y hy i j u v hux _ => values_unique hx hy (by
      rintro s rfl
      cases hux)) hp.2
  unfold Selects QdrantState.bound
  rw [hgroup, and_assoc, and_assoc]

theorem selects_step (hp : p.Compiled) (hfresh : Fresh acc p) :
    Selects d (acc.step p) ↔ Selects d acc ∧ p.holds d = true := by
  cases hp with
  | tenant | platform | source | language =>
    refine selects_condition.trans (and_congr_right fun _ => ?_)
    simp only [QdrantCondition.selects, Document.values_value, holds, Document.get, Stored.any_str]
  | entities vs h =>
    refine selects_condition.trans (and_congr_right fun _ => ?_)
    simp only [QdrantCondition.selects, Document.values_value, holds, Document.get]
    cases d.entityIds <;> simp [Stored.elements]
  | @after t ht =>
    refine (selects_time hfresh).trans (and_congr_right fun _ => ?_)
    simp only [Document.values_value, holds, Document.get]
    cases d.publishedAt <;>
      simp [Stored.elements, inDatetimeRange, Bound.atMost, Comparison.op, Operator.value]
  | @before t ht =>
    refine (selects_time hfresh).trans (and_congr_right fun _ => ?_)
    simp only [Document.values_value, holds, Document.get]
    cases d.publishedAt <;>
      simp [Stored.elements, inDatetimeRange, Bound.above, Comparison.op, Operator.value]
  | confidence q =>
    refine (selects_num hfresh).trans (and_congr_right fun _ => ?_)
    simp only [Document.values_value, holds, Document.get]
    cases d.confidence <;>
      simp [Stored.elements, inNumericRange, Bound.atMost, Comparison.op, Operator.value]

theorem fresh_bound {field : FilterField} {test : Comparison} (b : Bound)
    (hne : dimension ⟨field, test⟩ ≠ p'.dimension) (h : Fresh acc p') :
    Fresh (acc.bound field.value test.op.value b) p' := by
  cases b with
  | time t => exact ⟨h.1.setIn (p := ⟨field, test⟩) hne t, h.2⟩
  | num q => exact ⟨h.1, h.2.setIn (p := ⟨field, test⟩) hne q⟩

theorem fresh_step (hne : p.dimension ≠ p'.dimension) (h : Fresh acc p') :
    Fresh (acc.step p) p' := by
  obtain ⟨field, test⟩ := p
  cases test with
  | gte b | lt b => exact fresh_bound b hne h
  | equals | anyOf | containsAny => exact h

end QdrantState

theorem qdrantConditions_iff (hps : ∀ p ∈ ps, p.Compiled)
    (hnodup : (ps.map dimension).Nodup) (d : Document) :
    (∀ c ∈ qdrantConditions ps, c.selects d = true) ↔ ∀ p ∈ ps, p.holds d = true := by
  have hfold : QdrantState.Selects d (ps.foldl QdrantState.step ⟨[], .empty, .empty⟩) ↔
      QdrantState.Selects d ⟨[], .empty, .empty⟩ ∧ ∀ p ∈ ps, p.holds d = true :=
    foldl_selects (fun _ _ => QdrantState.selects_step) (fun _ _ _ => QdrantState.fresh_step) hps
      hnodup fun p _ => ⟨ungrouped_empty p, ungrouped_empty p⟩
  have hstart : QdrantState.Selects d ⟨[], .empty, .empty⟩ :=
    ⟨by simp, within_empty _ _, within_empty _ _⟩
  rw [and_iff_right hstart] at hfold
  rw [← hfold]
  unfold qdrantConditions QdrantState.Selects Within
  simp only [mem_append, mem_map, or_imp, forall_and, forall_exists_index, and_imp,
    forall_apply_eq_imp_iff₂, QdrantCondition.selects, any_eq_true,
    all_eq_true, and_assoc]

/-! ## Cypher selects what the predicates do -/

theorem nodup_param (h : (ps.map dimension).Sublist dimensions) :
    (ps.map param).Nodup := by
  have hparam : ps.map param = (ps.map dimension).map fun d =>
      cypherParamPrefix ++ d.1.value ++ "_" ++ d.2.value := by
    rw [map_map]
    rfl
  have hall : (dimensions.map fun d =>
      cypherParamPrefix ++ d.1.value ++ "_" ++ d.2.value).Nodup := by decide
  rw [hparam]
  exact hall.sublist (h.map _)

theorem cypherFilter_eq (ps : List Predicate) :
    cypherFilter ps = ⟨ps.map cypherClause,
      .ofList (ps.map fun p => (p.param, p.cypherValue))⟩ := by
  induction ps using List.reverseRecOn with
  | nil => rfl
  | append_singleton ps p ih =>
    have hsnoc : cypherFilter (ps ++ [p]) = ⟨(cypherFilter ps).clauses ++ [p.cypherClause],
        (cypherFilter ps).parameters.set p.param p.cypherValue⟩ := by
      unfold cypherFilter
      rw [foldl_append]
      rfl
    rw [hsnoc, ih, map_append, map_append, map_singleton, map_singleton,
      Dict.ofList_snoc]

namespace CypherFilter

theorem conjunction_iff {xs : List (Option Bool)} :
    conjunction xs = some true ↔ ∀ x ∈ xs, x = some true := by
  induction xs with
  | nil => simp [conjunction]
  | cons x xs ih =>
    rcases x with _ | _ | _
    · rw [conjunction]
      split_ifs <;> simp
    · simp [conjunction]
    · rw [conjunction, ih]
      simp

theorem eval_iff {c : CypherFilter} {d : Document} {p : Predicate} (hp : p.Compiled)
    (hparam : c.parameters.get? p.param = some p.cypherValue) :
    c.eval d p.cypherClause = some true ↔ p.holds d = true := by
  have hproperty : ∀ field : FilterField, field ≠ .entityIds →
      property d field.value = d.get field := by
    intro field hne
    unfold property
    rw [if_neg fun h => hne (FilterField.value_injective h), lookup_value]
  cases hp with
  | tenant v =>
    simp only [cypherClause, eval, hparam, cypherValue, holds,
      hproperty .tenantId (by decide), Document.get]
    cases d.tenantId <;> simp
  | platform vs h =>
    simp only [cypherClause, eval, hparam, cypherValue, holds,
      hproperty .platform (by decide), Document.get]
    cases d.platform <;> simp
  | source vs h =>
    simp only [cypherClause, eval, hparam, cypherValue, holds,
      hproperty .source (by decide), Document.get]
    cases d.source <;> simp
  | language vs h =>
    simp only [cypherClause, eval, hparam, cypherValue, holds,
      hproperty .language (by decide), Document.get]
    cases d.language <;> simp
  | entities vs h =>
    simp only [cypherClause, eval, hparam, cypherValue, holds,
      mentioned, Document.get]
    cases d.entityIds <;> simp
  | after | before =>
    simp only [cypherClause, eval, hparam, cypherValue, holds,
      hproperty .publishedAt (by decide), Document.get]
    cases d.publishedAt <;> simp [compare]
  | confidence q =>
    simp only [cypherClause, eval, hparam, cypherValue, holds,
      hproperty .confidence (by decide), Document.get]
    cases d.confidence <;> simp [compare]

theorem selects_iff {ps : List Predicate} (hps : ∀ p ∈ ps, p.Compiled)
    (hdims : (ps.map dimension).Sublist dimensions) (d : Document) :
    (cypherFilter ps).selects d = true ↔ ∀ p ∈ ps, p.holds d = true := by
  have hkeys : ((ps.map fun p => (p.param, p.cypherValue)).map Prod.fst).Nodup := by
    rw [map_map]
    exact nodup_param hdims
  have hparam : ∀ p ∈ ps, (cypherFilter ps).parameters.get? p.param = some p.cypherValue := by
    intro p hp
    rw [cypherFilter_eq]
    exact (Dict.get?_ofList hkeys).mpr (mem_map.mpr ⟨p, hp, rfl⟩)
  have hclauses : (cypherFilter ps).clauses = ps.map cypherClause := by
    rw [cypherFilter_eq]
  unfold selects
  rw [decide_eq_true_iff, conjunction_iff, hclauses]
  simp only [forall_mem_map]
  exact forall₂_congr fun p hp => eval_iff (hps p hp) (hparam p hp)

end CypherFilter

/-! ## The dialects agree -/

/-- The three stores select the documents that meet every predicate, and a parameter name stands
for the value of one predicate. -/
structure Agreement (dates : IsoDates) (ps : List Predicate) (os : List OsClause)
    (conditions : List QdrantCondition) (query : CypherFilter) : Prop where
  opensearch : ∀ d, (∀ c ∈ os, dates.osSelects d c = true) ↔ ∀ p ∈ ps, p.holds d = true
  qdrant : ∀ d, (∀ c ∈ conditions, c.selects d = true) ↔ ∀ p ∈ ps, p.holds d = true
  cypher : ∀ d, query.selects d = true ↔ ∀ p ∈ ps, p.holds d = true
  parameters : query.parameters.items = ps.map fun p => (p.param, p.cypherValue)
  injective : ∀ p ∈ ps, ∀ q ∈ ps, p.param = q.param → p = q

def newYear : Datetime := ⟨1704067200000000, some 0⟩

def sampleDates : IsoDates where
  isoformat t :=
    if t.instant = newYear.instant then "2024-01-01T00:00:00+00:00"
    else String.ofList (List.replicate (Equiv.intEquivNat t.instant) 'x')
  parse s :=
    if s = "2024-01-01T00:00:00+00:00" then some newYear.instant
    else some (Equiv.intEquivNat.symm s.length)

theorem sampleDates_faithful : sampleDates.Faithful := by
  intro t _
  unfold sampleDates
  by_cases ht : t.instant = newYear.instant
  · simp only [ht, if_pos]
  · have hother : String.ofList (List.replicate (Equiv.intEquivNat t.instant) 'x') ≠
        "2024-01-01T00:00:00+00:00" := by
      intro h
      have hmem : '2' ∈ List.replicate (Equiv.intEquivNat t.instant) 'x' := by
        rw [← String.toList_ofList (l := List.replicate _ 'x'), h]
        decide
      exact absurd (eq_of_mem_replicate hmem) (by decide)
    simp only [if_neg ht, if_neg hother, String.length_ofList, length_replicate,
      Equiv.symm_apply_apply]

def january : Filter where
  publishedAfter := some newYear
  publishedBefore := none
  platforms := {.reddit}
  sources := ∅
  languages := ∅
  entityIds := {"e1", "e2"}
  minConfidence := some (1 / 2)
  tenantId := "acme"

end OmniSense.Retrieval
