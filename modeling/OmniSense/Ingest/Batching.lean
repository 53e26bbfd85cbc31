import OmniSense.Ingest.Counting
import OmniSense.Library.Unions

/-! One node statement for a list of rows against the same rows as batches of their own. Both are
followed at one node, field by field. -/

namespace OmniSense.Ingest

open Library List

/-! ## The two executions -/

def NodeWrite.ref (n : NodeWrite) : NodeRef := (n.entityType, n.id)

namespace Writer

variable (w : Writer)

/-- The node statements that `plan` makes of some rows, run under a batch id. -/
def runPlanned (batchId : String) (nodes : List NodeWrite) (s : NodeRef → Option NodeRecord) :
    NodeRef → Option NodeRecord :=
  w.runNodes batchId ((GraphBatch.mk nodes [] []).plan w.digest).nodes s

def runOneByOne (rows : List (NodeWrite × String)) (s : NodeRef → Option NodeRecord) :
    NodeRef → Option NodeRecord := rows.foldl (fun s r => w.runPlanned r.2 [r.1] s) s

end Writer

/-- `_type_matches`, for a value that is not null. -/
def PropertyType.matches : PropertyType → Value → Bool
  | .string, .scalar (.str _) => true
  | .boolean, .scalar (.bool _) => true
  | .integer, .scalar (.int _) => true
  | .float, .scalar (.int _) => true
  | .float, .scalar (.float _) => true
  | .datetime, .scalar (.time _) => true
  | .point, .scalar (.point _) => true
  | .stringList, .list xs | .stringList, .tuple xs => xs.all fun
    | .str _ => true
    | _ => false
  | .floatList, .list xs | .floatList, .tuple xs => xs.all fun
    | .int _ | .float _ => true
    | _ => false
  | _, _ => false

/-- What `validate_property_map` asks of the type of each value. -/
def GraphSchema.Accepts (schema : GraphSchema) (n : NodeWrite) : Prop :=
  ∀ spec ∈ schema.nodeProperties n.entityType, ∀ v, n.properties.get? spec.name = some v →
    v ≠ .null → spec.type.matches v = true

structure SameNode (specs : List PropertySpec) (a b : NodeRecord) : Prop where
  tenantId : a.tenantId = b.tenantId
  canonicalName : a.canonicalName = b.canonicalName
  normalizedName : a.normalizedName = b.normalizedName
  aliases : a.aliases = b.aliases
  sourceCount : a.sourceCount = b.sourceCount
  firstSeen : a.firstSeen = b.firstSeen
  lastSeen : a.lastSeen = b.lastSeen
  properties : ∀ spec ∈ specs, spec.accumulates = true ∨ spec.type.isList = false →
    a.properties.get? spec.name = b.properties.get? spec.name

/-! ## One node at a time -/

/-- The row that `_group_nodes` makes of the rows of one node. -/
def mergedRow (r : NodeWrite × String) (more : List (NodeWrite × String)) : NodeRow :=
  more.foldl (fun row x => mergeNodeRows row x.1.toRow) r.1.toRow

theorem mergedRow_snoc (r : NodeWrite × String) (more : List (NodeWrite × String))
    (x : NodeWrite × String) :
    mergedRow r (more ++ [x]) = mergeNodeRows (mergedRow r more) x.1.toRow := by
  unfold mergedRow
  rw [foldl_append]
  rfl

def rowsOf (rows : List (NodeWrite × String)) (ref : NodeRef) : List (NodeWrite × String) :=
  rows.filter fun r => r.1.ref = ref

theorem nodeRowsOf_get? (rows : List (NodeWrite × String)) (ref : NodeRef) :
    (nodeRowsOf (rows.map Prod.fst) ref.1).get? ref.2 =
      match rowsOf rows ref with
      | [] => none
      | r :: more => some (mergedRow r more) := by
  have hrows : (((rows.map Prod.fst).filter fun n => n.entityType = ref.1).filter
      fun n => n.id = ref.2) = (rowsOf rows ref).map Prod.fst := by
    rw [filter_filter, rowsOf, filter_map]
    congr 1
    refine filter_congr fun r _ => ?_
    simp only [Function.comp_apply, NodeWrite.ref, Prod.ext_iff, Bool.decide_and, Bool.and_comm]
  rw [nodeRowsOf, groupInto_get?, hrows]
  cases rowsOf rows ref with
  | nil => rfl
  | cons r more =>
    simp only [map_cons, mergedRow, foldl_map]

namespace Writer

variable (w : Writer)

theorem runPlanned_apply (batchId : String) (rows : List (NodeWrite × String))
    (s : NodeRef → Option NodeRecord) (ref : NodeRef) :
    w.runPlanned batchId (rows.map Prod.fst) s ref =
      match rowsOf rows ref with
      | [] => s ref
      | r :: more => some (w.setNode batchId ref.1 (mergedRow r more) (s ref)) := by
  unfold runPlanned
  have hplan : ((GraphBatch.mk (rows.map Prod.fst) [] []).plan w.digest).nodes =
      groupNodes (rows.map Prod.fst) := rfl
  rw [hplan, runNodes_apply, nodeRowsOf_get?]
  cases rowsOf rows ref <;> rfl

def setRow (t : EntityType) (old : Option NodeRecord) (r : NodeWrite × String) :
    Option NodeRecord := some (w.setNode r.2 t r.1.toRow old)

theorem runOneByOne_apply (rows : List (NodeWrite × String)) (s : NodeRef → Option NodeRecord)
    (ref : NodeRef) :
    w.runOneByOne rows s ref = (rowsOf rows ref).foldl (w.setRow ref.1) (s ref) := by
  induction rows generalizing s with
  | nil => rfl
  | cons r rows ih =>
    have hone : w.runPlanned r.2 [r.1] s ref =
        if r.1.ref = ref then w.setRow ref.1 (s ref) r else s ref := by
      refine (w.runPlanned_apply r.2 [r] s ref).trans ?_
      by_cases hr : r.1.ref = ref <;> simp [rowsOf, hr, setRow, mergedRow]
    have hcons : w.runOneByOne (r :: rows) s = w.runOneByOne rows (w.runPlanned r.2 [r.1] s) := rfl
    rw [hcons, ih, hone, rowsOf, rowsOf, filter_cons]
    by_cases hr : r.1.ref = ref <;> simp [hr]

end Writer

/-! ## Properties -/

def Value.isTuple : Value → Bool
  | .tuple _ => true
  | _ => false

def Value.entries (v : Value) : List Scalar := Value.asList (some v)

/-- `_set_expression` on the property's own value. -/
def PropertySpec.setValue (spec : PropertySpec) (given old : Option Value) : Option Value :=
  if spec.accumulates then
    some (.list (listUnion (Value.asList old) (Value.asList given) spec.maxLength))
  else
    match given with
    | none => old
    | some .null => old
    | some v => some v.stored

theorem get?_setProperty_self (row stored : Properties) (spec : PropertySpec) :
    (setProperty row stored spec).get? spec.name =
      spec.setValue (row.get? spec.name) (stored.get? spec.name) := by
  unfold setProperty PropertySpec.setValue
  split_ifs
  · rw [Dict.get?_alter, if_pos rfl]
  · rcases row.get? spec.name with _ | v
    · rfl
    · cases v <;> simp [Dict.get?_alter]

theorem get?_setProperty_of_ne (row stored : Properties) {spec : PropertySpec} {name : String}
    (h : name ≠ spec.name) : (setProperty row stored spec).get? name = stored.get? name := by
  unfold setProperty
  split_ifs
  · rw [Dict.get?_alter, if_neg h]
  · rcases row.get? spec.name with _ | v
    · rfl
    · cases v <;> simp [Dict.get?_alter, h]

theorem get?_setProperties_of_notMem {specs : List PropertySpec} {name : String}
    (h : name ∉ specs.map PropertySpec.name) (row stored : Properties) :
    (setProperties specs row stored).get? name = stored.get? name := by
  induction specs generalizing stored with
  | nil => rfl
  | cons spec specs ih =>
    rw [map_cons, mem_cons, not_or] at h
    exact (ih h.2 _).trans (get?_setProperty_of_ne row stored h.1)

theorem get?_setProperties {specs : List PropertySpec}
    (hnodup : (specs.map PropertySpec.name).Nodup)
    (row stored : Properties) {spec : PropertySpec} (h : spec ∈ specs) :
    (setProperties specs row stored).get? spec.name =
      spec.setValue (row.get? spec.name) (stored.get? spec.name) := by
  induction specs generalizing stored with
  | nil => cases h
  | cons head specs ih =>
    obtain ⟨hhead, htail⟩ := nodup_cons.mp (map_cons .. ▸ hnodup)
    have hcons : setProperties (head :: specs) row stored =
        setProperties specs row (setProperty row stored head) := rfl
    rw [hcons]
    rcases mem_cons.mp h with rfl | hmem
    · rw [get?_setProperties_of_notMem hhead, get?_setProperty_self]
    · have hne : spec.name ≠ head.name := fun heq =>
        hhead (heq ▸ mem_map.mpr ⟨spec, hmem, rfl⟩)
      rw [ih htail _ hmem, get?_setProperty_of_ne row stored hne]

/-- `_merge_rows` on the property's own value. -/
def mergedValue (old given : Option Value) : Option Value :=
  match given with
  | none => old
  | some .null => old
  | some v => some (mergeValue v old)

theorem get?_mergeProperties (first second : Properties) (k : String) :
    (mergeProperties first second).get? k = mergedValue (first.get? k) (second.get? k) := by
  obtain ⟨es, hes⟩ := second
  have key : ∀ es : List (String × Value), (es.map Prod.fst).Nodup →
      (es.foldl (fun merged kv => if kv.2 = .null then merged
        else merged.alter kv.1 (mergeValue kv.2)) first).get? k =
      mergedValue (first.get? k) ((es.find? fun e => e.1 = k).map Prod.snd) := by
    intro es
    induction es using List.reverseRecOn with
    | nil => exact fun _ => rfl
    | append_singleton es e ih =>
      intro hnodup
      rw [map_append, nodup_append] at hnodup
      obtain ⟨hnodup, -, hnew⟩ := hnodup
      rw [foldl_append, foldl_cons, foldl_nil, List.find?_append]
      by_cases hk : e.1 = k
      · have hnone : (es.find? fun e => e.1 = k) = none := List.find?_eq_none.mpr fun e' he' heq =>
          hnew e'.1 (mem_map.mpr ⟨_, he', rfl⟩) e.1 (by simp)
            ((of_decide_eq_true heq).trans hk.symm)
        have hlast : ([e].find? fun e => e.1 = k) = some e := by simp [hk]
        have hfirst := ih hnodup
        rw [hnone] at hfirst
        rw [hnone, hlast]
        obtain ⟨key, v⟩ := e
        obtain rfl : key = k := hk
        have hlooked : mergedValue (first.get? key) (some v) =
            if v = .null then first.get? key else some (mergeValue v (first.get? key)) := by
          cases v <;> rfl
        rw [Option.none_or, Option.map_some, hlooked]
        split_ifs
        · exact hfirst
        · rw [Dict.get?_alter, if_pos rfl, hfirst]
          rfl
      · have hnone : ([e].find? fun e => e.1 = k) = none := by simp [hk]
        rw [hnone, Option.or_none, ← ih hnodup]
        split_ifs
        · rfl
        · rw [Dict.get?_alter, if_neg (Ne.symm hk)]
  exact key es hes

theorem setValue_mergedValue_of_scalar {spec : PropertySpec} (hspec : spec.accumulates = false)
    {given : Option Value} (hgiven : Value.asList given = [])
    (hlist : ∀ xs, given ≠ some (.list xs))
    (merged old : Option Value) :
    spec.setValue given (spec.setValue merged old) =
      spec.setValue (mergedValue merged given) old := by
  -- A scalar travels through a merged row as it does through its own.
  have hoff : ¬spec.accumulates = true := by simp [hspec]
  unfold PropertySpec.setValue
  simp only [if_neg hoff]
  rcases given with _ | v
  · rfl
  · cases v with
    | null => rfl
    | scalar x => rcases merged with _ | m <;> [rfl; cases m <;> rfl]
    | list xs => exact absurd rfl (hlist xs)
    | tuple xs =>
      obtain rfl : xs = [] := hgiven
      rcases merged with _ | m <;> [rfl; cases m <;> rfl]

/-! ## Lists and the tuples that displace them -/

/-- What a merged row lost of a property, and what it holds: a tuple takes the place of what was
there, and leaves its place to what comes after. -/
def displace (split : List Value × List Value) (v : Value) : List Value × List Value :=
  if v.isTuple ∨ split.2.any Value.isTuple then (split.1 ++ split.2, [v])
  else (split.1, split.2 ++ [v])

def displaced (values : List Value) : List Value × List Value := values.foldl displace ([], [])

def Value.given : Option Value → List Value
  | none => []
  | some .null => []
  | some v => [v]

theorem Value.mem_given {given : Option Value} {v : Value} :
    v ∈ Value.given given ↔ given = some v ∧ v ≠ .null := by
  rcases given with _ | u
  · simp [Value.given]
  · cases u <;> simp [Value.given] <;> grind

def valuesOf (name : String) (rows : List (NodeWrite × String)) : List Value :=
  rows.flatMap fun r => Value.given (r.1.properties.get? name)

theorem displaced_append (values : List Value) :
    (displaced values).1 ++ (displaced values).2 = values := by
  induction values using List.reverseRecOn with
  | nil => rfl
  | append_singleton values v ih =>
    have hsnoc : displaced (values ++ [v]) = displace (displaced values) v := foldl_append ..
    rw [hsnoc, displace]
    split_ifs
    · rw [ih]
    · rw [← append_assoc, ih]

inductive Carries : Option Value → List Value → Prop
  | nothing {given} (h : given = none ∨ given = some .null) : Carries given []
  | list {xs kept} (hne : kept ≠ []) (hlists : kept.any Value.isTuple = false)
      (hunion : ∀ seen, appendNew [] (seen ++ xs) =
        appendNew [] (seen ++ kept.flatMap Value.entries)) :
      Carries (some (.list xs)) kept
  | tuple {xs} : Carries (some (.tuple xs)) [.tuple xs]

variable {merged : Option Value}

theorem Carries.merge {kept gone : List Value} (h : Carries merged kept)
    {v : Value} (hv : (∃ xs, v = .list xs) ∨ ∃ xs, v = .tuple xs) :
    Carries (mergedValue merged (some v)) (displace (gone, kept) v).2 := by
  rcases hv with ⟨xs, rfl⟩ | ⟨xs, rfl⟩
  · -- a list joins the lists before it
    cases h with
    | nothing h =>
      rcases h with rfl | rfl <;>
        exact .list (by simp [displace]) (by simp [displace, Value.isTuple])
          fun seen => by simp [displace, Value.isTuple, Value.entries, Value.asList]
    | @list ys kept hne hlists hunion =>
      have hsplit : (displace (gone, kept) (.list xs)).2 = kept ++ [.list xs] := by
        rw [displace, if_neg (by simp [hlists, Value.isTuple])]
      rw [hsplit]
      refine .list (by simp) (by simp [hlists, Value.isTuple]) fun seen => ?_
      have hentries : (kept ++ [Value.list xs]).flatMap Value.entries =
          kept.flatMap Value.entries ++ xs := by simp [Value.entries, Value.asList]
      rw [hentries, appendNew_nil_append, ← append_assoc, appendNew_append, hunion,
        ← appendNew_append, append_assoc]
    | @tuple ys =>
      have hsplit : (displace (gone, [.tuple ys]) (.list xs)).2 = [.list xs] := by
        rw [displace, if_pos (by simp [Value.isTuple])]
      rw [hsplit]
      exact .list (by simp) (by simp [Value.isTuple])
        fun seen => by simp [Value.entries, Value.asList]
  · have hsplit : (displace (gone, kept) (.tuple xs)).2 = [.tuple xs] := by
      rw [displace, if_pos (.inl rfl)]
    have hmerged : mergedValue merged (some (.tuple xs)) = some (.tuple xs) := by
      rcases merged with _ | m <;> [rfl; cases m <;> rfl]
    rw [hsplit, hmerged]
    exact .tuple

theorem Carries.union {kept : List Value} (h : Carries merged kept)
    (seen : List Scalar) :
    appendNew [] (seen ++ Value.asList merged) =
      appendNew [] (seen ++ kept.flatMap Value.entries) := by
  cases h with
  | nothing h => rcases h with rfl | rfl <;> rfl
  | list _ _ hunion => exact hunion seen
  | tuple => simp [Value.entries]

def Value.ListLike (v : Value) : Prop := (∃ xs, v = .list xs) ∨ ∃ xs, v = .tuple xs

theorem Carries.merge_given (split : List Value × List Value)
    (h : Carries merged split.2) {given : Option Value}
    (hgiven : ∀ v ∈ Value.given given, v.ListLike) :
    Carries (mergedValue merged given) ((Value.given given).foldl displace split).2 := by
  rcases given with _ | v
  · exact h
  · cases v with
    | null => exact h
    | scalar | list | tuple => exact h.merge (hgiven _ mem_cons_self)

theorem carries_mergedRow {name : String} {r : NodeWrite × String}
    {more : List (NodeWrite × String)} (h : ∀ v ∈ valuesOf name (r :: more), v.ListLike) :
    Carries ((mergedRow r more).properties.get? name)
      (displaced (valuesOf name (r :: more))).2 := by
  induction more using List.reverseRecOn with
  | nil =>
    have hvalues : valuesOf name [r] = Value.given (r.1.properties.get? name) := append_nil _
    have hfirst : ∀ given, mergedValue none given = given ∨ given = some .null := by
      rintro (_ | v)
      · exact .inl rfl
      · cases v <;> first | exact .inl rfl | exact .inr rfl
    rw [hvalues] at h ⊢
    rcases hfirst (r.1.properties.get? name) with hsame | hnull
    · have hone := Carries.merge_given ([], []) (.nothing (.inl rfl)) h
      rw [hsame] at hone
      exact hone
    · have hrow : (mergedRow r []).properties = r.1.properties := rfl
      rw [hrow, hnull]
      exact .nothing (.inr rfl)
  | append_singleton more x ih =>
    have hvalues : valuesOf name (r :: (more ++ [x])) =
        valuesOf name (r :: more) ++ Value.given (x.1.properties.get? name) := by
      rw [← cons_append, valuesOf, flatMap_append, flatMap_singleton]
      rfl
    rw [hvalues] at h ⊢
    have hprops : (mergedRow r (more ++ [x])).properties.get? name =
        mergedValue ((mergedRow r more).properties.get? name) (x.1.properties.get? name) := by
      rw [mergedRow_snoc]
      exact get?_mergeProperties _ _ name
    have hsplit : displaced (valuesOf name (r :: more) ++ Value.given (x.1.properties.get? name)) =
        (Value.given (x.1.properties.get? name)).foldl displace
          (displaced (valuesOf name (r :: more))) := foldl_append ..
    rw [hprops, hsplit]
    exact Carries.merge_given _ (ih fun v hv => h v (mem_append_left _ hv))
      fun v hv => h v (mem_append_right _ hv)

/-! ## The record that is left -/

namespace Writer

variable (w : Writer) (t : EntityType) (old : Option NodeRecord)

def recordOf (r : NodeWrite × String) (more : List (NodeWrite × String)) : NodeRecord :=
  more.foldl (fun a x => w.setNode x.2 t x.1.toRow (some a)) (w.setNode r.2 t r.1.toRow old)

variable {w t old} {r : NodeWrite × String} {more : List (NodeWrite × String)}

theorem recordOf_snoc (x : NodeWrite × String) :
    w.recordOf t old r (more ++ [x]) =
      w.setNode x.2 t x.1.toRow (some (w.recordOf t old r more)) := by
  unfold recordOf
  rw [foldl_append]
  rfl

theorem foldl_setRow :
    (r :: more).foldl (w.setRow t) old = some (w.recordOf t old r more) := by
  induction more using List.reverseRecOn with
  | nil => rfl
  | append_singleton more x ih =>
    rw [← cons_append, foldl_append, ih, recordOf_snoc]
    rfl

theorem recordOf_names :
    (w.recordOf t old r more).tenantId = (mergedRow r more).tenantId ∧
    (w.recordOf t old r more).canonicalName = (mergedRow r more).canonicalName ∧
    (w.recordOf t old r more).normalizedName = (mergedRow r more).normalizedName := by
  induction more using List.reverseRecOn with
  | nil => exact ⟨rfl, rfl, rfl⟩
  | append_singleton more x _ =>
    rw [recordOf_snoc, mergedRow_snoc]
    exact ⟨rfl, rfl, rfl⟩

theorem recordOf_aliases :
    (w.recordOf t old r more).aliases =
      listUnion (old.elim [] NodeRecord.aliases) (mergedRow r more).aliases
        maxListPropertyLength := by
  induction more using List.reverseRecOn with
  | nil => rfl
  | append_singleton more x ih =>
    have hset : (w.recordOf t old r (more ++ [x])).aliases =
        listUnion (w.recordOf t old r more).aliases x.1.aliases maxListPropertyLength := by
      rw [recordOf_snoc]
      rfl
    have hrow : (mergedRow r (more ++ [x])).aliases =
        appendNew (mergedRow r more).aliases x.1.aliases := by
      rw [mergedRow_snoc]
      rfl
    rw [hset, hrow, ih]
    unfold listUnion
    rw [take_union_union, appendNew_nil_append]

theorem recordOf_lastSeen (batchId : String) :
    (w.recordOf t old r more).lastSeen =
      (w.setNode batchId t (mergedRow r more) old).lastSeen := by
  induction more using List.reverseRecOn with
  | nil => rfl
  | append_singleton more x ih =>
    have hset : (w.recordOf t old r (more ++ [x])).lastSeen =
        (w.setNode x.2 t x.1.toRow (some (w.recordOf t old r more))).lastSeen := by
      rw [recordOf_snoc]
    have hrow : (mergedRow r (more ++ [x])).observedAt =
        max (mergedRow r more).observedAt x.1.observedAt := by
      rw [mergedRow_snoc]
      rfl
    simp only [setNode] at hset ih ⊢
    rw [hset, hrow, Option.bind_some, ih]
    rcases old.bind NodeRecord.lastSeen with _ | seen
    · change some (if x.1.observedAt > _ then x.1.observedAt else _) = some (max _ _)
      rw [max_def']
      split_ifs <;> grind
    · change some (if x.1.observedAt > _ then x.1.observedAt else _) = some _
      grind

theorem recordOf_firstSeen :
    ∃ m, (w.recordOf t old r more).firstSeen = some m ∧
      (old.bind NodeRecord.firstSeen = some m ∨ ∃ x ∈ r :: more, x.1.observedAt = m) ∧
      (∀ f, old.bind NodeRecord.firstSeen = some f → m ≤ f) ∧
      ∀ x ∈ r :: more, m ≤ x.1.observedAt := by
  induction more using List.reverseRecOn with
  | nil =>
    have hset : (w.recordOf t old r []).firstSeen =
        (w.setNode r.2 t r.1.toRow old).firstSeen := rfl
    rw [hset]
    simp only [setNode]
    rcases old.bind NodeRecord.firstSeen with _ | f
    · exact ⟨_, rfl, .inr ⟨r, by simp, rfl⟩, by simp, by simp [NodeWrite.toRow]⟩
    · refine ⟨_, rfl, ?_, ?_, ?_⟩
      · split_ifs
        · exact .inr ⟨r, by simp, rfl⟩
        · exact .inl rfl
      · rintro f' ⟨⟩
        split_ifs <;> grind
      · simp only [mem_singleton, forall_eq, NodeWrite.toRow]
        split_ifs <;> grind
  | append_singleton more x ih =>
    obtain ⟨m, hm, hfrom, hstored, hrows⟩ := ih
    have hset : (w.recordOf t old r (more ++ [x])).firstSeen =
        some (if x.1.observedAt < m then x.1.observedAt else m) := by
      rw [recordOf_snoc]
      simp only [setNode, Option.bind_some, hm]
      rfl
    have hmem : ∀ y, y ∈ r :: (more ++ [x]) ↔ y ∈ r :: more ∨ y = x := by simp [or_assoc]
    refine ⟨_, hset, ?_, ?_, ?_⟩
    · split_ifs
      · exact .inr ⟨x, by simp, rfl⟩
      · rcases hfrom with hold | ⟨y, hy, heq⟩
        · exact .inl hold
        · exact .inr ⟨y, (hmem y).mpr (.inl hy), heq⟩
    · intro f hf
      have := hstored f hf
      split_ifs <;> omega
    · intro y hy
      rcases (hmem y).mp hy with hy | rfl
      · have := hrows y hy
        split_ifs <;> omega
      · split_ifs <;> omega

theorem mergedRow_observedAt :
    (∃ x ∈ r :: more, x.1.observedAt = (mergedRow r more).observedAt) ∧
      ∀ x ∈ r :: more, x.1.observedAt ≤ (mergedRow r more).observedAt := by
  induction more using List.reverseRecOn with
  | nil => exact ⟨⟨r, by simp, rfl⟩, by simp [mergedRow, NodeWrite.toRow]⟩
  | append_singleton more x ih =>
    obtain ⟨⟨y, hy, hyeq⟩, hle⟩ := ih
    have hrow : (mergedRow r (more ++ [x])).observedAt =
        max (mergedRow r more).observedAt x.1.observedAt := by
      rw [mergedRow_snoc]
      rfl
    have hmem : ∀ y, y ∈ r :: (more ++ [x]) ↔ y ∈ r :: more ∨ y = x := by simp [or_assoc]
    rw [hrow]
    constructor
    · rcases max_choice (mergedRow r more).observedAt x.1.observedAt with h | h
      · exact ⟨y, (hmem y).mpr (.inl hy), by rw [h, hyeq]⟩
      · exact ⟨x, by simp, h.symm⟩
    · intro z hz
      rcases (hmem z).mp hz with hz | rfl
      · exact (hle z hz).trans (le_max_left _ _)
      · exact le_max_right _ _

theorem setNode_firstSeen_eq_iff (batchId : String) :
    (w.setNode batchId t (mergedRow r more) old).firstSeen =
        (w.recordOf t old r more).firstSeen ↔
      (∃ f, old.bind NodeRecord.firstSeen = some f ∧ ∀ x ∈ r :: more, f ≤ x.1.observedAt) ∨
        ∀ x ∈ r :: more, ∀ y ∈ r :: more, x.1.observedAt = y.1.observedAt := by
  -- A batch stamps only the latest of its rows on a node.
  obtain ⟨m, hm, hfrom, hstored, hrows⟩ := @recordOf_firstSeen w t old r more
  obtain ⟨⟨y, hy, hyeq⟩, hle⟩ := @mergedRow_observedAt r more
  rw [hm]
  simp only [setNode]
  have hall : (∀ x ∈ r :: more, ∀ y ∈ r :: more, x.1.observedAt = y.1.observedAt) ↔
      ∀ x ∈ r :: more, x.1.observedAt = (mergedRow r more).observedAt :=
    ⟨fun h x hx => (h x hx y hy).trans hyeq, fun h x hx z hz => (h x hx).trans (h z hz).symm⟩
  rw [hall]
  rcases hf : old.bind NodeRecord.firstSeen with _ | f
  · simp only [hf, reduceCtorEq, false_and, exists_false, false_or, Option.some.injEq] at hfrom ⊢
    constructor
    · intro heq x hx
      exact le_antisymm (hle x hx) (heq ▸ hrows x hx)
    · intro heq
      obtain ⟨x, hx, rfl⟩ := hfrom
      exact (heq x hx).symm
  · have hmf := hstored f hf
    simp only [hf, Option.some.injEq, exists_eq_left'] at hfrom ⊢
    constructor
    · intro heq
      rcases hfrom with rfl | ⟨x, hx, rfl⟩
      · exact .inl hrows
      · by_cases hfx : f = x.1.observedAt
        · exact .inl (hfx ▸ hrows)
        · right
          intro z hz
          have hz' := hrows z hz
          have hzm := hle z hz
          split_ifs at heq <;> omega
    · rintro (hfirst | heq)
      · have hfy := hfirst y hy
        have hmf' : m = f := by
          rcases hfrom with rfl | ⟨x, hx, rfl⟩
          · rfl
          · exact le_antisymm hmf (hfirst x hx)
        split_ifs <;> omega
      · rcases hfrom with rfl | ⟨x, hx, rfl⟩
        · have hfy := hrows y hy
          split_ifs <;> omega
        · have hx' := heq x hx
          split_ifs <;> omega

theorem recordOf_lastBatchId :
    ∃ x ∈ r :: more, (w.recordOf t old r more).lastBatchId = some x.2 := by
  induction more using List.reverseRecOn with
  | nil => exact ⟨r, by simp, rfl⟩
  | append_singleton more x _ =>
    refine ⟨x, by simp, ?_⟩
    rw [recordOf_snoc]
    rfl

theorem recordOf_sourceCount (hids : ((r :: more).map Prod.snd).Nodup) :
    (w.recordOf t old r more).sourceCount +
        (if old.bind NodeRecord.lastBatchId = some r.2 then r.1.newSignalCount else 0) =
      old.elim 0 NodeRecord.sourceCount + ((r :: more).map fun x => x.1.newSignalCount).sum := by
  -- Only the first of several distinct batches can be a replay.
  induction more using List.reverseRecOn with
  | nil =>
    have hset : (w.recordOf t old r []).sourceCount = old.elim 0 NodeRecord.sourceCount +
        if old.bind NodeRecord.lastBatchId = some r.2 then 0 else r.1.newSignalCount := rfl
    rw [hset]
    split_ifs <;> simp
  | append_singleton more x ih =>
    rw [← cons_append, map_append, nodup_append] at hids
    obtain ⟨hfront, -, hnew⟩ := hids
    obtain ⟨y, hy, hlast⟩ := @recordOf_lastBatchId w t old r more
    have hfresh : (w.recordOf t old r more).lastBatchId ≠ some x.2 := by
      rw [hlast]
      intro heq
      exact hnew y.2 (mem_map_of_mem hy) x.2 (by simp) (Option.some.inj heq)
    have hset : (w.recordOf t old r (more ++ [x])).sourceCount =
        (w.recordOf t old r more).sourceCount + x.1.newSignalCount := by
      rw [recordOf_snoc]
      simp only [setNode, Option.bind_some, if_neg hfresh]
      rfl
    have hsum : ((r :: (more ++ [x])).map fun x => x.1.newSignalCount).sum =
        ((r :: more).map fun x => x.1.newSignalCount).sum + x.1.newSignalCount := by
      rw [← cons_append, map_append, sum_append]
      simp
    have := ih hfront
    rw [hset, hsum]
    omega

theorem mergedRow_newSignalCount :
    (mergedRow r more).newSignalCount = ((r :: more).map fun x => x.1.newSignalCount).sum := by
  induction more using List.reverseRecOn with
  | nil => simp [mergedRow, NodeWrite.toRow]
  | append_singleton more x ih =>
    rw [← cons_append, map_append, sum_append, ← ih, mergedRow_snoc]
    simp [mergeNodeRows, NodeWrite.toRow]

end Writer

def hiddenByBatch (old : Option NodeRecord) (batchId : String) (rows : List (NodeWrite × String)) :
    ℕ :=
  if old.bind NodeRecord.lastBatchId = some batchId then
    (rows.map fun x => x.1.newSignalCount).sum
  else 0

def hiddenByFirst (old : Option NodeRecord) (rows : List (NodeWrite × String)) : ℕ :=
  rows.head?.elim 0 fun r =>
    if old.bind NodeRecord.lastBatchId = some r.2 then r.1.newSignalCount else 0

namespace Writer

variable {w : Writer} {t : EntityType} {old : Option NodeRecord} {r : NodeWrite × String}
  {more : List (NodeWrite × String)}

theorem setNode_sourceCount_eq_iff (batchId : String)
    (hids : ((r :: more).map Prod.snd).Nodup) :
    (w.setNode batchId t (mergedRow r more) old).sourceCount =
        (w.recordOf t old r more).sourceCount ↔
      hiddenByBatch old batchId (r :: more) = hiddenByFirst old (r :: more) := by
  have hone := @recordOf_sourceCount w t old r more hids
  have hset : (w.setNode batchId t (mergedRow r more) old).sourceCount +
      hiddenByBatch old batchId (r :: more) =
      old.elim 0 NodeRecord.sourceCount + ((r :: more).map fun x => x.1.newSignalCount).sum := by
    unfold hiddenByBatch setNode
    rw [mergedRow_newSignalCount]
    split_ifs <;> rfl
  have hfirst : hiddenByFirst old (r :: more) =
      if old.bind NodeRecord.lastBatchId = some r.2 then r.1.newSignalCount else 0 := rfl
  rw [hfirst]
  omega

/-! ## Properties of the record -/

def stored (old : Option NodeRecord) (name : String) : Option Value :=
  (old.elim .empty NodeRecord.properties).get? name

theorem get?_setNode {spec : PropertySpec} (hspec : spec ∈ w.schema.nodeProperties t)
    (batchId : String) (row : NodeRow) (old : Option NodeRecord) :
    (w.setNode batchId t row old).properties.get? spec.name =
      spec.setValue (row.properties.get? spec.name) (stored old spec.name) :=
  get?_setProperties (w.schema.nodup_nodeProperties t) _ _ hspec

theorem get?_recordOf_of_scalar {spec : PropertySpec} (hspec : spec ∈ w.schema.nodeProperties t)
    (hone : spec.accumulates = false)
    (hrows : ∀ v ∈ valuesOf spec.name (r :: more), ∃ x, v = .scalar x) :
    (w.recordOf t old r more).properties.get? spec.name =
      spec.setValue ((mergedRow r more).properties.get? spec.name) (stored old spec.name) := by
  induction more using List.reverseRecOn with
  | nil => exact get?_setNode hspec _ _ _
  | append_singleton more x ih =>
    have hvalues : ∀ v, v ∈ valuesOf spec.name (r :: more) ∨
        v ∈ Value.given (x.1.properties.get? spec.name) → ∃ y, v = .scalar y := by
      intro v hv
      refine hrows v ?_
      rw [← cons_append, valuesOf, flatMap_append, flatMap_singleton]
      exact mem_append.mpr hv
    have hgiven : Value.asList (x.1.properties.get? spec.name) = [] ∧
        ∀ xs, x.1.properties.get? spec.name ≠ some (.list xs) := by
      have hscalar := fun v hv => hvalues v (.inr (Value.mem_given.mpr hv))
      rcases hx : x.1.properties.get? spec.name with _ | v
      · exact ⟨rfl, by simp⟩
      · cases v with
        | null | scalar => exact ⟨rfl, by simp⟩
        | list | tuple => exact absurd (hscalar _ ⟨hx, by simp⟩) (by simp)
    have hset : (w.recordOf t old r (more ++ [x])).properties.get? spec.name =
        spec.setValue (x.1.properties.get? spec.name)
          ((w.recordOf t old r more).properties.get? spec.name) := by
      rw [recordOf_snoc, get?_setNode hspec]
      rfl
    have hrow : (mergedRow r (more ++ [x])).properties.get? spec.name =
        mergedValue ((mergedRow r more).properties.get? spec.name)
          (x.1.properties.get? spec.name) := by
      rw [mergedRow_snoc]
      exact get?_mergeProperties _ _ _
    rw [hset, hrow, ih fun v hv => hvalues v (.inl hv)]
    exact setValue_mergedValue_of_scalar hone hgiven.1 hgiven.2 _ _

theorem setValue_of_accumulates {spec : PropertySpec} (h : spec.accumulates = true)
    (given old : Option Value) :
    spec.setValue given old =
      some (.list (listUnion (Value.asList old) (Value.asList given) spec.maxLength)) := if_pos h

theorem get?_recordOf_of_accumulates {spec : PropertySpec}
    (hspec : spec ∈ w.schema.nodeProperties t) (hlist : spec.accumulates = true) :
    (w.recordOf t old r more).properties.get? spec.name =
      some (.list (listUnion (Value.asList (stored old spec.name))
        ((valuesOf spec.name (r :: more)).flatMap Value.entries) spec.maxLength)) := by
  -- Row by row, a list property takes in everything that the rows give it.
  have hgiven : ∀ given, (Value.given given).flatMap Value.entries = Value.asList given := by
    rintro (_ | v)
    · rfl
    · cases v <;> simp [Value.given, Value.entries, Value.asList]
  induction more using List.reverseRecOn with
  | nil =>
    have hset : (w.recordOf t old r []).properties.get? spec.name = _ :=
      get?_setNode hspec r.2 r.1.toRow old
    have hvalues : valuesOf spec.name [r] = Value.given (r.1.properties.get? spec.name) :=
      append_nil _
    rw [hset, setValue_of_accumulates hlist, hvalues, hgiven]
    rfl
  | append_singleton more x ih =>
    have hset : (w.recordOf t old r (more ++ [x])).properties.get? spec.name =
        spec.setValue (x.1.properties.get? spec.name)
          ((w.recordOf t old r more).properties.get? spec.name) := by
      rw [recordOf_snoc, get?_setNode hspec]
      rfl
    have hvalues : (valuesOf spec.name (r :: (more ++ [x]))).flatMap Value.entries =
        (valuesOf spec.name (r :: more)).flatMap Value.entries ++
          Value.asList (x.1.properties.get? spec.name) := by
      rw [← cons_append, ← hgiven]
      simp only [valuesOf, flatMap_append, flatMap_singleton]
    rw [hset, ih, setValue_of_accumulates hlist, hvalues]
    exact congrArg (fun xs => some (Value.list xs)) (take_union_union _ _ _ _)

theorem get?_setNode_eq_iff {spec : PropertySpec} (hspec : spec ∈ w.schema.nodeProperties t)
    (hlist : spec.accumulates = true) (batchId : String)
    (hrows : ∀ v ∈ valuesOf spec.name (r :: more), v.ListLike) :
    (w.setNode batchId t (mergedRow r more) old).properties.get? spec.name =
        (w.recordOf t old r more).properties.get? spec.name ↔
      (fresh (Value.asList (stored old spec.name))
          ((displaced (valuesOf spec.name (r :: more))).1.flatMap Value.entries)).take
        (spec.maxLength - (appendNew [] (Value.asList (stored old spec.name))).length) <+:
      fresh (Value.asList (stored old spec.name))
        ((displaced (valuesOf spec.name (r :: more))).2.flatMap Value.entries) := by
  have hall : (valuesOf spec.name (r :: more)).flatMap Value.entries =
      (displaced (valuesOf spec.name (r :: more))).1.flatMap Value.entries ++
        (displaced (valuesOf spec.name (r :: more))).2.flatMap Value.entries := by
    rw [← flatMap_append, displaced_append]
  rw [get?_setNode hspec, setValue_of_accumulates hlist,
    get?_recordOf_of_accumulates hspec hlist, Option.some.injEq, Value.list.injEq]
  unfold listUnion
  rw [(carries_mergedRow hrows).union, hall, ← take_union_eq_iff]
  exact eq_comm

end Writer

/-! ## When a batch is its rows -/

structure MergesAlike (schema : GraphSchema) (batchId : String)
    (rows : List (NodeWrite × String)) (t : EntityType) (old : Option NodeRecord) : Prop where
  -- The stored `first_seen` covers the rows, or they were all observed at once.
  observed : (∃ f, old.bind NodeRecord.firstSeen = some f ∧ ∀ x ∈ rows, f ≤ x.1.observedAt) ∨
    ∀ x ∈ rows, ∀ y ∈ rows, x.1.observedAt = y.1.observedAt
  -- A replay hides the same number of signals on both sides.
  counted : hiddenByBatch old batchId rows = hiddenByFirst old rows
  -- What tuples displace is, as far as the cap leaves room, what the rest adds first.
  displaced : ∀ spec ∈ schema.nodeProperties t, spec.accumulates = true →
    (fresh (Value.asList (Writer.stored old spec.name))
        ((displaced (valuesOf spec.name rows)).1.flatMap Value.entries)).take
      (spec.maxLength - (appendNew [] (Value.asList (Writer.stored old spec.name))).length) <+:
    fresh (Value.asList (Writer.stored old spec.name))
      ((displaced (valuesOf spec.name rows)).2.flatMap Value.entries)

theorem mem_valuesOf {name : String} {rows : List (NodeWrite × String)} {v : Value}
    (h : v ∈ valuesOf name rows) :
    ∃ x ∈ rows, x.1.properties.get? name = some v ∧ v ≠ .null := by
  obtain ⟨x, hx, hv⟩ := mem_flatMap.mp h
  exact ⟨x, hx, Value.mem_given.mp hv⟩

theorem PropertyType.listLike_of_matches {t : PropertyType} {v : Value} (h : t.matches v = true)
    (hlist : t.isList = true) : v.ListLike := by
  cases t <;> try cases hlist
  all_goals
    cases v with
    | null | scalar => cases h
    | list xs => exact .inl ⟨xs, rfl⟩
    | tuple xs => exact .inr ⟨xs, rfl⟩

theorem PropertyType.scalar_of_matches {t : PropertyType} {v : Value} (h : t.matches v = true)
    (hlist : t.isList = false) : ∃ x, v = .scalar x := by
  cases v with
  | null => cases t <;> cases h
  | scalar x => exact ⟨x, rfl⟩
  | list | tuple => cases t <;> first | cases h | cases hlist

namespace Writer

variable (w : Writer)

theorem sameNode_iff {t : EntityType} {old : Option NodeRecord} {r : NodeWrite × String}
    {more : List (NodeWrite × String)} (batchId : String)
    (htype : ∀ x ∈ r :: more, x.1.entityType = t)
    (haccepts : ∀ x ∈ r :: more, w.schema.Accepts x.1)
    (hids : ((r :: more).map Prod.snd).Nodup) :
    SameNode (w.schema.nodeProperties t) (w.setNode batchId t (mergedRow r more) old)
        (w.recordOf t old r more) ↔
      MergesAlike w.schema batchId (r :: more) t old := by
  have hmatches : ∀ spec ∈ w.schema.nodeProperties t, ∀ v ∈ valuesOf spec.name (r :: more),
      spec.type.matches v = true := by
    intro spec hspec v hv
    obtain ⟨x, hx, hget, hnull⟩ := mem_valuesOf hv
    exact haccepts x hx spec (htype x hx ▸ hspec) v hget hnull
  have hlists : ∀ spec ∈ w.schema.nodeProperties t, spec.accumulates = true →
      ∀ v ∈ valuesOf spec.name (r :: more), v.ListLike := fun spec hspec hlist v hv =>
    PropertyType.listLike_of_matches (hmatches spec hspec v hv) (spec.isList_of_accumulates hlist)
  constructor
  · intro h
    refine ⟨setNode_firstSeen_eq_iff batchId |>.mp h.firstSeen,
      (setNode_sourceCount_eq_iff batchId hids).mp h.sourceCount, fun spec hspec hlist => ?_⟩
    exact (get?_setNode_eq_iff hspec hlist batchId (hlists spec hspec hlist)).mp
      (h.properties spec hspec (.inl hlist))
  · intro h
    obtain ⟨htenant, hcanonical, hnormalized⟩ := @recordOf_names w t old r more
    exact {
      tenantId := htenant.symm
      canonicalName := hcanonical.symm
      normalizedName := hnormalized.symm
      aliases := recordOf_aliases.symm
      sourceCount := (setNode_sourceCount_eq_iff batchId hids).mpr h.counted
      firstSeen := (setNode_firstSeen_eq_iff batchId).mpr h.observed
      lastSeen := (recordOf_lastSeen batchId).symm
      properties := by
        intro spec hspec hkind
        cases hlist : spec.accumulates with
        | true =>
          exact (get?_setNode_eq_iff hspec hlist batchId (hlists spec hspec hlist)).mpr
            (h.displaced spec hspec hlist)
        | false =>
          have hscalar : spec.type.isList = false := hkind.resolve_left (by simp [hlist])
          rw [get?_setNode hspec, get?_recordOf_of_scalar hspec hlist fun v hv =>
            PropertyType.scalar_of_matches (hmatches spec hspec v hv) hscalar] }

theorem mergesAlike_nil (schema : GraphSchema) (batchId : String) (t : EntityType)
    (old : Option NodeRecord) : MergesAlike schema batchId [] t old where
  observed := .inr (by simp)
  counted := by simp [hiddenByBatch, hiddenByFirst]
  displaced _ _ _ := by simp [valuesOf, displaced, fresh, appendNew]

/-- A merged statement leaves every node as its rows would one by one, for each node whose stored
`first_seen` covers its rows or whose rows were observed at once, and whose lists lost nothing to a
tuple. -/
theorem runPlanned_same_iff (batchId : String) (rows : List (NodeWrite × String))
    (s : NodeRef → Option NodeRecord) (haccepts : ∀ x ∈ rows, w.schema.Accepts x.1)
    (hids : (rows.map Prod.snd).Nodup) :
    (∀ ref, Option.Rel (SameNode (w.schema.nodeProperties ref.1))
        (w.runPlanned batchId (rows.map Prod.fst) s ref) (w.runOneByOne rows s ref)) ↔
      ∀ ref, MergesAlike w.schema batchId (rowsOf rows ref) ref.1 (s ref) := by
  refine forall_congr' fun ref => ?_
  have hsub : (rowsOf rows ref).Sublist rows := filter_sublist
  have htype : ∀ x ∈ rowsOf rows ref, x.1.entityType = ref.1 := fun x hx =>
    congrArg Prod.fst (of_decide_eq_true (mem_filter.mp hx).2)
  rw [runPlanned_apply, runOneByOne_apply]
  have hids' := hids.sublist (hsub.map Prod.snd)
  have haccepts' : ∀ x ∈ rowsOf rows ref, w.schema.Accepts x.1 := fun x hx =>
    haccepts x (hsub.subset hx)
  revert htype hids' haccepts'
  rcases rowsOf rows ref with _ | ⟨r, more⟩
  · intro _ _ _
    refine iff_of_true ?_ (mergesAlike_nil _ _ _ _)
    rw [foldl_nil]
    rcases s ref with _ | old
    · exact .none
    · exact .some ⟨rfl, rfl, rfl, rfl, rfl, rfl, rfl, fun _ _ _ => rfl⟩
  · intro htype hids' haccepts'
    rw [foldl_setRow, ← sameNode_iff w batchId htype haccepts' hids']
    exact ⟨fun h => by cases h; assumption, .some⟩

end Writer

/-! ## A backfill in one batch -/

def companyWriter : Writer := ⟨nodeSchema fun _ => [], ⟨id, fun _ => ""⟩, 1⟩

theorem company_mem_nodeSpecs : EntityType.company ∈ nodeSpecs := by decide

def companyRow (observedAt : ℤ) (properties : Properties) : NodeWrite :=
  ⟨.company, "c1", "acme", "Initech", "initech", observedAt, [], 1, properties, company_mem_nodeSpecs⟩

def backfill : List (NodeWrite × String) :=
  [(companyRow 10 .empty, "b1"), (companyRow 5 .empty, "b2")]

def sameDay : List (NodeWrite × String) :=
  [(companyRow 5 (.ofList [("industry_codes", .list [.str "7372"])]), "b1"),
    (companyRow 5 (.ofList [("industry_codes", .list [.str "7373"])]), "b2")]

instance (schema : GraphSchema) (n : NodeWrite) : Decidable (schema.Accepts n) :=
  decidable_of_iff (∀ spec ∈ schema.nodeProperties n.entityType,
    (n.properties.get? spec.name).all fun v => v = .null ∨ spec.type.matches v = true) <| by
    refine forall₂_congr fun spec _ => ?_
    cases n.properties.get? spec.name <;> simp [or_iff_not_imp_left]

/-- Batched, the company is first seen on day 10; one by one, on day 5. -/
theorem not_same_backfill :
    (∀ x ∈ backfill, companyWriter.schema.Accepts x.1) ∧ (backfill.map Prod.snd).Nodup ∧
      ¬∀ ref, Option.Rel (SameNode (companyWriter.schema.nodeProperties ref.1))
        (companyWriter.runPlanned "b" (backfill.map Prod.fst) (fun _ => none) ref)
        (companyWriter.runOneByOne backfill (fun _ => none) ref) := by
  refine ⟨by decide, by decide, fun h => ?_⟩
  have hbatch : (companyWriter.runPlanned "b" (backfill.map Prod.fst) (fun _ => none)
      (.company, "c1")).bind NodeRecord.firstSeen = some 10 := by decide
  have hrows : (companyWriter.runOneByOne backfill (fun _ => none)
      (.company, "c1")).bind NodeRecord.firstSeen = some 5 := by decide
  have hsame : ∀ {specs a b}, Option.Rel (SameNode specs) a b →
      a.bind NodeRecord.firstSeen = b.bind NodeRecord.firstSeen := by
    rintro specs _ _ (h | _)
    · exact h.firstSeen
    · rfl
  have heq := hsame (h (.company, "c1"))
  rw [hbatch, hrows] at heq
  cases heq

theorem runPlanned_same_sameDay :
    (∀ x ∈ sameDay, companyWriter.schema.Accepts x.1) ∧ (sameDay.map Prod.snd).Nodup ∧
      ∀ ref, Option.Rel (SameNode (companyWriter.schema.nodeProperties ref.1))
        (companyWriter.runPlanned "b" (sameDay.map Prod.fst) (fun _ => none) ref)
        (companyWriter.runOneByOne sameDay (fun _ => none) ref) := by
  refine ⟨by decide, by decide, ?_⟩
  refine (companyWriter.runPlanned_same_iff "b" sameDay (fun _ => none) (by decide)
    (by decide)).mpr fun ref => ?_
  by_cases href : ref = (.company, "c1")
  · subst href
    exact ⟨.inr (by decide), by decide, by decide⟩
  · have hnil : rowsOf sameDay ref = [] := by
      simp [rowsOf, sameDay, companyRow, NodeWrite.ref, Ne.symm href]
    rw [hnil]
    exact Writer.mergesAlike_nil _ _ _ _

end OmniSense.Ingest
