import OmniSense.Ingest.Store

/-! Evidence counts over whole runs: what one transaction does to a count, and when every accepted
row ends up counted exactly once. -/

namespace OmniSense.Ingest

open Library List GraphWrite

/-- A counter in the graph: `source_count` of a node, `evidence_count` of an edge. -/
inductive CountKey
  | node (r : NodeRef)
  | edge (r : EdgeRef)
  deriving DecidableEq

namespace Store

def count (s : Store) : CountKey → ℕ
  | .node r => (s.nodes r).elim 0 NodeRecord.sourceCount
  | .edge r => (s.edges r).elim 0 EdgeRecord.evidenceCount

def lastBatch (s : Store) : CountKey → Option String
  | .node r => (s.nodes r).bind NodeRecord.lastBatchId
  | .edge r => (s.edges r).bind EdgeRecord.lastBatchId

end Store

variable (dg : Digest)

def EdgeWrite.ref (e : EdgeWrite) : EdgeRef :=
  ⟨e.group, e.oriented.1, e.oriented.2.2.1, e.key dg⟩

namespace GraphWrite

def countKey : GraphWrite → Option CountKey
  | .node n => some (.node (n.entityType, n.id))
  | .signal _ => none
  | .edge e => some (.edge (e.ref dg))

def delta : GraphWrite → ℕ
  | .node n => n.newSignalCount
  | .signal _ => 0
  | .edge e => e.newEvidence

end GraphWrite

def totalDelta (k : CountKey) (items : List GraphWrite) : ℕ :=
  ((items.filter fun x => x.countKey dg = some k).map delta).sum

def Touches (items : List GraphWrite) (k : CountKey) : Prop :=
  ∃ x ∈ items, x.countKey dg = some k

variable {dg : Digest}

theorem totalDelta_append (k : CountKey) (xs ys : List GraphWrite) :
    totalDelta dg k (xs ++ ys) = totalDelta dg k xs + totalDelta dg k ys := by
  simp [totalDelta]

theorem totalDelta_cons (k : CountKey) (x : GraphWrite) (xs : List GraphWrite) :
    totalDelta dg k (x :: xs) =
      (if x.countKey dg = some k then x.delta else 0) + totalDelta dg k xs := by
  unfold totalDelta
  rw [filter_cons]
  split_ifs <;> simp_all

variable {items : List GraphWrite}

theorem totalDelta_of_not_touches {k : CountKey}
    (h : ¬Touches dg items k) : totalDelta dg k items = 0 := by
  have hnil : (items.filter fun x => x.countKey dg = some k) = [] := by
    rw [filter_eq_nil_iff]
    intro x hx hk
    exact h ⟨x, hx, of_decide_eq_true hk⟩
  rw [totalDelta, hnil]
  rfl

theorem totalDelta_eq_zero_of_subset {k : CountKey} {xs items : List GraphWrite} (hsub : xs ⊆ items)
    (h : ¬Touches dg items k) : totalDelta dg k xs = 0 :=
  totalDelta_of_not_touches fun ⟨x, hx, hk⟩ => h ⟨x, hsub hx, hk⟩

/-- `edge_key` tells the endpoints of a group's edges apart. -/
def KeysSeparate (dg : Digest) (items : List GraphWrite) : Prop :=
  ∀ e e', edge e ∈ items → edge e' ∈ items → e.group = e'.group →
    e.key dg = e'.key dg → e.ref dg = e'.ref dg

/-! ## Nodes -/

theorem totalDelta_node (items : List GraphWrite) (t : EntityType) (id : String) :
    totalDelta dg (.node (t, id)) items =
      ((((items.filterMap asNode).filter fun n => n.entityType = t).filter
        fun n => n.id = id).map fun n => n.toRow.newSignalCount).sum := by
  induction items with
  | nil => rfl
  | cons x items ih =>
    rw [totalDelta_cons, ih]
    cases x with
    | node n =>
      have hcons : (node n :: items).filterMap asNode =
          n :: items.filterMap asNode := rfl
      rw [hcons]
      by_cases ht : n.entityType = t <;> by_cases hid : n.id = id <;>
        simp [countKey, delta, NodeWrite.toRow, ht, hid]
    | signal | edge =>
      rw [filterMap_cons_none rfl, if_neg (by simp [countKey]), zero_add]

theorem nodeRowsOf_id {nodes : List NodeWrite} {t : EntityType} {id : String} {row : NodeRow}
    (h : (nodeRowsOf nodes t).get? id = some row) : row.id = id :=
  groupInto_forall (P := fun id row => row.id = id) (fun _ _ => rfl) (fun _ _ _ _ => rfl) h

theorem nodeRowsOf_isSome (dg : Digest) (items : List GraphWrite) (t : EntityType) (id : String) :
    ((nodeRowsOf (items.filterMap asNode) t).get? id).isSome ↔
      Touches dg items (.node (t, id)) := by
  rw [nodeRowsOf, groupInto_isSome]
  constructor
  · rintro ⟨n, hn, hid⟩
    obtain ⟨hn, ht⟩ := mem_filter.mp hn
    obtain ⟨x, hx, hxn⟩ := mem_filterMap.mp hn
    cases x with
    | node m =>
      cases hxn
      refine ⟨_, hx, ?_⟩
      rw [countKey, of_decide_eq_true ht, hid]
    | signal | edge => cases hxn
  · rintro ⟨x, hx, hk⟩
    cases x with
    | node n =>
      simp only [countKey, Option.some.injEq, CountKey.node.injEq, Prod.mk.injEq] at hk
      exact ⟨n, mem_filter.mpr ⟨mem_filterMap.mpr ⟨_, hx, rfl⟩, by simp [hk.1]⟩, hk.2⟩
    | signal | edge => cases hk

theorem nodeRowsOf_weight (dg : Digest) (items : List GraphWrite) (t : EntityType) (id : String) :
    ((nodeRowsOf (items.filterMap asNode) t).get? id).elim 0 NodeRow.newSignalCount =
      totalDelta dg (.node (t, id)) items := by
  rw [totalDelta_node]
  exact groupInto_weight (fun _ _ => rfl) _ _

theorem nodeRows_perm (nodes : List NodeWrite) (t : EntityType) :
    ((nodeRowsOf nodes t).values.insertionSort fun a b => a.id ≤ b.id).Perm
      (nodeRowsOf nodes t).values := perm_insertionSort _ _

theorem runNodes_apply (w : Writer) (batchId : String) (nodes : List NodeWrite)
    (s : NodeRef → Option NodeRecord) (t : EntityType) (id : String) :
    w.runNodes batchId (groupNodes nodes) s (t, id) =
      match (nodeRowsOf nodes t).get? id with
      | none => s (t, id)
      | some row => some (w.setNode batchId t row (s (t, id))) := by
  set rows : EntityType → List NodeRow := fun t =>
    (nodeRowsOf nodes t).values.insertionSort fun a b => a.id ≤ b.id
  have hperm : ∀ t, (rows t).Perm (nodeRowsOf nodes t).values := nodeRows_perm nodes
  have hfold : w.runNodes batchId (groupNodes nodes) s =
      (nodeSpecs.filter fun t => !(nodeRowsOf nodes t).items.isEmpty).foldl (fun s t =>
        upsertAll (fun row => ((t, row.id) : NodeRef)) (w.setNode batchId t) (rows t) s) s := by
    rw [Writer.runNodes, groupNodes, foldl_map]
  have hnodup : (nodeSpecs.filter fun t => !(nodeRowsOf nodes t).items.isEmpty).Nodup :=
    List.Nodup.filter _ (by decide)
  have hgroups := foldl_groups (Prod.fst : NodeRef → EntityType)
    (fun t s => upsertAll (fun row => ((t, row.id) : NodeRef)) (w.setNode batchId t) (rows t) s)
    (fun t s k hk => upsertAll_of_notMem fun _ _ heq => hk (congrArg Prod.fst heq).symm)
    (fun t s s' k hk => upsertAll_congr hk) hnodup s (t, id)
  set ref : NodeRow → NodeRef := fun row => (t, row.id)
  have href : ∀ e ∈ (nodeRowsOf nodes t).items, ∀ e' ∈ (nodeRowsOf nodes t).items,
      ref e.2 = ref e'.2 → e.1 = e'.1 := by
    intro e he e' he' heq
    rw [← nodeRowsOf_id (Dict.mem_items_iff.mp he), ← nodeRowsOf_id (Dict.mem_items_iff.mp he')]
    exact (Prod.mk.inj heq).2
  rw [hfold]
  cases hg : (nodeRowsOf nodes t).get? id with
  | some row =>
    have hrow : ref row = (t, id) := congrArg (Prod.mk t) (nodeRowsOf_id hg)
    have hmem : t ∈ nodeSpecs.filter fun t => !(nodeRowsOf nodes t).items.isEmpty := by
      obtain ⟨n, hn, -⟩ := groupInto_isSome.mp (Option.isSome_of_eq_some hg)
      obtain ⟨-, ht⟩ := mem_filter.mp hn
      refine mem_filter.mpr ⟨of_decide_eq_true ht ▸ n.has_spec, ?_⟩
      have := ne_nil_of_mem (Dict.mem_items_iff.mpr hg)
      simpa using this
    have hone := upsertAll_values (w.setNode batchId t) href (hperm t) (fun _ => true) s hg
    rw [filter_true, if_pos rfl, hrow] at hone
    exact (hgroups.1 hmem).trans hone
  | none =>
    by_cases hmem : t ∈ nodeSpecs.filter fun t => !(nodeRowsOf nodes t).items.isEmpty
    · refine (hgroups.1 hmem).trans ?_
      have hne : ∀ k row, (nodeRowsOf nodes t).get? k = some row → ((t, row.id) : NodeRef) ≠ (t, id) := by
        intro k row hk heq
        rw [nodeRowsOf_id hk, Prod.mk.injEq] at heq
        rw [heq.2, hg] at hk
        cases hk
      have hsame := upsertAll_values_of_ne (fun row => ((t, row.id) : NodeRef)) (w.setNode batchId t)
        (hperm t) (fun _ => true) s hne
      rwa [filter_true] at hsame
    · exact hgroups.2 hmem

/-! ## Edges -/

theorem totalDelta_edge (items : List GraphWrite) (r : EdgeRef) :
    totalDelta dg (.edge r) items =
      (((items.filterMap asEdge).filter fun e => e.ref dg = r).map
        fun e => e.newEvidence).sum := by
  induction items with
  | nil => rfl
  | cons x items ih =>
    rw [totalDelta_cons, ih]
    cases x with
    | edge e =>
      have hcons : (edge e :: items).filterMap asEdge =
          e :: items.filterMap asEdge := rfl
      rw [hcons]
      by_cases hr : e.ref dg = r <;> simp [countKey, delta, hr]
    | node | signal =>
      rw [filterMap_cons_none rfl, if_neg (by simp [countKey]), zero_add]

theorem mem_asEdge_iff {e : EdgeWrite} :
    e ∈ items.filterMap asEdge ↔ edge e ∈ items := by
  rw [mem_filterMap]
  constructor
  · rintro ⟨x, hx, hxe⟩
    cases x with
    | edge _ => exact Option.some.inj hxe ▸ hx
    | node | signal => cases hxe
  · exact fun h => ⟨_, h, rfl⟩

theorem touches_edge_iff {r : EdgeRef} :
    Touches dg items (.edge r) ↔ ∃ e ∈ items.filterMap asEdge, e.ref dg = r := by
  constructor
  · rintro ⟨x, hx, hk⟩
    cases x with
    | edge e =>
      exact ⟨e, mem_asEdge_iff.mpr hx, CountKey.edge.inj (Option.some.inj hk)⟩
    | node _ => simp [countKey] at hk
    | signal _ => cases hk
  · rintro ⟨e, he, rfl⟩
    exact ⟨_, mem_asEdge_iff.mp he, rfl⟩

theorem edgeRowsOf_source {edges : List EdgeWrite} {g : EdgeGroup} {key : String} {row : EdgeRow}
    (h : (edgeRowsOf dg edges g).get? key = some row) :
    row.edgeKey = key ∧ ∃ e ∈ edges, e.ref dg = row.ref g := by
  -- A merged row stands for one of the writes it was merged from.
  refine groupInto_forall (P := fun key row => row.edgeKey = key ∧ ∃ e ∈ edges, e.ref dg = row.ref g)
    (fun e he => ⟨rfl, e, ?_, ?_⟩) (fun e he _ _ => ⟨rfl, e, ?_, ?_⟩) h
  all_goals obtain ⟨hmem, hg⟩ := mem_filter.mp he
  · exact hmem
  · rw [← of_decide_eq_true hg]
    rfl
  · exact hmem
  · rw [← of_decide_eq_true hg]
    rfl

theorem mem_edgeGroups {edges : List EdgeWrite} {g : EdgeGroup} :
    g ∈ edgeGroups edges ↔ ∃ e ∈ edges, e.group = g := by
  unfold edgeGroups
  simp only [mem_flatMap, mem_insertionSort, mem_filter, mem_dedup,
    mem_map, decide_eq_true_eq]
  constructor
  · rintro ⟨_, -, h, -⟩
    exact h
  · rintro ⟨e, he, rfl⟩
    exact ⟨e.edgeType, e.has_spec, ⟨e, he, rfl⟩, rfl⟩

theorem nodup_edgeGroups (edges : List EdgeWrite) : (edgeGroups edges).Nodup := by
  unfold edgeGroups
  rw [nodup_flatMap]
  constructor
  · intro t _
    exact ((perm_insertionSort _ _).nodup_iff).mpr ((nodup_dedup _).filter _)
  · have hspecs : edgeSpecs.Nodup := by decide
    refine hspecs.imp ?_
    intro t t' hne g hg hg'
    simp only [mem_insertionSort, mem_filter, decide_eq_true_eq] at hg hg'
    exact hne (hg.2.symm.trans hg'.2)

theorem runEdges_apply (w : Writer) (batchId : String) (s : Store) (edges : List EdgeWrite)
    (r : EdgeRef) :
    w.runEdges batchId s (groupEdges dg edges) r =
      match (edgeRowsOf dg edges r.group).get? r.key with
      | none => s.edges r
      | some row =>
        if row.ref r.group = r ∧ s.matchesEnds r.group row then
          some (w.setEdge batchId r.group.edgeType row (s.edges r))
        else s.edges r := by
  set rows : EdgeGroup → List EdgeRow := fun g =>
    (edgeRowsOf dg edges g).values.insertionSort fun a b =>
      (toLex (a.fromId, a.toId) : String ×ₗ String) ≤ toLex (b.fromId, b.toId)
  have hperm : ∀ g, (rows g).Perm (edgeRowsOf dg edges g).values :=
    fun g => perm_insertionSort _ _
  have hfold : w.runEdges batchId s (groupEdges dg edges) =
      (edgeGroups edges).foldl (fun s' g =>
        upsertAll (EdgeRow.ref g) (w.setEdge batchId g.edgeType)
          ((rows g).filter fun row => s.matchesEnds g row) s') s.edges := by
    rw [Writer.runEdges, groupEdges, foldl_map]
  have hgroups := foldl_groups EdgeRef.group
    (fun g s' => upsertAll (EdgeRow.ref g) (w.setEdge batchId g.edgeType)
      ((rows g).filter fun row => s.matchesEnds g row) s')
    (fun g s' k hk => upsertAll_of_notMem fun _ _ heq => hk (congrArg EdgeRef.group heq).symm)
    (fun g s' s'' k hk => upsertAll_congr hk) (nodup_edgeGroups edges) s.edges r
  have href : ∀ e ∈ (edgeRowsOf dg edges r.group).items,
      ∀ e' ∈ (edgeRowsOf dg edges r.group).items,
      EdgeRow.ref r.group e.2 = EdgeRow.ref r.group e'.2 → e.1 = e'.1 := by
    intro e he e' he' heq
    rw [← (edgeRowsOf_source (Dict.mem_items_iff.mp he)).1,
      ← (edgeRowsOf_source (Dict.mem_items_iff.mp he')).1]
    exact congrArg EdgeRef.key heq
  rw [hfold]
  cases hg : (edgeRowsOf dg edges r.group).get? r.key with
  | none =>
    by_cases hmem : r.group ∈ edgeGroups edges
    · refine (hgroups.1 hmem).trans (upsertAll_values_of_ne _ _ (hperm _) _ _ ?_)
      intro key row hrow heq
      have hkey := (edgeRowsOf_source hrow).1
      rw [← hkey, show row.edgeKey = r.key from congrArg EdgeRef.key heq, hg] at hrow
      cases hrow
    · exact hgroups.2 hmem
  | some row =>
    obtain ⟨hkey, e, he, heref⟩ := edgeRowsOf_source hg
    have hmem : r.group ∈ edgeGroups edges :=
      mem_edgeGroups.mpr ⟨e, he, congrArg EdgeRef.group heref⟩
    refine (hgroups.1 hmem).trans ?_
    by_cases href' : row.ref r.group = r
    · have hone := upsertAll_values (w.setEdge batchId r.group.edgeType) href (hperm r.group)
        (fun row => s.matchesEnds r.group row) s.edges hg
      rw [href'] at hone
      simp only [href', true_and]
      exact hone
    · simp only [href', false_and, if_false]
      refine upsertAll_values_of_ne _ _ (hperm _) _ _ ?_
      intro key row' hrow' heq
      have hkey' := (edgeRowsOf_source hrow').1
      rw [← hkey', show row'.edgeKey = r.key from congrArg EdgeRef.key heq, hg] at hrow'
      exact href' (Option.some.inj hrow' ▸ heq)

end OmniSense.Ingest
