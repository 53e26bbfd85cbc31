import Mathlib.Algebra.Order.Field.Rat
import Mathlib.Data.List.Dedup
import Mathlib.Data.List.Induction
import Mathlib.Data.String.Basic
import OmniSense.Library.Blocks

/-! The projection that the analytics run over. -/

namespace OmniSense.Analytics

open Library List

/-! The projection that the analytics run over, and how it grows out of edge rows. Arithmetic is
exact, so a dictionary's order shows only where the code iterates over node ids. -/

section

/-- What `projection_from_rows` reads of an edge row: an id that is no string, a confidence or an
evidence count that is no number (or a bool) is absent. -/
structure Row where
  sourceId : Option String
  targetId : Option String
  confidence : Option ℚ
  evidenceCount : Option ℤ
  deriving DecidableEq

/-- `adjacency` holds the weight of each entry; weights are positive, and 0 stands for no entry. -/
structure Projection where
  nodes : List String
  adjacency : String → String → ℚ

/-- `if x not in self.nodes: self.nodes.append(x)`. -/
def appendNew (nodes : List String) (id : String) : List String :=
  if id ∈ nodes then nodes else nodes ++ [id]

/-- `self.adjacency[source][target] = self.adjacency[source].get(target, 0.0) + weight`. -/
def addWeight (adjacency : String → String → ℚ) (source target : String) (weight : ℚ) :
    String → String → ℚ :=
  Function.update adjacency source
    (Function.update (adjacency source) target (adjacency source target + weight))

variable {nodes : List String}

theorem appendNew_of_mem {id : String} (h : id ∈ nodes) : appendNew nodes id = nodes := if_pos h

theorem appendNew_of_new {id : String} (h : id ∉ nodes) :
    appendNew nodes id = nodes ++ [id] := if_neg h

theorem mem_appendNew {id x : String} : x ∈ appendNew nodes id ↔ x = id ∨ x ∈ nodes := by
  unfold appendNew
  split_ifs with hmem
  · rw [or_iff_right_of_imp]
    intro hx
    exact hx ▸ hmem
  · rw [mem_append, mem_singleton, or_comm]

theorem nodup_appendNew (h : nodes.Nodup) (id : String) : (appendNew nodes id).Nodup := by
  unfold appendNew
  split_ifs with hmem
  · exact h
  · rw [← concat_eq_append]
    exact h.concat hmem

theorem mem_foldl_appendNew {ids nodes : List String} {x : String} :
    x ∈ ids.foldl appendNew nodes ↔ x ∈ nodes ∨ x ∈ ids := by
  induction ids generalizing nodes with
  | nil => simp
  | cons id ids ih =>
    rw [foldl_cons, ih, mem_appendNew, mem_cons]
    tauto

theorem nodup_foldl_appendNew (ids : List String) (h : nodes.Nodup) :
    (ids.foldl appendNew nodes).Nodup := by
  induction ids generalizing nodes with
  | nil => exact h
  | cons id ids ih => exact ih (nodup_appendNew h id)

theorem foldl_appendNew (ids nodes : List String) :
    ids.foldl appendNew nodes =
      nodes ++ (ids.filter fun id => id ∉ nodes).foldl appendNew [] := by
  induction ids using List.reverseRecOn with
  | nil => simp
  | append_singleton ids id ih =>
    rw [foldl_append, foldl_cons, foldl_nil, ih, filter_append]
    by_cases hold : id ∈ nodes
    · simp [appendNew, hold]
    · have hfilter : [id].filter (fun id => id ∉ nodes) = [id] := by simp [hold]
      rw [hfilter, foldl_append, foldl_cons, foldl_nil]
      by_cases hnew : id ∈ (ids.filter fun id => id ∉ nodes).foldl appendNew []
      · rw [appendNew_of_mem (mem_append_right _ hnew), appendNew_of_mem hnew]
      · have hfresh := not_mem_append hold hnew
        rw [appendNew_of_new hfresh, appendNew_of_new hnew, append_assoc]

theorem addWeight_apply (adjacency : String → String → ℚ) (source target : String) (weight : ℚ)
    (x y : String) : addWeight adjacency source target weight x y =
      adjacency x y + if x = source ∧ y = target then weight else 0 := by
  unfold addWeight
  by_cases hx : x = source
  · subst hx
    by_cases hy : y = target
    · subst hy
      simp
    · simp [hy]
  · simp [hx]

namespace Projection

def ofNodes (nodes : List String) : Projection := ⟨sortedBy id nodes.dedup, fun _ _ => 0⟩

variable (p : Projection)

def size : ℕ := p.nodes.length

def neighbours (node : String) : List (String × ℚ) :=
  ((sortedBy id p.nodes).filter fun n => p.adjacency node n ≠ 0).map fun n =>
    (n, p.adjacency node n)

def edgeCount : ℕ := (p.nodes.map fun node => (p.neighbours node).length).sum / 2

def weightedDegree (node : String) : ℚ := ((p.neighbours node).map Prod.snd).sum

def totalWeight : ℚ := (p.nodes.map p.weightedDegree).sum

def addEdge (source target : String) (weight : ℚ) : Projection :=
  if source = target then p
  else if weight ≤ 0 then p
  else
    { nodes := appendNew (appendNew p.nodes source) target
      adjacency := addWeight (addWeight p.adjacency source target weight) target source weight }

end Projection

section

variable (log1p : ℕ → ℚ)

/-- `confidence * log1p(evidence_count)`, or that of a single observation. -/
def Row.weight (row : Row) : ℚ :=
  let confidence := row.confidence.getD (1 / 2)
  let evidence := row.evidenceCount.getD 1
  let weight := max confidence 0 * log1p evidence.toNat
  if weight ≤ 0 then max confidence 0 * log1p 1 else weight

def Projection.addRow (p : Projection) (row : Row) : Projection :=
  match row.sourceId, row.targetId with
  | some source, some target => p.addEdge source target (row.weight log1p)
  | _, _ => p

def projectionFromRows (isolatedNodes : List String) (rows : List Row) : Projection :=
  rows.foldl (Projection.addRow log1p) (.ofNodes isolatedNodes)

/-! ## What the rows leave -/

def Row.ends (row : Row) : List String :=
  match row.sourceId, row.targetId with
  | some source, some target =>
    if source = target ∨ row.weight log1p ≤ 0 then [] else [source, target]
  | _, _ => []

def Row.adds (row : Row) (x y : String) : ℚ :=
  if row.ends log1p = [x, y] ∨ row.ends log1p = [y, x] then row.weight log1p else 0

theorem Projection.addRow_eq (p : Projection) (row : Row) :
    (p.addRow log1p row).nodes = (row.ends log1p).foldl appendNew p.nodes ∧
      ∀ x y, (p.addRow log1p row).adjacency x y = p.adjacency x y + row.adds log1p x y := by
  unfold addRow Row.adds Row.ends
  rcases row.sourceId with _ | source
  · simp
  rcases row.targetId with _ | target
  · simp
  unfold addEdge
  by_cases hloop : source = target
  · simp [hloop]
  by_cases hweight : row.weight log1p ≤ 0
  · simp [hloop, hweight]
  simp only [hloop, hweight, if_false, or_false, foldl_cons, foldl_nil, true_and]
  intro x y
  rw [addWeight_apply, addWeight_apply, add_assoc]
  congr 1
  by_cases hxy : x = source ∧ y = target
  · obtain ⟨rfl, rfl⟩ := hxy
    simp [hloop]
  · by_cases hyx : x = target ∧ y = source
    · obtain ⟨rfl, rfl⟩ := hyx
      simp [hxy]
    · have hxy' : ¬(source = x ∧ target = y) := fun h => hxy ⟨h.1.symm, h.2.symm⟩
      have hyx' : ¬(source = y ∧ target = x) := fun h => hyx ⟨h.2.symm, h.1.symm⟩
      simp [hxy, hyx, hxy', hyx']

variable (isolatedNodes : List String) (rows : List Row)

theorem nodes_projectionFromRows : (projectionFromRows log1p isolatedNodes rows).nodes =
      (rows.flatMap (Row.ends log1p)).foldl appendNew (sortedBy id isolatedNodes.dedup) := by
  unfold projectionFromRows
  induction rows using List.reverseRecOn with
  | nil => rfl
  | append_singleton rows row ih =>
    rw [foldl_append, foldl_cons, foldl_nil, (Projection.addRow_eq ..).1, ih,
      flatMap_append, foldl_append, flatMap_singleton]

def newIds (isolatedNodes : List String) (rows : List Row) : List String :=
  ((rows.flatMap (Row.ends log1p)).filter fun id => id ∉ isolatedNodes).foldl appendNew []

theorem nodes_eq_append_newIds : (projectionFromRows log1p isolatedNodes rows).nodes =
      sortedBy id isolatedNodes.dedup ++ newIds log1p isolatedNodes rows := by
  have hmem : ∀ x, x ∈ sortedBy id isolatedNodes.dedup ↔ x ∈ isolatedNodes := fun x => by
    rw [(sortedBy_perm ..).mem_iff, mem_dedup]
  rw [nodes_projectionFromRows, foldl_appendNew]
  unfold newIds
  simp only [hmem]

theorem adjacency_projectionFromRows
    (x y : String) : (projectionFromRows log1p isolatedNodes rows).adjacency x y =
      (rows.map fun row => row.adds log1p x y).sum := by
  unfold projectionFromRows
  induction rows using List.reverseRecOn with
  | nil => rfl
  | append_singleton rows row ih =>
    rw [foldl_append, foldl_cons, foldl_nil, (Projection.addRow_eq ..).2, ih,
      map_append, sum_append, map_singleton, sum_singleton]

theorem nodup_nodes : (projectionFromRows log1p isolatedNodes rows).nodes.Nodup := by
  rw [nodes_projectionFromRows]
  have hstart := (sortedBy_perm id isolatedNodes.dedup).nodup_iff.mpr (nodup_dedup _)
  exact nodup_foldl_appendNew _ hstart

theorem mem_nodes {isolatedNodes : List String} {rows : List Row} {x : String} :
    x ∈ (projectionFromRows log1p isolatedNodes rows).nodes ↔
      x ∈ isolatedNodes ++ rows.flatMap (Row.ends log1p) := by
  rw [nodes_projectionFromRows, mem_foldl_appendNew, (sortedBy_perm ..).mem_iff, mem_dedup,
    mem_append]

theorem size_projectionFromRows : (projectionFromRows log1p isolatedNodes rows).size =
      (isolatedNodes ++ rows.flatMap (Row.ends log1p)).dedup.length := by
  refine List.Perm.length_eq ((perm_ext_iff_of_nodup (nodup_nodes ..)
    (nodup_dedup _)).mpr fun x => ?_)
  rw [mem_nodes, mem_dedup]

end

end

/-! The projections that calls of `add_edge` build: their weights are positive and go both ways. -/

structure Projection.Undirected (p : Projection) : Prop where
  nodup : p.nodes.Nodup
  nonneg : ∀ x y, 0 ≤ p.adjacency x y
  symm : ∀ x y, p.adjacency x y = p.adjacency y x

/-- `Projection(nodes=nodes)`, and an `add_edge` for each of the edges. -/
def Projection.build (nodes : List String) (edges : List (String × String × ℚ)) : Projection :=
  edges.foldl (fun p edge => p.addEdge edge.1 edge.2.1 edge.2.2) (.ofNodes nodes)

namespace Projection.Undirected

theorem ofNodes (nodes : List String) : (Projection.ofNodes nodes).Undirected where
  nodup := (sortedBy_perm id nodes.dedup).nodup_iff.mpr (nodup_dedup _)
  nonneg _ _ := le_rfl
  symm _ _ := rfl

theorem addEdge {p : Projection} (h : p.Undirected) (source target : String) (weight : ℚ) :
    (p.addEdge source target weight).Undirected := by
  unfold Projection.addEdge
  split_ifs with hloop hweight
  · exact h
  · exact h
  · have happly : ∀ x y,
        addWeight (addWeight p.adjacency source target weight) target source weight x y =
          p.adjacency x y + ((if x = source ∧ y = target then weight else 0) +
            if x = target ∧ y = source then weight else 0) := by
      intro x y
      rw [addWeight_apply, addWeight_apply, add_assoc]
    have hpart : ∀ c : Prop, [Decidable c] → 0 ≤ if c then weight else 0 := by
      intro c _
      split_ifs
      · exact (not_le.mp hweight).le
      · exact le_rfl
    refine ⟨nodup_appendNew (nodup_appendNew h.nodup _) _, fun x y => ?_, fun x y => ?_⟩
    · exact (add_nonneg (h.nonneg x y) (add_nonneg (hpart _) (hpart _))).trans_eq
        (happly x y).symm
    · refine (happly x y).trans (Eq.trans ?_ (happly y x).symm)
      rw [h.symm x y, add_comm (ite (x = source ∧ y = target) _ _)]
      simp only [and_comm]

theorem build (nodes : List String) (edges : List (String × String × ℚ)) :
    (Projection.build nodes edges).Undirected := by
  unfold Projection.build
  induction edges using List.reverseRecOn with
  | nil => exact ofNodes nodes
  | append_singleton edges edge ih =>
    rw [foldl_append]
    exact ih.addEdge edge.1 edge.2.1 edge.2.2

theorem projectionFromRows (log1p : ℕ → ℚ) (isolatedNodes : List String) (rows : List Row) :
    (Analytics.projectionFromRows log1p isolatedNodes rows).Undirected := by
  unfold Analytics.projectionFromRows
  induction rows using List.reverseRecOn with
  | nil => exact ofNodes isolatedNodes
  | append_singleton rows row ih =>
    rw [foldl_append]
    change (Projection.addRow log1p _ row).Undirected
    unfold Projection.addRow
    split
    · exact ih.addEdge ..
    · exact ih

end Projection.Undirected

end OmniSense.Analytics
