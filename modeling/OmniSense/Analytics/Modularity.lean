import OmniSense.Analytics.PageRank
import OmniSense.Library.Modularity

/-! `modularity` tallies the communities one by one; it is the modularity of the weights. -/

namespace OmniSense.Analytics

open Library Finset

/-- A projection that calls of `add_edge` build has no self-loops either. -/
structure Projection.Simple (p : Projection) : Prop extends p.Undirected where
  loopless : ∀ x, p.adjacency x x = 0

namespace Projection.Simple

theorem ofNodes (nodes : List String) : (Projection.ofNodes nodes).Simple where
  toUndirected := .ofNodes nodes
  loopless _ := rfl

theorem addEdge {p : Projection} (h : p.Simple) (source target : String) (weight : ℚ) :
    (p.addEdge source target weight).Simple := by
  refine ⟨h.toUndirected.addEdge source target weight, fun x => ?_⟩
  unfold Projection.addEdge
  split_ifs with hloop
  · exact h.loopless x
  · exact h.loopless x
  · have hforth : ¬(x = source ∧ x = target) := fun hx => hloop (hx.1.symm.trans hx.2)
    have hback : ¬(x = target ∧ x = source) := fun hx => hloop (hx.2.symm.trans hx.1)
    change addWeight (addWeight p.adjacency source target weight) target source weight x x = 0
    rw [addWeight_apply, addWeight_apply, if_neg hforth, if_neg hback, h.loopless, add_zero,
      add_zero]

theorem build (nodes : List String) (edges : List (String × String × ℚ)) :
    (Projection.build nodes edges).Simple := by
  unfold Projection.build
  induction edges using List.reverseRecOn with
  | nil => exact ofNodes nodes
  | append_singleton edges edge ih =>
    rw [List.foldl_append]
    exact ih.addEdge edge.1 edge.2.1 edge.2.2

end Projection.Simple

/-! ## Tallies -/

section

variable {κ : Type*} [DecidableEq κ]

def held (d : Dict κ ℚ) (key : κ) : ℚ := (d.get? key).getD 0

theorem held_bump (d : Dict κ ℚ) (key k : κ) (weight : ℚ) :
    held (bump d key weight) k = held d k + if key = k then weight else 0 := by
  unfold held bump
  rw [Dict.get?_alter]
  by_cases hk : k = key
  · subst hk
    rw [if_pos rfl, if_pos rfl]
    rfl
  · rw [if_neg hk, if_neg (Ne.symm hk), add_zero]

theorem held_bumps {α : Type*} (entries : List α) (key : α → κ) (weight : α → ℚ) (d : Dict κ ℚ)
    (k : κ) : held (entries.foldl (fun d entry => bump d (key entry) (weight entry)) d) k =
      held d k + (entries.map fun entry => if key entry = k then weight entry else 0).sum := by
  induction entries generalizing d with
  | nil => simp
  | cons entry entries ih =>
    rw [List.foldl_cons, ih, held_bump, List.map_cons, List.sum_cons, add_assoc]

theorem mem_keys_bump {d : Dict κ ℚ} {key k : κ} {weight : ℚ} :
    k ∈ (bump d key weight).keys ↔ k = key ∨ k ∈ d.keys := by
  exact Dict.mem_keys_alterItems

theorem sum_items (d : Dict κ ℚ) (f : κ → ℚ → ℚ) :
    (d.items.map fun item => f item.1 item.2).sum = ∑ k ∈ d.keys.toFinset, f k (held d k) := by
  have hitems : (d.items.map fun item => f item.1 item.2) = d.keys.map fun k => f k (held d k) := by
    unfold Dict.keys
    rw [List.map_map]
    refine List.map_congr_left fun item hitem => ?_
    have hget : d.get? item.1 = some item.2 := Dict.mem_items_iff.mp hitem
    change f item.1 item.2 = f item.1 ((d.get? item.1).getD 0)
    rw [hget]
    rfl
  rw [hitems]
  exact (List.sum_toFinset _ d.nodup).symm

variable {p : Projection} {label : String → κ}

theorem held_internal (node : String) (entries : List (String × ℚ)) (internal : Dict κ ℚ) (k : κ) :
    held (entries.foldl (fun internal entry =>
        if some (label entry.1) = some (label node) then bump internal (label node) entry.2
        else internal) internal) k =
      held internal k + if label node = k then
        (entries.map fun entry => if label entry.1 = k then entry.2 else 0).sum else 0 := by
  induction entries generalizing internal with
  | nil => simp
  | cons entry entries ih =>
    rw [List.foldl_cons, ih, List.map_cons, List.sum_cons]
    by_cases hsame : label entry.1 = label node
    · rw [if_pos (congrArg some hsame), held_bump]
      by_cases hk : label node = k
      · simp only [if_pos hk, if_pos (hsame.trans hk), add_assoc]
      · simp only [if_neg hk]
        ring
    · rw [if_neg fun h => hsame (Option.some.inj h)]
      by_cases hk : label node = k
      · rw [if_pos hk, if_pos hk, if_neg fun h => hsame (h.trans hk.symm), zero_add]
      · simp only [if_neg hk]

theorem tallyNode_eq (label : String → κ) (t : Tallies κ) (node : String) (k : κ) :
    held (tallyNode p (fun n => some (label n)) t node).degrees k =
        held t.degrees k + (if label node = k then p.weightedDegree node else 0) ∧
      held (tallyNode p (fun n => some (label n)) t node).internal k =
        held t.internal k + (if label node = k then ((p.neighbours node).map fun entry =>
          if label entry.1 = k then entry.2 else 0).sum else 0) ∧
      (k ∈ (tallyNode p (fun n => some (label n)) t node).degrees.keys ↔
        k = label node ∨ k ∈ t.degrees.keys) :=
  ⟨held_bump .., held_internal .., mem_keys_bump⟩

theorem foldl_tallyNode (label : String → κ) (nodes : List String) (t : Tallies κ) (k : κ) :
    let tallies := nodes.foldl (tallyNode p fun n => some (label n)) t
    held tallies.degrees k = held t.degrees k +
        (nodes.map fun node => if label node = k then p.weightedDegree node else 0).sum ∧
      held tallies.internal k = held t.internal k +
        (nodes.map fun node => if label node = k then ((p.neighbours node).map fun entry =>
          if label entry.1 = k then entry.2 else 0).sum else 0).sum ∧
      (k ∈ tallies.degrees.keys ↔ k ∈ t.degrees.keys ∨ k ∈ nodes.map label) := by
  induction nodes generalizing t with
  | nil => simp
  | cons node nodes ih =>
    obtain ⟨hdegrees, hinternal, hkeys⟩ := tallyNode_eq label t node k
    obtain ⟨ihdegrees, ihinternal, ihkeys⟩ := ih (tallyNode p (fun n => some (label n)) t node)
    refine ⟨?_, ?_, ?_⟩
    · rw [List.foldl_cons, ihdegrees, hdegrees, List.map_cons, List.sum_cons, add_assoc]
    · rw [List.foldl_cons, ihinternal, hinternal, List.map_cons, List.sum_cons, add_assoc]
    · rw [List.foldl_cons, ihkeys, hkeys, List.map_cons, List.mem_cons]
      tauto

theorem totalWeight_eq (hp : p.nodes.Nodup) :
    p.totalWeight = Graph.total p.nodes.toFinset p.adjacency := by
  unfold Projection.totalWeight Graph.total Graph.degree
  rw [PageRank.sum_nodes hp]
  exact sum_congr rfl fun x _ => PageRank.weightedDegree_eq hp x

theorem totalWeight_nonneg (h : p.Undirected) : 0 ≤ p.totalWeight := by
  rw [totalWeight_eq h.nodup]
  exact sum_nonneg fun x _ => sum_nonneg fun y _ => h.nonneg x y

theorem modularity_eq (h : p.Undirected) (str : κ → String) (resolution : ℚ) (label : String → κ) :
    modularity p str (fun node => some (label node)) resolution =
      Graph.modularity p.nodes.toFinset p.adjacency resolution label := by
  unfold modularity
  by_cases hweight : p.totalWeight ≤ 0
  · have htotal : Graph.total p.nodes.toFinset p.adjacency = 0 := by
      rw [← totalWeight_eq h.nodup]
      exact le_antisymm hweight (totalWeight_nonneg h)
    rw [if_pos hweight]
    refine (sum_eq_zero fun x _ => sum_eq_zero fun y _ => ?_).symm
    unfold Graph.surplus
    rw [htotal, div_zero, pow_two, mul_zero, div_zero, sub_zero, ite_self]
  · rw [if_neg hweight]
    generalize htallies : p.nodes.foldl (tallyNode p fun node => some (label node))
      ⟨.empty, .empty⟩ = t
    have htally := fun k => htallies ▸ foldl_tallyNode label p.nodes ⟨.empty, .empty⟩ k
    have hdegrees : ∀ k, held t.degrees k = ∑ x ∈ p.nodes.toFinset with label x = k,
        Graph.degree p.nodes.toFinset p.adjacency x := by
      intro k
      rw [(htally k).1, PageRank.sum_nodes h.nodup, sum_filter]
      exact (zero_add _).trans (sum_congr rfl fun x _ => by
        rw [PageRank.weightedDegree_eq h.nodup]
        rfl)
    have hinternal : ∀ k, held t.internal k = ∑ x ∈ p.nodes.toFinset with label x = k,
        ∑ y ∈ p.nodes.toFinset with label y = k, p.adjacency x y := by
      intro k
      rw [(htally k).2.1, PageRank.sum_nodes h.nodup, sum_filter]
      refine (zero_add _).trans (sum_congr rfl fun x _ => ?_)
      rw [PageRank.sum_neighbours h.nodup (fun n weight => if label n = k then weight else 0)
        (fun n => ite_self 0) x, sum_filter]
    have hkeys : t.degrees.keys.toFinset = p.nodes.toFinset.image label := by
      ext k
      rw [List.mem_toFinset, (htally k).2.2, Finset.mem_image, List.mem_map]
      simp [Dict.keys, Dict.empty]
    rw [((sortedBy_perm _ _).map _).sum_eq, sum_items t.degrees fun k degree =>
      (t.internal.get? k).getD 0 / p.totalWeight - resolution * (degree / p.totalWeight) ^ 2,
      hkeys, Graph.modularity_eq_sum, totalWeight_eq h.nodup]
    refine sum_congr rfl fun k _ => ?_
    rw [← hinternal, ← hdegrees]
    rfl

end

end OmniSense.Analytics
