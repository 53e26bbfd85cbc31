import Mathlib.Algebra.BigOperators.Field
import Mathlib.Algebra.BigOperators.Ring.Finset
import Mathlib.Tactic.FieldSimp
import Mathlib.Tactic.Ring

/-! The modularity of a partition of a weighted graph, and what moving one node makes of it. -/

namespace OmniSense.Library.Graph

open Finset

variable {V κ K : Type*} [DecidableEq κ] [Field K]
  (nodes : Finset V) (weight : V → V → K) (resolution : K)

def degree (x : V) : K := ∑ y ∈ nodes, weight x y

def total : K := ∑ x ∈ nodes, degree nodes weight x

def surplus (x y : V) : K :=
  weight x y / total nodes weight -
    resolution * (degree nodes weight x * degree nodes weight y) / total nodes weight ^ 2

def modularity (label : V → κ) : K :=
  ∑ x ∈ nodes, ∑ y ∈ nodes, if label x = label y then surplus nodes weight resolution x y else 0

section

variable {nodes weight resolution}

theorem surplus_comm (hsymm : ∀ x y, weight x y = weight y x) (x y : V) :
    surplus nodes weight resolution x y = surplus nodes weight resolution y x := by
  unfold surplus
  rw [hsymm x y, mul_comm (degree nodes weight x)]

theorem modularity_eq_sum (label : V → κ) :
    modularity nodes weight resolution label =
      ∑ community ∈ nodes.image label,
        ((∑ x ∈ nodes with label x = community, ∑ y ∈ nodes with label y = community,
            weight x y) / total nodes weight -
          resolution * ((∑ x ∈ nodes with label x = community, degree nodes weight x) /
            total nodes weight) ^ 2) := by
  unfold modularity
  rw [← sum_fiberwise_of_maps_to fun x hx => mem_image_of_mem label hx]
  refine sum_congr rfl fun community _ => ?_
  have hblock : ∀ x ∈ nodes.filter fun x => label x = community,
      (∑ y ∈ nodes, if label x = label y then surplus nodes weight resolution x y else 0) =
        (∑ y ∈ nodes with label y = community, weight x y) / total nodes weight -
          resolution * (degree nodes weight x *
            ∑ y ∈ nodes with label y = community, degree nodes weight y) /
              total nodes weight ^ 2 := by
    intro x hx
    rw [(mem_filter.mp hx).2, ← sum_filter, filter_congr fun y _ => eq_comm]
    unfold surplus
    rw [sum_sub_distrib, ← sum_div, ← sum_div, ← mul_sum, ← mul_sum]
  rw [sum_congr rfl hblock, sum_sub_distrib, ← sum_div, ← sum_div, ← mul_sum, ← sum_mul, div_pow,
    pow_two (∑ x ∈ nodes with label x = community, degree nodes weight x), mul_div_assoc]

end

variable [DecidableEq V]

def pull (label : V → κ) (node : V) (community : κ) : K :=
  ∑ y ∈ nodes.erase node, if label y = community then surplus nodes weight resolution node y else 0

section

variable {nodes weight resolution} {label label' : V → κ} {node : V}

theorem modularity_split (label : V → κ) (hsymm : ∀ x y, weight x y = weight y x) (hnode : node ∈ nodes) :
    modularity nodes weight resolution label =
      surplus nodes weight resolution node node +
        2 * pull nodes weight resolution label node (label node) +
          ∑ x ∈ nodes.erase node, ∑ y ∈ nodes.erase node,
            if label x = label y then surplus nodes weight resolution x y else 0 := by
  have hrow : ∀ x, (∑ y ∈ nodes, if label x = label y then surplus nodes weight resolution x y
        else 0) = (if label x = label node then surplus nodes weight resolution x node else 0) +
      ∑ y ∈ nodes.erase node, if label x = label y then surplus nodes weight resolution x y
        else 0 := fun x => (add_sum_erase nodes _ hnode).symm
  have hown : (∑ y ∈ nodes.erase node, if label node = label y then
        surplus nodes weight resolution node y else 0) =
      pull nodes weight resolution label node (label node) := by
    exact sum_congr rfl fun y _ => by simp only [eq_comm]
  have hother : (∑ x ∈ nodes.erase node, if label x = label node then
        surplus nodes weight resolution x node else 0) =
      pull nodes weight resolution label node (label node) := by
    exact sum_congr rfl fun x _ => by rw [surplus_comm hsymm x node]
  unfold modularity
  rw [← add_sum_erase nodes _ hnode, hrow node, if_pos rfl, hown,
    sum_congr rfl fun x _ => hrow x, sum_add_distrib, hother]
  ring

theorem pull_congr (h : ∀ y, y ≠ node → label y = label' y) (community : κ) :
    pull nodes weight resolution label node community =
      pull nodes weight resolution label' node community := by
  exact sum_congr rfl fun y hy => by rw [h y (ne_of_mem_erase hy)]

theorem modularity_move (hsymm : ∀ x y, weight x y = weight y x) (hnode : node ∈ nodes)
    (community : κ) :
    modularity nodes weight resolution (Function.update label node community) =
      modularity nodes weight resolution label +
        2 * (pull nodes weight resolution label node community -
          pull nodes weight resolution label node (label node)) := by
  have hsame : ∀ y, y ≠ node → Function.update label node community y = label y :=
    fun y hy => Function.update_of_ne hy _ _
  have hrest : (∑ x ∈ nodes.erase node, ∑ y ∈ nodes.erase node,
        if Function.update label node community x = Function.update label node community y then
          surplus nodes weight resolution x y else 0) =
      ∑ x ∈ nodes.erase node, ∑ y ∈ nodes.erase node,
        if label x = label y then surplus nodes weight resolution x y else 0 := by
    refine sum_congr rfl fun x hx => sum_congr rfl fun y hy => ?_
    rw [hsame x (ne_of_mem_erase hx), hsame y (ne_of_mem_erase hy)]
  rw [modularity_split _ hsymm hnode, hrest, Function.update_self, pull_congr hsame,
    modularity_split label hsymm hnode]
  ring

theorem pull_eq (hloop : weight node node = 0) (hnode : node ∈ nodes) (community : κ) :
    pull nodes weight resolution label node community =
      ((∑ y ∈ nodes with label y = community, weight node y) -
        resolution * degree nodes weight node *
          (∑ y ∈ nodes.erase node with label y = community, degree nodes weight y) /
            total nodes weight) / total nodes weight := by
  have hweights : (∑ y ∈ nodes with label y = community, weight node y) =
      ∑ y ∈ nodes.erase node with label y = community, weight node y := by
    rw [sum_filter, sum_filter, ← add_sum_erase nodes _ hnode, hloop, ite_self, zero_add]
  unfold pull surplus
  rw [hweights, ← sum_filter, sum_sub_distrib, ← sum_div, ← sum_div, ← mul_sum, ← mul_sum, sub_div,
    div_div, pow_two, mul_assoc]

end

end OmniSense.Library.Graph
