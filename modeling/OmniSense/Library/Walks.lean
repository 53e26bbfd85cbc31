import Mathlib.Algebra.BigOperators.Group.List.Basic
import Mathlib.Algebra.BigOperators.Ring.Finset
import Mathlib.Algebra.Order.Archimedean.Basic
import Mathlib.Algebra.Order.BigOperators.Group.Finset
import Mathlib.Algebra.Order.BigOperators.Group.List
import Mathlib.Algebra.Order.Ring.Defs
import Mathlib.Data.List.Pairwise
import Mathlib.Data.List.Permutation
import Mathlib.LinearAlgebra.FiniteDimensional.Basic
import Mathlib.Tactic.FieldSimp
import Mathlib.Tactic.Linarith
import Mathlib.Tactic.Ring

/-! What nodes pass on along arcs: a damped walk to its fixed point, and arcs taken one after another. -/

namespace OmniSense.Library

open List Function

/-! A damped walk over a finite set: every node passes on all it has, and a part of the whole is
drawn anew. It keeps distributions, contracts the L1 distance and has one fixed point. -/

section

open Finset

variable {κ 𝕜 : Type*} [Field 𝕜] {s : Finset κ} {flow : κ → κ → 𝕜} {d : 𝕜} {t v w u : κ → 𝕜}

/-- One round: `flow y x` is the part of what `y` has that goes to `x`. -/
def damped (s : Finset κ) (flow : κ → κ → 𝕜) (d : 𝕜) (t v : κ → 𝕜) (x : κ) : 𝕜 :=
  (1 - d) * t x + d * ∑ y ∈ s, v y * flow y x

variable [LinearOrder 𝕜]

structure Distribution (s : Finset κ) (v : κ → 𝕜) : Prop where
  nonneg : ∀ x ∈ s, 0 ≤ v x
  total : ∑ x ∈ s, v x = 1

def l1 (s : Finset κ) (v w : κ → 𝕜) : 𝕜 := ∑ x ∈ s, |v x - w x|

theorem l1_congr {v' w' : κ → 𝕜} (hv : ∀ x ∈ s, v x = v' x) (hw : ∀ x ∈ s, w x = w' x) :
    l1 s v w = l1 s v' w' :=
  sum_congr rfl fun x hx => by rw [hv x hx, hw x hx]

theorem sum_flow (hflow : ∀ y ∈ s, Distribution s (flow y)) (v : κ → 𝕜) :
    ∑ x ∈ s, ∑ y ∈ s, v y * flow y x = ∑ y ∈ s, v y := by
  rw [sum_comm]
  refine sum_congr rfl fun y hy => ?_
  rw [← mul_sum, (hflow y hy).total, mul_one]

variable [IsStrictOrderedRing 𝕜]

theorem l1_nonneg : 0 ≤ l1 s v w := sum_nonneg fun _ _ => abs_nonneg _

theorem l1_triangle : l1 s v w ≤ l1 s u v + l1 s u w := by
  unfold l1
  rw [← sum_add_distrib]
  refine sum_le_sum fun x _ => ?_
  rw [abs_sub_comm (u x)]
  exact abs_sub_le _ _ _

theorem eq_of_l1_le_zero (h : l1 s v w ≤ 0) : ∀ x ∈ s, v x = w x := by
  intro x hx
  have hzero := (sum_eq_zero_iff_of_nonneg fun _ _ => abs_nonneg _).mp (h.antisymm l1_nonneg) x hx
  exact sub_eq_zero.mp (abs_eq_zero.mp hzero)

section

variable (hflow : ∀ y ∈ s, Distribution s (flow y)) (hd : 0 ≤ d)

include hflow hd

theorem Distribution.damped (hd1 : d ≤ 1) (ht : Distribution s t) (hv : Distribution s v) :
    Distribution s (damped s flow d t v) where
  nonneg x hx := by
    have hsum : 0 ≤ ∑ y ∈ s, v y * flow y x := sum_nonneg fun y hy =>
      mul_nonneg (hv.nonneg y hy) ((hflow y hy).nonneg x hx)
    exact add_nonneg (mul_nonneg (sub_nonneg.mpr hd1) (ht.nonneg x hx)) (mul_nonneg hd hsum)
  total := by
    unfold Library.damped
    rw [sum_add_distrib, ← mul_sum, ← mul_sum, sum_flow hflow, ht.total, hv.total]
    ring

theorem l1_damped_le (v w : κ → 𝕜) :
    l1 s (damped s flow d t v) (damped s flow d t w) ≤ d * l1 s v w := by
  have hdiff : ∀ x, damped s flow d t v x - damped s flow d t w x =
      d * ∑ y ∈ s, (v y - w y) * flow y x := by
    intro x
    unfold damped
    simp only [sub_mul, sum_sub_distrib]
    ring
  calc l1 s (damped s flow d t v) (damped s flow d t w)
      = ∑ x ∈ s, d * |∑ y ∈ s, (v y - w y) * flow y x| := by
        refine sum_congr rfl fun x _ => ?_
        rw [hdiff x, abs_mul, abs_of_nonneg hd]
    _ ≤ ∑ x ∈ s, d * ∑ y ∈ s, |v y - w y| * flow y x := by
        refine sum_le_sum fun x hx => mul_le_mul_of_nonneg_left ?_ hd
        refine (abs_sum_le_sum_abs _ _).trans (sum_le_sum fun y hy => ?_)
        rw [abs_mul, abs_of_nonneg ((hflow y hy).nonneg x hx)]
    _ = d * l1 s v w := by rw [← mul_sum, sum_flow hflow]; rfl

theorem damped_fixed_unique (hd1 : d < 1) (hv : ∀ x ∈ s, damped s flow d t v x = v x)
    (hw : ∀ x ∈ s, damped s flow d t w x = w x) : ∀ x ∈ s, v x = w x := by
  have hle : l1 s v w ≤ d * l1 s v w :=
    (l1_congr hv hw).symm.le.trans (l1_damped_le hflow hd v w)
  refine eq_of_l1_le_zero ?_
  by_contra hpos
  have hlt := mul_lt_mul_of_pos_right hd1 (not_le.mp hpos)
  linarith

theorem l1_fixed_le (hd1 : d < 1) (hu : ∀ x ∈ s, damped s flow d t u x = u x) (v : κ → 𝕜) :
    l1 s (damped s flow d t v) u ≤ l1 s (damped s flow d t v) v * d / (1 - d) := by
  have hnext : l1 s (damped s flow d t v) u ≤ d * l1 s v u :=
    (l1_congr (fun _ _ => rfl) hu).symm.le.trans (l1_damped_le hflow hd v u)
  have htri := mul_le_mul_of_nonneg_left
    (l1_triangle (s := s) (u := damped s flow d t v) (v := v) (w := u)) hd
  rw [le_div_iff₀ (sub_pos.mpr hd1)]
  linarith

theorem exists_damped_fixed (hd1 : d < 1) (t : κ → 𝕜) :
    ∃ u : κ → 𝕜, ∀ x ∈ s, damped s flow d t u x = u x := by
  classical
  let extend (v : s → 𝕜) (x : κ) : 𝕜 := if h : x ∈ s then v ⟨x, h⟩ else 0
  have hextend : ∀ (v : s → 𝕜) (x : s), extend v x = v x := fun v x => dif_pos x.2
  have hsum : ∀ (v : s → 𝕜) (x : κ),
      ∑ y ∈ s, extend v y * flow y x = ∑ y : s, v y * flow y x := by
    intro v x
    rw [← sum_coe_sort]
    exact sum_congr rfl fun y _ => by rw [hextend]
  -- What is left of a vector when the part passed on is taken away.
  let rest : (s → 𝕜) →ₗ[𝕜] (s → 𝕜) :=
    { toFun := fun v x => v x - d * ∑ y : s, v y * flow y x
      map_add' := fun v w => by
        funext x
        simp only [Pi.add_apply, add_mul, sum_add_distrib]
        ring
      map_smul' := fun c v => by
        funext x
        simp only [Pi.smul_apply, smul_eq_mul, RingHom.id_apply, mul_assoc, ← mul_sum]
        ring }
  have hrest : Function.Surjective rest := by
    refine LinearMap.injective_iff_surjective.mp ((injective_iff_map_eq_zero rest).mpr fun v hv => ?_)
    -- A vector of which nothing is left is a fixed point of the walk that draws nothing anew.
    have hv' : ∀ x ∈ s, damped s flow d 0 (extend v) x = extend v x := by
      intro x hx
      have hzero : v ⟨x, hx⟩ - d * ∑ y : s, v y * flow y x = 0 := congrFun hv ⟨x, hx⟩
      unfold damped
      rw [hsum, ← sub_eq_zero.mp hzero, Pi.zero_apply, mul_zero, zero_add]
      exact (hextend v ⟨x, hx⟩).symm
    have hzero : ∀ x ∈ s, damped s flow d (0 : κ → 𝕜) 0 x = (0 : κ → 𝕜) x := by
      intro x _
      unfold damped
      simp
    funext x
    rw [← hextend v x]
    exact damped_fixed_unique hflow hd hd1 hv' hzero x x.2
  obtain ⟨v, hv⟩ := hrest fun x => (1 - d) * t x
  refine ⟨extend v, fun x hx => ?_⟩
  have hx' : v ⟨x, hx⟩ - d * ∑ y : s, v y * flow y x = (1 - d) * t x := congrFun hv ⟨x, hx⟩
  unfold damped
  rw [hsum, ← hx', sub_add_cancel]
  exact (hextend v ⟨x, hx⟩).symm

/-! ## Rounds after rounds -/

variable {x : ℕ → κ → 𝕜} (hx : ∀ k, ∀ y ∈ s, x (k + 1) y = damped s flow d t (x k) y)

include hx

theorem l1_change_le (k : ℕ) : l1 s (x (k + 2)) (x (k + 1)) ≤ d * l1 s (x (k + 1)) (x k) :=
  (l1_congr (hx (k + 1)) (hx k)).le.trans (l1_damped_le hflow hd _ _)

theorem l1_changes_le (k : ℕ) : l1 s (x (k + 1)) (x k) ≤ d ^ k * l1 s (x 1) (x 0) := by
  induction k with
  | zero => rw [pow_zero, one_mul]
  | succ k ih =>
    calc l1 s (x (k + 2)) (x (k + 1)) ≤ d * l1 s (x (k + 1)) (x k) := l1_change_le hflow hd hx k
      _ ≤ d * (d ^ k * l1 s (x 1) (x 0)) := mul_le_mul_of_nonneg_left ih hd
      _ = d ^ (k + 1) * l1 s (x 1) (x 0) := by rw [pow_succ']; ring

theorem exists_small_change [Archimedean 𝕜] (hd1 : d < 1) {tolerance : 𝕜} (h : 0 < tolerance) :
    ∃ k, l1 s (x (k + 1)) (x k) < tolerance := by
  have hpos : 0 < l1 s (x 1) (x 0) + 1 := add_pos_of_nonneg_of_pos l1_nonneg one_pos
  obtain ⟨k, hk⟩ := exists_pow_lt_of_lt_one (div_pos h hpos) hd1
  refine ⟨k, (l1_changes_le hflow hd hx k).trans_lt ?_⟩
  have hlt : d ^ k * (l1 s (x 1) (x 0) + 1) < tolerance := (lt_div_iff₀ hpos).mp hk
  have hpow : 0 ≤ d ^ k := pow_nonneg hd k
  linarith

theorem distributions (hd1 : d ≤ 1) (ht : Distribution s t) (h0 : Distribution s (x 0)) (k : ℕ) :
    Distribution s (x k) := by
  induction k with
  | zero => exact h0
  | succ k ih =>
    obtain ⟨hnonneg, htotal⟩ := Distribution.damped hflow hd hd1 ht ih
    exact ⟨fun y hy => (hx k y hy).symm ▸ hnonneg y hy, (sum_congr rfl (hx k)).trans htotal⟩

end

end

/-! Arcs that add to a table what they read from it: one after another, or all from the same
table. The two agree in every order unless an arc reads what another one writes. -/

section

variable {V K : Type*}

structure Arc (V K : Type*) where
  source : V
  target : V
  weight : K

section

variable [CommRing K] {table table' : V → K} {arcs arcs' : List (Arc V K)}

def Feeds (table : V → K) (first second : Arc V K) : Prop :=
  first.target = second.source ∧ table first.source * first.weight * second.weight ≠ 0

def Unfed (table : V → K) (arcs : List (Arc V K)) : Prop :=
  arcs.Pairwise fun first second => ¬Feeds table first second ∧ ¬Feeds table second first

theorem Unfed.perm (h : Unfed table arcs) (hperm : arcs.Perm arcs') : Unfed table arcs' :=
  (hperm.pairwise_iff fun hxy => ⟨hxy.2, hxy.1⟩).mp h

theorem unfed_congr
    (h : ∀ arc ∈ arcs, table' arc.source * arc.weight = table arc.source * arc.weight)
    (hunfed : Unfed table arcs) : Unfed table' arcs := by
  refine hunfed.imp_of_mem fun {a b} ha hb hab => ?_
  unfold Feeds
  rw [h a ha, h b hb]
  exact hab

theorem exists_feeds (h : ¬Unfed table arcs) :
    ∃ first second rest, arcs.Perm (first :: second :: rest) ∧ Feeds table first second := by
  induction arcs with
  | nil => exact absurd List.Pairwise.nil h
  | cons arc arcs ih =>
    by_cases htail : Unfed table arcs
    · have hhead : ¬∀ other ∈ arcs, ¬Feeds table arc other ∧ ¬Feeds table other arc :=
        fun hhead => h (pairwise_cons.mpr ⟨hhead, htail⟩)
      obtain ⟨other, hother, hfeeds⟩ : ∃ other ∈ arcs, ¬Feeds table arc other → Feeds table other arc := by
        by_contra hnone
        refine hhead fun other hother => ?_
        by_contra hboth
        exact hnone ⟨other, hother, fun hforth => not_not.mp fun hback => hboth ⟨hforth, hback⟩⟩
      obtain ⟨front, back, rfl⟩ := append_of_mem hother
      by_cases hforth : Feeds table arc other
      · exact ⟨arc, other, front ++ back, perm_middle.cons arc, hforth⟩
      · exact ⟨other, arc, front ++ back, (perm_middle.cons arc).trans (.swap ..),
          hfeeds hforth⟩
    · obtain ⟨first, second, rest, hperm, hfeeds⟩ := ih htail
      exact ⟨first, second, arc :: rest, (hperm.cons arc).trans
        ((List.Perm.swap ..).trans ((List.Perm.swap ..).cons first)), hfeeds⟩

variable [DecidableEq V] {arc : Arc V K} {v : V}

def push (table : V → K) (arc : Arc V K) : V → K :=
  Function.update table arc.target (table arc.target + table arc.source * arc.weight)

def pushAll (table : V → K) (arcs : List (Arc V K)) : V → K := arcs.foldl push table

def inflow (table : V → K) (arcs : List (Arc V K)) (v : V) : K :=
  (arcs.map fun arc => if arc.target = v then table arc.source * arc.weight else 0).sum

def diffuse (table : V → K) (arcs : List (Arc V K)) (v : V) : K := table v + inflow table arcs v

theorem push_apply (table : V → K) (arc : Arc V K) (v : V) :
    push table arc v = table v + if arc.target = v then table arc.source * arc.weight else 0 := by
  unfold push
  by_cases hv : v = arc.target
  · subst hv
    rw [update_self, if_pos rfl]
  · rw [update_of_ne hv, if_neg (Ne.symm hv), add_zero]

theorem inflow_cons (table : V → K) (arc : Arc V K) (arcs : List (Arc V K)) (v : V) :
    inflow table (arc :: arcs) v =
      (if arc.target = v then table arc.source * arc.weight else 0) + inflow table arcs v := by
  unfold inflow
  rw [map_cons, sum_cons]

theorem inflow_perm (h : arcs.Perm arcs') (v : V) : inflow table arcs v = inflow table arcs' v := by
  exact (h.map _).sum_eq

theorem diffuse_perm (h : arcs.Perm arcs') : diffuse table arcs = diffuse table arcs' := by
  funext v
  unfold diffuse
  rw [inflow_perm h]

theorem push_reads (table : V → K) {arc : Arc V K} (h : ∀ other ∈ arcs, ¬Feeds table arc other) :
    ∀ other ∈ arcs, push table arc other.source * other.weight =
      table other.source * other.weight := by
  intro other hother
  have hfeeds := h other hother
  rw [push_apply]
  split_ifs with htarget
  · have hzero : table arc.source * arc.weight * other.weight = 0 := by
      by_contra hne
      exact hfeeds ⟨htarget, hne⟩
    rw [add_mul, hzero, add_zero]
  · rw [add_zero]

theorem inflow_congr
    (h : ∀ arc ∈ arcs, table' arc.source * arc.weight = table arc.source * arc.weight) (v : V) :
    inflow table' arcs v = inflow table arcs v := by
  exact congrArg List.sum (map_congr_left fun arc harc => by rw [h arc harc])

theorem pushAll_eq_diffuse (h : Unfed table arcs) : pushAll table arcs = diffuse table arcs := by
  induction arcs generalizing table with
  | nil =>
    funext v
    exact (add_zero _).symm
  | cons arc arcs ih =>
    obtain ⟨hhead, htail⟩ := pairwise_cons.mp h
    have hreads := push_reads table fun other hother => (hhead other hother).1
    change pushAll (push table arc) arcs = _
    rw [ih (unfed_congr hreads htail)]
    funext v
    unfold diffuse
    rw [inflow_congr hreads, push_apply, inflow_cons, add_assoc]

/-! ## Stage after stage -/

def diffuseTo (table : V → K) (stages : ℕ → List (Arc V K)) : ℕ → V → K
  | 0 => table
  | n + 1 => diffuse (diffuseTo table stages n) (stages n)

def pushTo (table : V → K) (stages : ℕ → List (Arc V K)) : ℕ → V → K
  | 0 => table
  | n + 1 => pushAll (pushTo table stages n) (stages n)

theorem pushTo_eq_diffuseTo {stages stages' : ℕ → List (Arc V K)} {n : ℕ}
    (hperm : ∀ n, (stages' n).Perm (stages n))
    (hunfed : ∀ k < n, Unfed (diffuseTo table stages k) (stages k)) :
    pushTo table stages' n = diffuseTo table stages n := by
  induction n with
  | zero => rfl
  | succ n ih =>
    change pushAll (pushTo table stages' n) (stages' n) = diffuse (diffuseTo table stages n) (stages n)
    rw [ih fun k hk => hunfed k (hk.trans (Nat.lt_succ_self n)),
      pushAll_eq_diffuse ((hunfed n (Nat.lt_succ_self n)).perm (hperm n).symm), diffuse_perm (hperm n)]

end

/-! ## Weights that are not negative -/

section

variable [CommRing K] [LinearOrder K] [IsStrictOrderedRing K] [DecidableEq V]
  {table table' : V → K} {arcs arcs' : List (Arc V K)}

def Nonneg (arcs : List (Arc V K)) : Prop := ∀ arc ∈ arcs, 0 ≤ arc.weight

theorem inflow_mono (harcs : Nonneg arcs) (h : ∀ v, table v ≤ table' v) (v : V) :
    inflow table arcs v ≤ inflow table' arcs v := by
  refine sum_le_sum fun arc harc => ?_
  split_ifs
  · exact mul_le_mul_of_nonneg_right (h _) (harcs arc harc)
  · exact le_rfl

theorem push_mono {arc : Arc V K} (harc : 0 ≤ arc.weight) (h : ∀ v, table v ≤ table' v) (v : V) :
    push table arc v ≤ push table' arc v := by
  rw [push_apply, push_apply]
  refine add_le_add (h v) ?_
  split_ifs
  · exact mul_le_mul_of_nonneg_right (h _) harc
  · exact le_rfl

theorem le_push {arc : Arc V K} (harc : 0 ≤ arc.weight) (h : ∀ v, 0 ≤ table v) (v : V) :
    table v ≤ push table arc v := by
  rw [push_apply]
  refine le_add_of_nonneg_right ?_
  split_ifs
  · exact mul_nonneg (h _) harc
  · exact le_rfl

theorem pushAll_mono (harcs : Nonneg arcs) (h : ∀ v, table v ≤ table' v) (v : V) :
    pushAll table arcs v ≤ pushAll table' arcs v := by
  induction arcs generalizing table table' with
  | nil => exact h v
  | cons arc arcs ih =>
    obtain ⟨harc, harcs⟩ := forall_mem_cons.mp harcs
    exact ih harcs (push_mono harc h)

theorem diffuse_le_pushAll (harcs : Nonneg arcs) (h : ∀ v, 0 ≤ table v) (v : V) :
    diffuse table arcs v ≤ pushAll table arcs v := by
  induction arcs generalizing table with
  | nil => exact (add_zero _).le
  | cons arc arcs ih =>
    obtain ⟨harc, harcs⟩ := forall_mem_cons.mp harcs
    have hgrown := le_push harc h
    have hrest := ih harcs fun v => (h v).trans (hgrown v)
    have hinflow := inflow_mono harcs hgrown v
    unfold diffuse at hrest ⊢
    rw [push_apply] at hrest
    rw [inflow_cons]
    exact le_trans (by linarith) hrest

theorem diffuse_lt_pushAll {first second : Arc V K} (harcs : Nonneg (first :: second :: arcs))
    (h : ∀ v, 0 ≤ table v) (hfeeds : Feeds table first second) :
    diffuse table (first :: second :: arcs) second.target <
      pushAll table (first :: second :: arcs) second.target := by
  obtain ⟨hfirst, htail⟩ := forall_mem_cons.mp harcs
  obtain ⟨hsecond, harcs⟩ := forall_mem_cons.mp htail
  have hgrown := le_push hfirst h
  have hagain := le_push hsecond fun v => (h v).trans (hgrown v)
  have hboth : ∀ v, table v ≤ push (push table first) second v :=
    fun v => (hgrown v).trans (hagain v)
  have hrest := diffuse_le_pushAll harcs (fun v => (h v).trans (hboth v)) second.target
  have hinflow := inflow_mono harcs hboth second.target
  have hpositive : 0 < table first.source * first.weight * second.weight :=
    lt_of_le_of_ne (mul_nonneg (mul_nonneg (h _) hfirst) hsecond) hfeeds.2.symm
  have hread : push table first second.source =
      table second.source + table first.source * first.weight := by
    rw [push_apply, if_pos hfeeds.1]
  change _ < pushAll (push (push table first) second) arcs second.target
  unfold diffuse at hrest ⊢
  rw [push_apply, if_pos rfl, hread, add_mul, push_apply] at hrest
  rw [inflow_cons, inflow_cons, if_pos rfl]
  linarith

variable {stages stages' : ℕ → List (Arc V K)}

theorem diffuseTo_nonneg (hstages : ∀ n, Nonneg (stages n)) (h : ∀ v, 0 ≤ table v) (n : ℕ) (v : V) :
    0 ≤ diffuseTo table stages n v := by
  induction n generalizing v with
  | zero => exact h v
  | succ n ih =>
    refine add_nonneg (ih v) (sum_nonneg fun amount hamount => ?_)
    obtain ⟨arc, harc, rfl⟩ := mem_map.mp hamount
    split_ifs
    · exact mul_nonneg (ih _) (hstages n arc harc)
    · exact le_rfl

theorem diffuseTo_le_pushTo (hstages : ∀ n, Nonneg (stages n)) (h : ∀ v, 0 ≤ table v)
    (hperm : ∀ n, (stages' n).Perm (stages n)) (n : ℕ) (v : V) :
    diffuseTo table stages n v ≤ pushTo table stages' n v := by
  induction n generalizing v with
  | zero => exact le_rfl
  | succ n ih =>
    have hnonneg : Nonneg (stages' n) := fun arc harc =>
      hstages n arc ((hperm n).mem_iff.mp harc)
    change diffuse _ (stages n) v ≤ pushAll _ (stages' n) v
    rw [← diffuse_perm (hperm n)]
    exact (diffuse_le_pushAll hnonneg (diffuseTo_nonneg hstages h n) v).trans
      (pushAll_mono hnonneg ih v)

theorem pushTo_eq_diffuseTo_iff (hstages : ∀ n, Nonneg (stages n)) (h : ∀ v, 0 ≤ table v) (n : ℕ) :
    (∀ stages' : ℕ → List (Arc V K), (∀ k, (stages' k).Perm (stages k)) →
      pushTo table stages' n = diffuseTo table stages n) ↔
      ∀ k < n, Unfed (diffuseTo table stages k) (stages k) := by
  refine ⟨fun hall k hk => ?_, fun hunfed stages' hperm => pushTo_eq_diffuseTo hperm hunfed⟩
  by_contra hfed
  obtain ⟨first, second, rest, horder, hfeeds⟩ := exists_feeds hfed
  have hperm : ∀ m, (Function.update stages k (first :: second :: rest) m).Perm (stages m) := by
    intro m
    by_cases hm : m = k
    · subst hm
      rw [update_self]
      exact horder.symm
    · rw [update_of_ne hm]
  have hnonneg : Nonneg (first :: second :: rest) := fun arc harc =>
    hstages k arc (horder.mem_iff.mpr harc)
  -- What the pair brings too much stays to the last stage.
  have hmore : ∀ m, k < m → diffuseTo table stages m second.target <
      pushTo table (Function.update stages k (first :: second :: rest)) m second.target := by
    have hgrown := diffuseTo_le_pushTo hstages h hperm
    refine fun m hm => Nat.le_induction ?_ (fun m _ ih => ?_) m hm
    · change diffuse _ (stages k) _ < pushAll _ (Function.update stages k _ k) _
      rw [update_self, diffuse_perm horder]
      exact (diffuse_lt_pushAll hnonneg (diffuseTo_nonneg hstages h k) hfeeds).trans_le
        (pushAll_mono hnonneg (hgrown k) _)
    · have hlater : Nonneg (Function.update stages k (first :: second :: rest) m) :=
        fun arc harc => hstages m arc ((hperm m).mem_iff.mp harc)
      change diffuse _ (stages m) _ < pushAll _ (Function.update stages k _ m) _
      rw [← diffuse_perm (hperm m)]
      refine (add_lt_add_of_lt_of_le ih (inflow_mono hlater (hgrown m) _)).trans_le
        (diffuse_le_pushAll hlater (fun v => ?_) _)
      exact (diffuseTo_nonneg hstages h m v).trans (hgrown m v)
  exact (hmore n hk).ne' (congrFun (hall _ hperm) second.target)

end

end

end OmniSense.Library
