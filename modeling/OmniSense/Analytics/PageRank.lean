import Mathlib.Algebra.BigOperators.Field
import Mathlib.Algebra.BigOperators.Group.Finset.Basic
import Mathlib.Tactic.NormNum
import OmniSense.Analytics.RowOrder
import OmniSense.Library.Walks

/-! PageRank as a damped walk: an iteration keeps a distribution, and the iterations close in on the
one fixed point. -/

namespace OmniSense.Analytics

open Library List PageRank

namespace PageRank

variable {p : Projection} {damping : ℚ} {teleport scores : String → ℚ}

def flow (p : Projection) (teleport : String → ℚ) (node x : String) : ℚ :=
  if p.weightedDegree node ≤ 0 then teleport x else p.adjacency node x / p.weightedDegree node

def scoresAfter (p : Projection) (damping : ℚ) (teleport : String → ℚ) : ℕ → String → ℚ
  | 0 => fun _ => 1 / p.size
  | k + 1 => (pass p damping teleport (scoresAfter p damping teleport k)).incoming

/-! ## One iteration -/

theorem sum_nodes (hp : p.nodes.Nodup) (f : String → ℚ) :
    (p.nodes.map f).sum = ∑ x ∈ p.nodes.toFinset, f x :=
  (sum_toFinset f hp).symm

theorem sum_neighbours (hp : p.nodes.Nodup) (f : String → ℚ → ℚ) (hf : ∀ x, f x 0 = 0)
    (node : String) : ((p.neighbours node).map fun entry => f entry.1 entry.2).sum =
      ∑ x ∈ p.nodes.toFinset, f x (p.adjacency node x) := by
  have hperm := sortedBy_perm (id : String → String) p.nodes
  have hsum : ∀ l : List String,
      ((l.filter fun n => p.adjacency node n ≠ 0).map fun n => f n (p.adjacency node n)).sum =
        (l.map fun n => f n (p.adjacency node n)).sum := by
    intro l
    induction l with
    | nil => rfl
    | cons n l ih =>
      by_cases hn : p.adjacency node n = 0
      · rw [filter_cons_of_neg (by simp [hn]), ih, map_cons, sum_cons, hn, hf,
          zero_add]
      · rw [filter_cons_of_pos (by simp [hn]), map_cons, map_cons, sum_cons,
          sum_cons, ih]
  unfold Projection.neighbours
  rw [map_map]
  change (List.map (fun n => f n (p.adjacency node n)) _).sum = _
  rw [hsum, (hperm.map _).sum_eq, sum_nodes hp]

theorem weightedDegree_eq (hp : p.nodes.Nodup) (node : String) :
    p.weightedDegree node = ∑ x ∈ p.nodes.toFinset, p.adjacency node x :=
  sum_neighbours hp (fun _ weight => weight) (fun _ => rfl) node

theorem given_eq (hp : p.nodes.Nodup) (scores : String → ℚ) (node : String) {x : String}
    (hx : x ∈ p.nodes) : given p scores node x =
      if p.weightedDegree node ≤ 0 then 0
      else scores node * (p.adjacency node x / p.weightedDegree node) := by
  unfold given
  split_ifs
  · rfl
  · rw [sum_neighbours hp (fun n weight => if x = n then _ * weight else 0)
      (fun n => by rw [mul_zero, ite_self]), Finset.sum_ite_eq,
      if_pos (mem_toFinset.mpr hx)]
    ring

theorem foldl_spreadFrom (scores : String → ℚ) (nodes : List String) (s : Spread) :
    nodes.foldl (spreadFrom p scores) s =
      { incoming := fun x => s.incoming x + (nodes.map fun node => given p scores node x).sum
        danglingMass := s.danglingMass +
          (nodes.map fun node => if p.weightedDegree node ≤ 0 then scores node else 0).sum } := by
  induction nodes generalizing s with
  | nil => simp
  | cons node nodes ih =>
    rw [foldl_cons, ih, spreadFrom_eq]
    simp only [map_cons, sum_cons, add_assoc]

theorem incoming_eq (hp : p.nodes.Nodup) (teleport scores : String → ℚ) {x : String}
    (hx : x ∈ p.nodes) :
    (spread p scores).incoming x + (spread p scores).danglingMass * teleport x =
      ∑ y ∈ p.nodes.toFinset, scores y * flow p teleport y x := by
  unfold spread
  rw [foldl_spreadFrom]
  dsimp only
  rw [zero_add, zero_add, sum_nodes hp, sum_nodes hp, Finset.sum_mul, ← Finset.sum_add_distrib]
  refine Finset.sum_congr rfl fun y _ => ?_
  rw [given_eq hp scores y hx]
  unfold flow
  split_ifs
  · rw [zero_add]
  · rw [zero_mul, add_zero]

def updated (damping : ℚ) (teleport : String → ℚ) (danglingMass : ℚ) (incoming : String → ℚ)
    (node : String) : ℚ :=
  (1 - damping) * teleport node + damping * (incoming node + danglingMass * teleport node)

variable (damping teleport) in
theorem foldl_settleNode (scores : String → ℚ) (danglingMass : ℚ) {nodes : List String}
    (hnodup : nodes.Nodup) (s : Settled) :
    let settled := nodes.foldl (settleNode damping teleport scores danglingMass) s
    (∀ x, settled.incoming x =
      if x ∈ nodes then updated damping teleport danglingMass s.incoming x else s.incoming x) ∧
    settled.delta = s.delta + (nodes.map fun x =>
      |updated damping teleport danglingMass s.incoming x - scores x|).sum := by
  induction nodes generalizing s with
  | nil => exact ⟨fun x => (if_neg not_mem_nil).symm, (add_zero _).symm⟩
  | cons node nodes ih =>
    obtain ⟨hnew, hnodup⟩ := nodup_cons.mp hnodup
    obtain ⟨hincoming, hdelta⟩ := ih hnodup (settleNode damping teleport scores danglingMass s node)
    -- The nodes to come have not been settled yet.
    have hrest : ∀ x, x ≠ node →
        (settleNode damping teleport scores danglingMass s node).incoming x = s.incoming x :=
      fun x hne => Function.update_of_ne hne _ _
    have hself : (settleNode damping teleport scores danglingMass s node).incoming node =
        updated damping teleport danglingMass s.incoming node := Function.update_self ..
    have hupdated : ∀ x, x ≠ node → updated damping teleport danglingMass
        (settleNode damping teleport scores danglingMass s node).incoming x =
          updated damping teleport danglingMass s.incoming x := by
      intro x hne
      unfold updated
      rw [hrest x hne]
    refine ⟨fun x => ?_, ?_⟩
    · rw [foldl_cons, hincoming]
      by_cases hx : x = node
      · subst hx
        rw [if_neg hnew, hself, if_pos mem_cons_self]
      · simp only [mem_cons, hx, false_or, hupdated x hx, hrest x hx]
    · have hsame : (nodes.map fun x => |updated damping teleport danglingMass
          (settleNode damping teleport scores danglingMass s node).incoming x - scores x|) =
          nodes.map fun x => |updated damping teleport danglingMass s.incoming x - scores x| :=
        map_congr_left fun x hx => by rw [hupdated x (ne_of_mem_of_not_mem hx hnew)]
      rw [foldl_cons, hdelta, hsame, map_cons, sum_cons, ← add_assoc]
      rfl

theorem pass_eq (hp : p.nodes.Nodup) (damping : ℚ) (teleport scores : String → ℚ) :
    (∀ x ∈ p.nodes.toFinset, (pass p damping teleport scores).incoming x =
      damped p.nodes.toFinset (flow p teleport) damping teleport scores x) ∧
    (pass p damping teleport scores).delta =
      l1 p.nodes.toFinset (pass p damping teleport scores).incoming scores := by
  obtain ⟨hincoming, hdelta⟩ := foldl_settleNode damping teleport
    scores (spread p scores).danglingMass hp ⟨(spread p scores).incoming, 0⟩
  constructor
  · intro x hx
    have hmem := mem_toFinset.mp hx
    unfold pass damped
    rw [hincoming, if_pos hmem]
    unfold updated
    rw [incoming_eq hp teleport scores hmem]
  · unfold pass l1
    rw [hdelta, zero_add, sum_nodes hp]
    refine Finset.sum_congr rfl fun x hx => ?_
    rw [hincoming, if_pos (mem_toFinset.mp hx)]

theorem flow_distribution (hp : p.Undirected)
    (ht : Distribution p.nodes.toFinset teleport) :
    ∀ y ∈ p.nodes.toFinset, Distribution p.nodes.toFinset (flow p teleport y) := by
  intro y _
  unfold flow
  by_cases hdegree : p.weightedDegree y ≤ 0
  · simp only [if_pos hdegree]
    exact ht
  · simp only [if_neg hdegree]
    have hpos := not_le.mp hdegree
    refine ⟨fun x _ => div_nonneg (hp.nonneg y x) hpos.le, ?_⟩
    rw [← Finset.sum_div, ← weightedDegree_eq hp.nodup, div_self hpos.ne']

theorem uniform_distribution (hp : p.nodes.Nodup) (hsize : p.size ≠ 0) :
    Distribution p.nodes.toFinset fun _ => (1 / p.size : ℚ) := by
  refine ⟨fun _ _ => div_nonneg zero_le_one (Nat.cast_nonneg _), ?_⟩
  rw [Finset.sum_const, toFinset_card_of_nodup hp, nsmul_eq_mul]
  exact mul_one_div_cancel (Nat.cast_ne_zero.mpr hsize)

theorem teleport_distribution (hp : p.nodes.Nodup) (hsize : p.size ≠ 0)
    {personalization : Option (String → Option ℚ)}
    (haccepted : PageRank.teleport p personalization = .ok teleport) :
    Distribution p.nodes.toFinset teleport := by
  unfold PageRank.teleport at haccepted
  cases personalization with
  | none =>
    cases haccepted
    exact uniform_distribution hp hsize
  | some personalization =>
    dsimp only at haccepted
    split_ifs at haccepted with htotal
    cases haccepted
    have hnonneg : ∀ x, 0 ≤ ((personalization x).filter (0 < ·)).getD 0 := by
      intro x
      cases hx : (personalization x).filter (0 < ·) with
      | none => exact le_rfl
      | some q => exact (of_decide_eq_true (Option.filter_eq_some_iff.mp hx).2).le
    refine ⟨fun x _ => div_nonneg (hnonneg x) (not_le.mp htotal).le, ?_⟩
    rw [← Finset.sum_div, ← sum_nodes hp]
    exact div_self (not_le.mp htotal).ne'

/-! ## The loop -/

variable {tolerance : ℚ}

variable (p damping teleport tolerance) in
theorem iterate_scores (remaining k : ℕ) :
    let ranked := iterate p damping teleport tolerance remaining k (scoresAfter p damping teleport k)
    ranked.1 = scoresAfter p damping teleport ranked.2.1 ∧ (ranked.2.2 = true →
      ∃ j, ranked.2.1 = j + 1 ∧
        (pass p damping teleport (scoresAfter p damping teleport j)).delta < tolerance) := by
  induction remaining generalizing k with
  | zero => exact ⟨rfl, nofun⟩
  | succ remaining ih =>
    unfold iterate
    dsimp only
    split_ifs with hdelta
    · exact ⟨rfl, fun _ => ⟨k, rfl, hdelta⟩⟩
    · exact ih (k + 1)

theorem iterate_converges {remaining k j : ℕ} (hj : j < remaining)
    (hdelta : (pass p damping teleport (scoresAfter p damping teleport (k + j))).delta < tolerance) :
    (iterate p damping teleport tolerance remaining k
      (scoresAfter p damping teleport k)).2.2 = true := by
  induction remaining generalizing k j with
  | zero => exact absurd hj (Nat.not_lt_zero j)
  | succ remaining ih =>
    unfold iterate
    dsimp only
    split_ifs with hnow
    · rfl
    · cases j with
      | zero => exact absurd hdelta hnow
      | succ j => exact ih (k := k + 1) (Nat.lt_of_succ_lt_succ hj) (by rwa [Nat.add_right_comm])

end PageRank

theorem pagerank_eq {p : Projection} {damping : ℚ} {teleport : String → ℚ}
    {personalization : Option (String → Option ℚ)} (hsize : p.size ≠ 0) (hdamping : 0 < damping)
    (hdamping' : damping < 1) (haccepted : PageRank.teleport p personalization = .ok teleport)
    (maxIterations : ℕ) (tolerance : ℚ) :
    let ranked := iterate p damping teleport tolerance maxIterations 0
      (PageRank.scoresAfter p damping teleport 0)
    pagerank p damping maxIterations tolerance personalization =
      .ok ⟨p.scored ranked.1, ranked.2.1, ranked.2.2, p.size, p.edgeCount⟩ := by
  unfold pagerank
  rw [if_neg (not_not.mpr ⟨hdamping, hdamping'⟩), if_neg hsize, haccepted]
  rfl

/-- After every iteration the scores are a distribution, and each iteration changes them by at most
`damping` times what the one before did. So the loop converges, given enough iterations, and ends
near the one fixed point. -/
theorem pagerank_contracts (p : Projection) (hp : p.Undirected) (hsize : p.size ≠ 0) (damping : ℚ)
    (hdamping : 0 < damping) (hdamping' : damping < 1)
    (personalization : Option (String → Option ℚ)) (teleport : String → ℚ)
    (haccepted : PageRank.teleport p personalization = .ok teleport) :
    let scores := PageRank.scoresAfter p damping teleport
    let change := fun k => (p.nodes.map fun x => |scores (k + 1) x - scores k x|).sum
    (∀ k, (∀ x ∈ p.nodes, 0 ≤ scores k x) ∧ (p.nodes.map (scores k)).sum = 1) ∧
    (∀ k, (pass p damping teleport (scores k)).delta = change k ∧
      change (k + 1) ≤ damping * change k) ∧
    (∀ tolerance, 0 < tolerance → ∃ n, ∀ maxIterations, n ≤ maxIterations → ∃ result,
      pagerank p damping maxIterations tolerance personalization = .ok result ∧
        result.converged = true) ∧
    ∃ fixed : String → ℚ,
      (∀ x ∈ p.nodes, (pass p damping teleport fixed).incoming x = fixed x) ∧
      (∀ other : String → ℚ,
        (∀ x ∈ p.nodes, (pass p damping teleport other).incoming x = other x) →
          ∀ x ∈ p.nodes, other x = fixed x) ∧
      ∀ maxIterations tolerance result,
        pagerank p damping maxIterations tolerance personalization = .ok result →
          result.converged = true → ∃ final, result.scores = p.scored final ∧
            (p.nodes.map fun x => |final x - fixed x|).sum ≤
              tolerance * damping / (1 - damping) := by
  intro scores change
  have ht := PageRank.teleport_distribution hp.nodup hsize haccepted
  have hflow := PageRank.flow_distribution hp ht
  have hround : ∀ k, ∀ x ∈ p.nodes.toFinset, scores (k + 1) x =
      damped p.nodes.toFinset (flow p teleport) damping teleport (scores k) x :=
    fun k => (pass_eq hp.nodup damping teleport (scores k)).1
  have hchange : ∀ k, change k = l1 p.nodes.toFinset (scores (k + 1)) (scores k) :=
    fun k => sum_nodes hp.nodup _
  have hdelta : ∀ k, (pass p damping teleport (scores k)).delta = change k :=
    fun k => (pass_eq hp.nodup damping teleport (scores k)).2.trans (hchange k).symm
  refine ⟨fun k => ?_, fun k => ⟨hdelta k, ?_⟩, fun tolerance htolerance => ?_, ?_⟩
  · obtain ⟨hnonneg, htotal⟩ := distributions hflow hdamping.le hround hdamping'.le ht
      (uniform_distribution hp.nodup hsize) k
    exact ⟨fun x hx => hnonneg x (mem_toFinset.mpr hx),
      (sum_nodes hp.nodup _).trans htotal⟩
  · rw [hchange, hchange]
    exact l1_change_le hflow hdamping.le hround k
  · obtain ⟨k, hk⟩ := exists_small_change hflow hdamping.le hround hdamping' htolerance
    refine ⟨k + 1, fun maxIterations hmax => ?_⟩
    refine ⟨_, pagerank_eq hsize hdamping hdamping' haccepted maxIterations tolerance, ?_⟩
    refine iterate_converges (j := k) hmax ?_
    rw [Nat.zero_add]
    exact ((hdelta k).trans (hchange k)).trans_lt hk
  · obtain ⟨fixed, hfixed⟩ := exists_damped_fixed hflow hdamping.le hdamping' teleport
    have hfixes : ∀ v : String → ℚ,
        (∀ x ∈ p.nodes, (pass p damping teleport v).incoming x = v x) ↔
          ∀ x ∈ p.nodes.toFinset,
            damped p.nodes.toFinset (flow p teleport) damping teleport v x = v x := by
      intro v
      have hpass := (pass_eq hp.nodup damping teleport v).1
      simp only [mem_toFinset] at hpass ⊢
      exact forall₂_congr fun x hx => by rw [hpass x hx]
    refine ⟨fixed, (hfixes fixed).mpr hfixed, fun other hother x hx => ?_, ?_⟩
    · exact damped_fixed_unique hflow hdamping.le hdamping' ((hfixes other).mp hother) hfixed x
        (mem_toFinset.mpr hx)
    · intro maxIterations tolerance result hresult hconverged
      rw [pagerank_eq hsize hdamping hdamping' haccepted] at hresult
      cases hresult
      obtain ⟨hfinal, hlast⟩ := iterate_scores p damping teleport tolerance
        maxIterations 0
      obtain ⟨j, hj, hsmall⟩ := hlast hconverged
      refine ⟨_, rfl, ?_⟩
      rw [hfinal, hj, sum_nodes hp.nodup]
      have hnear := l1_fixed_le hflow hdamping.le hdamping' hfixed (scores j)
      have hscores : l1 p.nodes.toFinset (scores (j + 1)) fixed ≤
          l1 p.nodes.toFinset (scores (j + 1)) (scores j) * damping / (1 - damping) := by
        rwa [l1_congr (hround j) fun _ _ => rfl, l1_congr (hround j) fun _ _ => rfl]
      have hless : l1 p.nodes.toFinset (scores (j + 1)) (scores j) ≤ tolerance :=
        ((hdelta j).trans (hchange j)).ge.trans hsmall.le
      refine hscores.trans (div_le_div_of_nonneg_right ?_ (sub_pos.mpr hdamping').le)
      exact mul_le_mul_of_nonneg_right hless hdamping.le

def pairAndLoner : Projection := .build ["loner"] [("acme", "globex", 2)]

theorem pagerank_contracts_pair :
    (∀ k, (pairAndLoner.nodes.map
      (PageRank.scoresAfter pairAndLoner (17 / 20) (fun _ => 1 / pairAndLoner.size) k)).sum = 1) ∧
    ∃ n, ∀ maxIterations, n ≤ maxIterations → ∃ result,
      pagerank pairAndLoner (17 / 20) maxIterations (1 / 1000000) none = .ok result ∧
        result.converged = true := by
  obtain ⟨hdistribution, -, hconverges, -⟩ := pagerank_contracts pairAndLoner (.build _ _)
    (by decide) (17 / 20) (by norm_num) (by norm_num) none _ rfl
  exact ⟨fun k => (hdistribution k).2, hconverges (1 / 1000000) (by norm_num)⟩

end OmniSense.Analytics
