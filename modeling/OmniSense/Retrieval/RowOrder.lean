import OmniSense.Library.Unions
import OmniSense.Retrieval.GraphCandidates

/-! The traversal in every order of the rows that the reader answers with: when the scores are the
hop-wise sums, and the candidates the same. -/

namespace OmniSense.Retrieval

open Library List Neighbourhood

/-! ## The hop-wise values in another order -/

section

variable {backend : GraphTraversal} {seeds : List String} {hops hops' : ℕ → List EdgeRow}
  {label : String → String} (hperm : ∀ h, (hops' h).Perm (hops h))

include hperm

variable (depth : ℕ)

theorem hopScore_perm : hopScore backend seeds hops' depth = hopScore backend seeds hops depth := by
  induction depth with
  | zero => rfl
  | succ depth ih =>
    have hdiffuse : diffuse (hopScore backend seeds hops depth) _ = _ :=
      diffuse_perm (stages_perm hperm backend.hopDecay depth)
    rw [← ih] at hdiffuse
    change diffuse (hopScore backend seeds hops' depth) _ = diffuse (hopScore backend seeds hops depth) _
    rw [hdiffuse, ih]

theorem keptIds_perm : keptIds backend seeds hops' depth = keptIds backend seeds hops depth := by
  have hknown : (knownIds seeds hops' depth).Perm (knownIds seeds hops depth) := by
    refine (perm_ext_iff_of_nodup (nodup_dedup _) (nodup_dedup _)).mpr fun v => ?_
    exact mem_knownIds.trans ((known_perm hperm depth v).trans mem_knownIds.symm)
  have hnodup : ((knownIds seeds hops' depth).map fun v =>
      (toLex (-hopScore backend seeds hops depth v, v) : ℚ ×ₗ String)).Nodup := by
    refine (nodup_dedup _).map fun v w heq => ?_
    exact congrArg (fun key => (ofLex key).2) heq
  unfold keptIds bestIds
  rw [hopScore_perm hperm, sortedBy_congr hnodup hknown]

theorem signalNode_perm (v : String) :
    SignalNode seeds hops' depth label v ↔ SignalNode seeds hops depth label v :=
  and_congr_left' (learned_perm hperm depth v)

theorem counts_perm (row : MentionRow) :
    row.Counts backend seeds hops' depth label ↔ row.Counts backend seeds hops depth label := by
  unfold MentionRow.Counts
  rw [keptIds_perm hperm, signalNode_perm hperm]

theorem Reach.perm {depth n : ℕ} {v : String} (h : Reach seeds hops' depth n v) :
    Reach seeds hops depth n v := by
  induction h with
  | seed hv => exact .seed hv
  | edge hh hrow _ ih => exact .edge hh ((usableRows_perm hperm _).mem_iff.mp hrow) ih

theorem reach_perm (depth n : ℕ) (v : String) :
    Reach seeds hops' depth n v ↔ Reach seeds hops depth n v :=
  ⟨.perm hperm, .perm fun h => (hperm h).symm⟩

end

/-! ## Scores -/

section

variable {backend : GraphTraversal} {seeds : List String} {hops : ℕ → List EdgeRow}
  {label : String → String} (hmin : 0 ≤ backend.minEdgeConfidence) (hnodup : seeds.Nodup)
  (hanswered : Answered seeds hops backend.minEdgeConfidence label)

include hmin hanswered

theorem stages_nonneg (k : ℕ) : Nonneg (stages hops backend.hopDecay k) := by
  intro arc harc
  obtain ⟨row, hrow, rfl⟩ := mem_map.mp harc
  exact mul_nonneg (hmin.trans (hanswered.confident _ row hrow))
    (pow_nonneg backend.hopDecay_pos.le _)

omit hmin hanswered in
theorem seedScore_nonneg (seeds : List String) (v : String) : 0 ≤ seedScore seeds v := by
  unfold seedScore
  split_ifs
  · exact zero_le_one
  · exact le_rfl

include hnodup

theorem hopScore_le_scoreIn {hops' : ℕ → List EdgeRow} (hperm : ∀ h, (hops' h).Perm (hops h))
    (depth fanoutCap : ℕ) (v : String) : hopScore backend seeds hops depth v ≤
      scoreIn (backend.walk depth fanoutCap seeds hops').nodes v := by
  rw [(walk_walked backend hnodup (answered_perm hperm hanswered) depth fanoutCap).score]
  exact diffuseTo_le_pushTo (stages_nonneg hmin hanswered) (seedScore_nonneg seeds)
    (fun k => stages_perm hperm backend.hopDecay k) depth v

theorem scoreIn_walk_iff (depth fanoutCap : ℕ) :
    (∀ hops' : ℕ → List EdgeRow, (∀ h, (hops' h).Perm (hops h)) →
      scoreIn (backend.walk depth fanoutCap seeds hops').nodes =
        hopScore backend seeds hops depth) ↔
      ∀ k < depth, Unfed (hopScore backend seeds hops k) (stages hops backend.hopDecay k) := by
  have hfold : ∀ hops' : ℕ → List EdgeRow, (∀ h, (hops' h).Perm (hops h)) →
      scoreIn (backend.walk depth fanoutCap seeds hops').nodes =
        pushTo (seedScore seeds) (stages hops' backend.hopDecay) depth := fun hops' hperm =>
    (walk_walked backend hnodup (answered_perm hperm hanswered) depth fanoutCap).score
  refine Iff.trans ?_ (pushTo_eq_diffuseTo_iff (stages_nonneg hmin hanswered)
    (seedScore_nonneg seeds) depth)
  constructor
  · intro hall arcs harcs
    obtain ⟨hops', hperm, rfl⟩ := exists_hops harcs
    rw [← hfold hops' hperm]
    exact hall hops' hperm
  · intro hall hops' hperm
    rw [hfold hops' hperm]
    exact hall _ fun k => stages_perm hperm backend.hopDecay k

end

/-! ## Contributions -/

section

variable {backend : GraphTraversal} {seeds : List String} {hops : ℕ → List EdgeRow}
  {label : String → String} {depth : ℕ} {hood : Neighbourhood}

def MentionsAgree (backend : GraphTraversal) (seeds : List String) (hops : ℕ → List EdgeRow)
    (depth : ℕ) (label : String → String) (mentions : List MentionRow) : Prop :=
  ∀ row ∈ mentions, ∀ other ∈ mentions, row.Counts backend seeds hops depth label →
    other.Counts backend seeds hops depth label → textOf row.signalId = textOf other.signalId →
    chunkIndexOf row.chunkIndex ≠ 0 → chunkIndexOf other.chunkIndex ≠ 0 →
    chunkIndexOf row.chunkIndex = chunkIndexOf other.chunkIndex

theorem mem_contributionsOf
    (hwalked : Walked seeds hops backend.hopDecay label depth hood.nodes)
    (hscore : scoreIn hood.nodes = hopScore backend seeds hops depth) {mentions : List MentionRow}
    {direct : List (Option String)} {c : Contribution}
    (hc : c ∈ contributionsOf (hood.capped backend.maxNodes) mentions direct) :
    (∃ row ∈ mentions, row.Counts backend seeds hops depth label ∧ textOf row.signalId = c.1 ∧
      chunkIndexOf row.chunkIndex = c.2.2) ∨ c.2.2 = 0 := by
  rcases mem_append.mp hc with hc | hc
  · obtain ⟨row, hrow, hsome⟩ := mem_filterMap.mp hc
    obtain ⟨hcounts, rfl⟩ := (contribution_iff hwalked hscore row c).mp hsome
    exact Or.inl ⟨row, hrow, hcounts, rfl, rfl⟩
  · obtain ⟨signalId, -, hsome⟩ := mem_filterMap.mp hc
    obtain ⟨-, rfl⟩ := (directContribution_iff hwalked hscore signalId c).mp hsome
    exact Or.inr rfl

theorem agree_indices (hwalked : Walked seeds hops backend.hopDecay label depth hood.nodes)
    (hscore : scoreIn hood.nodes = hopScore backend seeds hops depth) {mentions : List MentionRow}
    (hagree : MentionsAgree backend seeds hops depth label mentions)
    (direct : List (Option String)) (signalId : String) :
    Agree (indicesOf signalId (contributionsOf (hood.capped backend.maxNodes) mentions direct)) := by
  intro i hi j hj hi0 hj0
  obtain ⟨c, hc, rfl⟩ := mem_map.mp hi
  obtain ⟨d, hd, rfl⟩ := mem_map.mp hj
  obtain ⟨hc, hcid⟩ := mem_filter.mp hc
  obtain ⟨hd, hdid⟩ := mem_filter.mp hd
  obtain ⟨row, hrow, hcounts, hrowId, hrowIndex⟩ :=
    (mem_contributionsOf hwalked hscore hc).resolve_right hi0
  obtain ⟨other, hother, hcounts', hotherId, hotherIndex⟩ :=
    (mem_contributionsOf hwalked hscore hd).resolve_right hj0
  have hsame : textOf row.signalId = textOf other.signalId := by
    rw [hrowId, hotherId, of_decide_eq_true hcid, of_decide_eq_true hdid]
  rw [← hrowIndex, ← hotherIndex]
  exact hagree row hrow other hother hcounts hcounts' hsame (by rwa [hrowIndex])
    (by rwa [hotherIndex])

theorem index_of_last (hwalked : Walked seeds hops backend.hopDecay label depth hood.nodes)
    (hscore : scoreIn hood.nodes = hopScore backend seeds hops depth) (mentions : List MentionRow)
    (direct : List (Option String)) {row : MentionRow}
    (hcounts : row.Counts backend seeds hops depth label)
    (hindex : chunkIndexOf row.chunkIndex ≠ 0) : ∃ score,
      (collectSignals (hood.capped backend.maxNodes) (mentions ++ [row]) direct).get?
        (textOf row.signalId) = some (score, chunkIndexOf row.chunkIndex) := by
  have hsome := (contribution_iff hwalked hscore row _).mpr ⟨hcounts, rfl⟩
  -- The direct signals come after the mentions, but only with the fallback.
  have hlater : ∀ indices : List ℕ, (∀ i ∈ indices, i = 0) → ∀ before,
      lastIndex (before ++ indices) = lastIndex before := by
    intro indices hzero before
    induction indices using List.reverseRecOn with
    | nil => rw [append_nil]
    | append_singleton indices index ih =>
      rw [← append_assoc, lastIndex_concat, hzero index (by simp), if_pos rfl]
      exact ih fun i hi => hzero i (mem_append_left _ hi)
  rw [collectSignals_eq, get?_accumulateAll]
  unfold contributionsOf
  rw [filterMap_append, filterMap_cons_some hsome, filterMap_nil, if_pos (by simp)]
  refine ⟨_, congrArg some (Prod.ext rfl ?_)⟩
  unfold indicesOf
  rw [filter_append, map_append, hlater]
  · rw [filter_append, map_append]
    simp [lastIndex_concat, hindex]
  · intro i hi
    obtain ⟨c, hc, rfl⟩ := mem_map.mp hi
    obtain ⟨signalId, -, hdirect⟩ := mem_filterMap.mp (mem_filter.mp hc).1
    obtain ⟨-, rfl⟩ := (directContribution_iff hwalked hscore signalId c).mp hdirect
    rfl

theorem contributionsOf_perm {answers answers' : Answers} {hood' : Neighbourhood}
    (hreorders : answers'.Reorders answers)
    (hwalked : Walked seeds answers.hops backend.hopDecay label depth hood.nodes)
    (hscore : scoreIn hood.nodes = hopScore backend seeds answers.hops depth)
    (hwalked' : Walked seeds answers'.hops backend.hopDecay label depth hood'.nodes)
    (hscore' : scoreIn hood'.nodes = hopScore backend seeds answers'.hops depth) :
    (contributionsOf (hood'.capped backend.maxNodes) answers'.mentions answers'.direct).Perm
      (contributionsOf (hood.capped backend.maxNodes) answers.mentions answers.direct) := by
  have hmention : MentionRow.contribution (byId
        (hood'.capped backend.maxNodes).entities) =
      MentionRow.contribution (byId (hood.capped backend.maxNodes).entities) := by
    funext row
    refine Option.ext fun c => ?_
    rw [contribution_iff hwalked hscore, contribution_iff hwalked' hscore',
      counts_perm hreorders.hops, hopScore_perm hreorders.hops]
  have hdirect : directContribution (byId
        (hood'.capped backend.maxNodes).signalNodes) =
      directContribution (byId (hood.capped backend.maxNodes).signalNodes) := by
    funext signalId
    refine Option.ext fun c => ?_
    rw [directContribution_iff hwalked hscore, directContribution_iff hwalked' hscore',
      keptIds_perm hreorders.hops, signalNode_perm hreorders.hops, hopScore_perm hreorders.hops]
  unfold contributionsOf
  rw [hmention, hdirect]
  exact (hreorders.mentions.filterMap _).append (hreorders.direct.filterMap _)

end

/-! ## The operations -/

def Neighbourhood.profile (hood : Neighbourhood) : Finset (String × ℕ × ℚ) :=
  (hood.nodes.values.map fun n => (n.entityId, n.hop, n.pathScore)).toFinset

section

variable {backend : GraphTraversal} {seeds : List String} {hops : ℕ → List EdgeRow}
  {label : String → String} {depth : ℕ} {hood : Neighbourhood}

theorem mem_profile (hanswered : Answered seeds hops backend.minEdgeConfidence label)
    (hwalked : Walked seeds hops backend.hopDecay label depth hood.nodes)
    (hscore : scoreIn hood.nodes = hopScore backend seeds hops depth) (v : String) (h : ℕ) (q : ℚ) :
    (v, h, q) ∈ (hood.capped backend.maxNodes).profile ↔ v ∈ keptIds backend seeds hops depth ∧
      IsLeast { k | Reach seeds hops depth k v } h ∧ q = hopScore backend seeds hops depth v := by
  have hfacts : ∀ n, hood.nodes.get? v = some n → n.entityId = v ∧
      IsLeast { k | Reach seeds hops depth k v } n.hop ∧
      n.pathScore = hopScore backend seeds hops depth v := by
    intro n hn
    obtain ⟨hid, hlayer, hle, -, -⟩ := hwalked.facts v n hn
    exact ⟨hid, layer_isLeast hanswered hle hlayer, (hwalked.scored hscore v n hn).2⟩
  unfold profile
  rw [mem_toFinset, mem_map]
  constructor
  · rintro ⟨n, hn, heq⟩
    cases heq
    obtain ⟨w, hw⟩ := mem_values.mp hn
    obtain ⟨hget, hkept⟩ := (get?_kept hwalked hscore w n).mp hw
    obtain rfl := (hwalked.facts w n hget).1
    exact ⟨hkept, (hfacts n hget).2⟩
  · rintro ⟨hkept, hleast, rfl⟩
    obtain ⟨n, hn, -⟩ := exists_kept hwalked hscore hkept
    obtain ⟨hid, hleast', hscored⟩ := hfacts n hn
    refine ⟨n, mem_values.mpr ⟨v, (get?_kept hwalked hscore v n).mpr ⟨hn, hkept⟩⟩, ?_⟩
    rw [hid, hscored, hleast'.unique hleast]

end

section

variable {backend : GraphTraversal} {seedIds : List String} {requestedDepth requestedFanout : Option ℤ}
  {depth fanoutCap : ℕ} (hdepth : clamp "graph_depth" requestedDepth backend.maxDepth = .ok depth)
  (hfanout : clamp "graph_fanout_cap" requestedFanout backend.fanoutCap = .ok fanoutCap)

include hdepth hfanout

theorem neighbourhood_eq (hops : ℕ → List EdgeRow) :
    backend.neighbourhood seedIds requestedDepth requestedFanout hops =
      .ok (if uniqueIds seedIds = [] then ⟨.empty, 0, false, 0⟩
        else (backend.walk depth fanoutCap (uniqueIds seedIds) hops).capped backend.maxNodes) := by
  unfold GraphTraversal.neighbourhood
  rw [hdepth, hfanout]
  split_ifs with hseeds
  · simp only [hseeds, if_true]
    rfl
  · simp only [hseeds, if_false]
    rfl

omit hdepth hfanout in
theorem collectSignals_empty {hood : Neighbourhood} (h : hood.nodes.items = [])
    (mentions : List MentionRow) (direct : List (Option String)) :
    collectSignals hood mentions direct = .empty := by
  have hnone : ∀ (p : Neighbour → Bool) (v : String), (byId
      (sortedBy Neighbour.order (hood.nodes.values.filter p))).get? v = none := by
    intro p v
    unfold Dict.values
    rw [h]
    rfl
  have hmention : mentions.filterMap
      (MentionRow.contribution (byId hood.entities)) = [] := by
    refine filterMap_eq_nil_iff.mpr fun row _ => ?_
    unfold MentionRow.contribution entities
    rw [hnone]
    rfl
  have hdirect : direct.filterMap
      (directContribution (byId hood.signalNodes)) = [] := by
    refine filterMap_eq_nil_iff.mpr fun signalId _ => ?_
    unfold directContribution signalNodes
    rw [hnone]
    rfl
  rw [collectSignals_eq]
  unfold contributionsOf
  rw [hmention, hdirect]
  rfl

omit hdepth hfanout in
theorem walk_without_seeds (hops : ℕ → List EdgeRow) :
    (backend.walk depth fanoutCap [] hops).nodes.items = [] := by
  have hrows : ∀ (decay : ℚ) (hop : ℕ) (rows : List EdgeRow),
      rows.foldl (absorbRow decay hop) ⟨.empty, [], .empty⟩ = ⟨.empty, [], .empty⟩ := by
    intro decay hop rows
    induction rows with
    | nil => rfl
    | cons row rows ih =>
      have hskips : absorbRow decay hop ⟨.empty, [], .empty⟩ row = ⟨.empty, [], .empty⟩ := by
        unfold absorbRow
        dsimp only
        split_ifs
        · rfl
        · rfl
      rw [foldl_cons, hskips, ih]
  cases depth with
  | zero => rfl
  | succ depth =>
    unfold GraphTraversal.walk GraphTraversal.expand absorbRows
    have hseeded : seeded [] = .empty := rfl
    rw [hseeded, hrows, if_pos rfl]
    rfl

theorem search_eq (answers : Answers) {limit : ℤ} (hlimit : 1 ≤ limit) :
    backend.search seedIds requestedDepth requestedFanout answers limit =
      .ok (backend.candidates depth fanoutCap (uniqueIds seedIds) answers limit.toNat) := by
  have hempty : ∀ hood : Neighbourhood, hood.nodes.items = [] →
      rankSignals (collectSignals hood answers.mentions answers.direct) limit.toNat = [] := by
    intro hood hnodes
    rw [collectSignals_empty hnodes]
    exact mapIdx_eq_nil_iff.mpr take_nil
  have hcapped : ∀ hood : Neighbourhood, hood.nodes.items = [] →
      (hood.capped backend.maxNodes).nodes.items = [] := by
    intro hood hnodes
    unfold capped
    rw [hnodes, length_nil, if_neg (Nat.not_lt_zero _), hnodes]
  unfold GraphTraversal.search GraphTraversal.candidates
  rw [neighbourhood_eq hdepth hfanout, if_neg (not_lt.mpr hlimit)]
  by_cases hids : seedIds = []
  · subst hids
    rw [if_pos rfl]
    exact congrArg Except.ok (hempty _ (hcapped _ (walk_without_seeds answers.hops))).symm
  · rw [if_neg hids]
    by_cases hseeds : uniqueIds seedIds = []
    · rw [if_pos hseeds, hseeds, hempty _ (hcapped _ (walk_without_seeds answers.hops))]
      rfl
    · rw [if_neg hseeds]
      dsimp only [bind, Except.bind, pure, Except.pure]
      split_ifs with hnodes
      · rw [hempty _ hnodes]
      · rfl

variable {answers : Answers} {label : String → String}

/-- The traversal of rows in another order: hops are shortest distances and scores hop-wise sums,
the nodes that are kept are the same, and the candidates too. -/
structure HopWise (backend : GraphTraversal) (seedIds : List String)
    (requestedDepth requestedFanout : Option ℤ) (depth fanoutCap : ℕ)
    (answers answers' : Answers) : Prop where
  walked : ∀ v n, (backend.walk depth fanoutCap (uniqueIds seedIds) answers'.hops).nodes.get? v =
    some n → n.entityId = v ∧ IsLeast { k | Reach (uniqueIds seedIds) answers.hops depth k v } n.hop ∧
      n.pathScore = hopScore backend (uniqueIds seedIds) answers.hops depth v
  profile : (backend.neighbourhood seedIds requestedDepth requestedFanout answers'.hops).map
      profile =
    (backend.neighbourhood seedIds requestedDepth requestedFanout answers.hops).map
      profile
  search : ∀ limit, backend.search seedIds requestedDepth requestedFanout answers' limit =
    backend.search seedIds requestedDepth requestedFanout answers limit

omit hdepth hfanout in
theorem nodup_uniqueIds (values : List String) : (uniqueIds values).Nodup :=
  nodup_appendNew nodup_nil _

theorem HopWise.candidates {answers' : Answers}
    (h : HopWise backend seedIds requestedDepth requestedFanout depth fanoutCap answers answers')
    (limit : ℕ) : backend.candidates depth fanoutCap (uniqueIds seedIds) answers' limit =
      backend.candidates depth fanoutCap (uniqueIds seedIds) answers limit := by
  cases limit with
  | zero => rfl
  | succ limit =>
    have hlimit : (1 : ℤ) ≤ (limit + 1 : ℕ) := by omega
    have hsearch := h.search (limit + 1 : ℕ)
    rw [search_eq hdepth hfanout _ hlimit, search_eq hdepth hfanout _ hlimit,
      Int.toNat_natCast] at hsearch
    exact Except.ok.inj hsearch

theorem hopWise_of_scores
    (hanswered : Answered (uniqueIds seedIds) answers.hops backend.minEdgeConfidence label)
    (hscores : ∀ hops' : ℕ → List EdgeRow, (∀ h, (hops' h).Perm (answers.hops h)) →
      scoreIn (backend.walk depth fanoutCap (uniqueIds seedIds) hops').nodes =
        hopScore backend (uniqueIds seedIds) answers.hops depth)
    (hagree : MentionsAgree backend (uniqueIds seedIds) answers.hops depth label answers.mentions)
    {answers' : Answers} (hreorders : answers'.Reorders answers) :
    HopWise backend seedIds requestedDepth requestedFanout depth fanoutCap answers answers' := by
  have hanswered' := answered_perm hreorders.hops hanswered
  have hwalked := walk_walked backend (nodup_uniqueIds seedIds) hanswered depth fanoutCap
  have hwalked' := walk_walked backend (nodup_uniqueIds seedIds) hanswered' depth fanoutCap
  have hscore := hscores answers.hops fun _ => .refl _
  have hscore' := hscores answers'.hops hreorders.hops
  rw [← hopScore_perm hreorders.hops] at hscore'
  refine ⟨fun v n hn => ?_, ?_, fun limit => ?_⟩
  · obtain ⟨hid, hlayer, hle, -, -⟩ := hwalked'.facts v n hn
    have hleast := layer_isLeast hanswered' hle hlayer
    simp only [reach_perm hreorders.hops] at hleast
    refine ⟨hid, hleast, ?_⟩
    rw [(hwalked'.scored hscore' v n hn).2, hopScore_perm hreorders.hops]
  · rw [neighbourhood_eq hdepth hfanout, neighbourhood_eq hdepth hfanout]
    refine congrArg Except.ok ?_
    by_cases hseeds : uniqueIds seedIds = []
    · rw [if_pos hseeds, if_pos hseeds]
    · rw [if_neg hseeds, if_neg hseeds]
      ext ⟨v, h, q⟩
      rw [mem_profile hanswered hwalked hscore, mem_profile hanswered' hwalked' hscore',
        keptIds_perm hreorders.hops, hopScore_perm hreorders.hops]
      simp only [reach_perm hreorders.hops]
  · by_cases hlimit : limit < 1
    · have hrefused : ∀ given : Answers,
          backend.search seedIds requestedDepth requestedFanout given limit =
            .error s!"limit must be at least 1, got {limit}" := by
        intro given
        unfold GraphTraversal.search
        rw [if_pos hlimit]
        rfl
      rw [hrefused, hrefused]
    · rw [search_eq hdepth hfanout _ (not_lt.mp hlimit),
        search_eq hdepth hfanout _ (not_lt.mp hlimit)]
      refine congrArg Except.ok (rankSignals_congr (fun signalId => ?_) limit.toNat)
      have hcontributions := contributionsOf_perm hreorders hwalked hscore hwalked' hscore'
      rw [collectSignals_eq, collectSignals_eq]
      exact (accumulateAll_perm hcontributions.symm
        (agree_indices hwalked hscore hagree answers.direct signalId)).symm

theorem mentionsAgree_of_hopWise
    (hanswered : Answered (uniqueIds seedIds) answers.hops backend.minEdgeConfidence label)
    (hscore : scoreIn (backend.walk depth fanoutCap (uniqueIds seedIds) answers.hops).nodes =
      hopScore backend (uniqueIds seedIds) answers.hops depth)
    (hall : ∀ answers' : Answers, answers'.Reorders answers →
      HopWise backend seedIds requestedDepth requestedFanout depth fanoutCap answers answers') :
    MentionsAgree backend (uniqueIds seedIds) answers.hops depth label answers.mentions := by
  intro row hrow other hother hcounts hcounts' hsame hindex hindex'
  have hwalked := walk_walked backend (nodup_uniqueIds seedIds) hanswered depth fanoutCap
  -- Each of the two is last in some order of the mentions.
  have hlast : ∀ r ∈ answers.mentions, ∃ rest, (rest ++ [r]).Perm answers.mentions := by
    intro r hr
    obtain ⟨front, back, hsplit⟩ := append_of_mem hr
    refine ⟨front ++ back, ?_⟩
    rw [hsplit]
    exact (perm_append_singleton r _).trans perm_middle.symm
  have hcandidates : ∀ mentions : List MentionRow, mentions.Perm answers.mentions → ∀ limit,
      backend.candidates depth fanoutCap (uniqueIds seedIds)
        { answers with mentions := mentions } limit =
      backend.candidates depth fanoutCap (uniqueIds seedIds) answers limit := by
    intro mentions hmentions
    exact (hall ⟨answers.hops, mentions, answers.direct⟩
      ⟨fun _ => .refl _, hmentions, .refl _⟩).candidates hdepth hfanout
  obtain ⟨rest, hrest⟩ := hlast row hrow
  obtain ⟨rest', hrest'⟩ := hlast other hother
  obtain ⟨score, hget⟩ := index_of_last hwalked hscore rest answers.direct hcounts hindex
  obtain ⟨score', hget'⟩ := index_of_last hwalked hscore rest' answers.direct hcounts' hindex'
  rw [← hsame] at hget'
  refine index_of_candidates (fun limit => ?_) hget hget'
  exact (hcandidates _ hrest limit).trans (hcandidates _ hrest' limit).symm

/-- The order of the rows does not show, and the scores are the hop-wise sums, exactly where no
row of a hop feeds another one and the mentions of each signal agree on its chunk. -/
theorem hopWise_iff (hmin : 0 ≤ backend.minEdgeConfidence)
    (hanswered : Answered (uniqueIds seedIds) answers.hops backend.minEdgeConfidence label) :
    (∀ answers' : Answers, answers'.Reorders answers →
      HopWise backend seedIds requestedDepth requestedFanout depth fanoutCap answers answers') ↔
      (∀ k < depth, Unfed (hopScore backend (uniqueIds seedIds) answers.hops k)
        (stages answers.hops backend.hopDecay k)) ∧
      MentionsAgree backend (uniqueIds seedIds) answers.hops depth label answers.mentions := by
  have hnodup := nodup_uniqueIds seedIds
  have hiff := scoreIn_walk_iff hmin hnodup hanswered depth fanoutCap
  constructor
  · intro hall
    have hscores : ∀ hops' : ℕ → List EdgeRow, (∀ h, (hops' h).Perm (answers.hops h)) →
        scoreIn (backend.walk depth fanoutCap (uniqueIds seedIds) hops').nodes =
          hopScore backend (uniqueIds seedIds) answers.hops depth := by
      intro hops' hperm
      funext v
      have hwalk := (hall ⟨hops', answers.mentions, answers.direct⟩
        ⟨hperm, .refl _, .refl _⟩).walked v
      have hle := hopScore_le_scoreIn hmin hnodup hanswered hperm depth fanoutCap v
      unfold scoreIn at hle ⊢
      cases hget : (backend.walk depth fanoutCap (uniqueIds seedIds) hops').nodes.get? v with
      | none =>
        rw [hget] at hle
        exact le_antisymm (diffuseTo_nonneg (stages_nonneg hmin hanswered) (seedScore_nonneg _)
          depth v) hle
      | some n => exact (hwalk n hget).2.2
    exact ⟨hiff.mp hscores, mentionsAgree_of_hopWise hdepth hfanout hanswered
      (hscores answers.hops fun _ => .refl _) hall⟩
  · rintro ⟨hunfed, hagree⟩ answers' hreorders
    exact hopWise_of_scores hdepth hfanout hanswered (hiff.mpr hunfed) hagree hreorders

end

/-! ## Two runs -/

theorem default_depth : 1 ≤ 2 := by decide

theorem default_bounds : 1 ≤ 25 ∧ 1 ≤ 1000 ∧ 0 < HOP_DECAY ∧ HOP_DECAY ≤ 1 := by
  unfold HOP_DECAY
  norm_num

def defaultTraversal : GraphTraversal where
  maxDepth := 2
  fanoutCap := 25
  maxNodes := 1000
  minEdgeConfidence := 0
  hopDecay := HOP_DECAY
  maxDepth_pos := default_depth
  fanoutCap_pos := default_bounds.1
  maxNodes_pos := default_bounds.2.1
  hopDecay_pos := default_bounds.2.2.1
  hopDecay_le := default_bounds.2.2.2

def companyRow (fromId toId : String) : EdgeRow :=
  ⟨some fromId, some "Company", some toId, some toId, some "Company", some "COMPETES_WITH", some 1⟩

def oneHop (rows : List EdgeRow) (mentions : List MentionRow) : Answers where
  hops h := if h = 1 then rows else []
  mentions := mentions
  direct := []

theorem oneHop_answered {seeds : List String} {rows : List EdgeRow} {label : String → String}
    (mentions : List MentionRow) (hstart : ∀ row ∈ rows, row.source ∈ seeds)
    (hconfident : ∀ row ∈ rows, 0 ≤ row.strength)
    (hlabelled : ∀ row ∈ usableRows rows, textOf row.toLabel = label row.target ∧
      textOf row.fromLabel = label row.source) :
    Answered seeds (oneHop rows mentions).hops defaultTraversal.minEdgeConfidence label := by
  have hlater : ∀ h, h ≠ 1 → ∀ row, row ∉ usableRows ((oneHop rows mentions).hops h) := by
    intro h hh row hrow
    have hnone : (oneHop rows mentions).hops h = [] := if_neg hh
    rw [hnone] at hrow
    cases hrow
  refine ⟨fun h v hv => ?_, fun h row hrow => ?_, fun h row hrow => ?_⟩
  · obtain ⟨row, hrow, rfl⟩ := hv
    cases h with
    | zero => exact hstart row (mem_filter.mp hrow).1
    | succ h => exact absurd hrow (hlater (h + 1 + 1) (by omega) row)
  · by_cases hh : h = 1
    · subst hh
      exact hconfident row (mem_filter.mp hrow).1
    · exact absurd hrow (hlater h hh row)
  · by_cases hh : h = 1
    · subst hh
      exact hlabelled row hrow
    · exact absurd hrow (hlater h hh row)

theorem reverse_reorders (rows : List EdgeRow) (mentions : List MentionRow) :
    (oneHop rows.reverse mentions).Reorders (oneHop rows mentions) := by
  refine ⟨fun h => ?_, .refl _, .refl _⟩
  unfold oneHop
  dsimp only
  split_ifs
  · exact reverse_perm _
  · exact .refl _

def mutualRows : List EdgeRow := [companyRow "s" "t", companyRow "t" "s"]

/-- Two seeds with an edge each way: the row that comes second reads what the first one wrote. -/
theorem mutual_edges_show_their_order :
    Answered ["s", "t"] (oneHop mutualRows []).hops defaultTraversal.minEdgeConfidence
        (fun _ => "Company") ∧
      (oneHop mutualRows.reverse []).Reorders (oneHop mutualRows []) ∧
      (defaultTraversal.neighbourhood ["s", "t"] none none (oneHop mutualRows []).hops).map
          profile = .ok {("s", 0, 49 / 25), ("t", 0, 8 / 5)} ∧
      (defaultTraversal.neighbourhood ["s", "t"] none none (oneHop mutualRows.reverse []).hops).map
          profile = .ok {("s", 0, 8 / 5), ("t", 0, 49 / 25)} ∧
      ¬HopWise defaultTraversal ["s", "t"] none none 2 25 (oneHop mutualRows [])
        (oneHop mutualRows.reverse []) := by
  have hreorders := reverse_reorders mutualRows []
  have hforth : (defaultTraversal.neighbourhood ["s", "t"] none none
      (oneHop mutualRows []).hops).map profile =
        .ok {("s", 0, 49 / 25), ("t", 0, 8 / 5)} := by
    decide +kernel
  have hback : (defaultTraversal.neighbourhood ["s", "t"] none none
      (oneHop mutualRows.reverse []).hops).map profile =
        .ok {("s", 0, 8 / 5), ("t", 0, 49 / 25)} := by
    decide +kernel
  refine ⟨oneHop_answered [] (by decide) (by decide) (by decide), hreorders, hforth, hback,
    fun h => ?_⟩
  have hsame := h.profile
  rw [hforth, hback] at hsame
  exact absurd (Except.ok.inj hsame) (by decide +kernel)

def starRows : List EdgeRow := [companyRow "s" "t", companyRow "s" "u"]

def starMentions : List MentionRow := [⟨some "t", some "sig", none, some 3⟩]

/-- From one seed to two others, with a mention: the other order gives the same. -/
theorem star_hides_its_order :
    HopWise defaultTraversal ["s"] none none 2 25 (oneHop starRows starMentions)
      (oneHop starRows.reverse starMentions) := by
  have hanswered : Answered (uniqueIds ["s"]) (oneHop starRows starMentions).hops
      defaultTraversal.minEdgeConfidence fun _ => "Company" :=
    oneHop_answered _ (by decide) (by decide) (by decide)
  refine (hopWise_iff (by rfl) (by rfl) (by decide) hanswered).mpr ⟨fun k _ => ?_, ?_⟩ _
    (reverse_reorders _ _)
  · cases k with
    | zero =>
      exact pairwise_pair.mpr
        ⟨fun h => absurd h.1 (by decide), fun h => absurd h.1 (by decide)⟩
    | succ k => exact List.Pairwise.nil
  · intro row hrow other hother _ _ _ _ _
    rw [mem_singleton.mp hrow, mem_singleton.mp hother]

end OmniSense.Retrieval
