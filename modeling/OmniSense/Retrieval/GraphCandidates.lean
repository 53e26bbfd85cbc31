import OmniSense.Retrieval.PathScores

/-! The candidates of a neighbourhood, and when neither they nor the scores depend on the order in
which the reader returns its rows. -/

namespace OmniSense.Retrieval

open Library List Neighbourhood

/-! ## Signals -/

abbrev Contribution := String × ℚ × ℕ

def accumulateAll (scores : Dict String (ℚ × ℕ)) (contributions : List Contribution) :
    Dict String (ℚ × ℕ) :=
  contributions.foldl (fun scores c => accumulate scores c.1 c.2.1 c.2.2) scores

def indicesOf (signalId : String) (contributions : List Contribution) : List ℕ :=
  (contributions.filter fun c => c.1 = signalId).map fun c => c.2.2

variable (indices : List ℕ)

def lastIndex : ℕ :=
  indices.foldl (fun kept index => if index = 0 then kept else index) 0

def totalOf (signalId : String) (contributions : List Contribution) : ℚ :=
  ((contributions.filter fun c => c.1 = signalId).map fun c => c.2.1).sum

section

variable {contributions contributions' : List Contribution} {signalId : String}

theorem lastIndex_concat (index : ℕ) :
    lastIndex (indices ++ [index]) = if index = 0 then lastIndex indices else index := by
  unfold lastIndex
  rw [foldl_append]
  rfl

theorem get?_accumulateAll (contributions : List Contribution) (signalId : String) :
    (accumulateAll .empty contributions).get? signalId =
      if signalId ∈ contributions.map Prod.fst then
        some (totalOf signalId contributions, lastIndex (indicesOf signalId contributions))
      else none := by
  induction contributions using List.reverseRecOn with
  | nil => rfl
  | append_singleton contributions c ih =>
    have hfold : accumulateAll .empty (contributions ++ [c]) =
        accumulate (accumulateAll .empty contributions) c.1 c.2.1 c.2.2 := by
      unfold accumulateAll
      rw [foldl_append]
      rfl
    rw [hfold]
    unfold accumulate
    rw [Dict.get?_alter]
    by_cases hc : signalId = c.1
    · subst hc
      have hmem : c.1 ∈ (contributions ++ [c]).map Prod.fst := by simp
      have htotal : totalOf c.1 (contributions ++ [c]) = totalOf c.1 contributions + c.2.1 := by
        simp [totalOf]
      have hindices : indicesOf c.1 (contributions ++ [c]) =
          indicesOf c.1 contributions ++ [c.2.2] := by
        simp [indicesOf]
      rw [if_pos rfl, if_pos hmem, htotal, hindices, lastIndex_concat, ih]
      by_cases hold : c.1 ∈ contributions.map Prod.fst
      · rw [if_pos hold]
        rfl
      · have hnone : contributions.filter (fun c' => c'.1 = c.1) = [] := by
          refine filter_eq_nil_iff.mpr fun c' hc' heq => hold ?_
          exact mem_map.mpr ⟨c', hc', of_decide_eq_true heq⟩
        rw [if_neg hold]
        unfold totalOf indicesOf
        rw [hnone]
        by_cases hzero : c.2.2 = 0
        · simp [lastIndex, hzero]
        · simp [hzero]
    · have hmem : signalId ∈ (contributions ++ [c]).map Prod.fst ↔
          signalId ∈ contributions.map Prod.fst := by simp [hc]
      have hfilter : (contributions ++ [c]).filter (fun c' => c'.1 = signalId) =
          contributions.filter fun c' => c'.1 = signalId := by simp [Ne.symm hc]
      rw [if_neg hc, ih]
      unfold totalOf indicesOf
      rw [hfilter]
      simp only [hmem]

def Agree : Prop :=
  ∀ i ∈ indices, ∀ j ∈ indices, i ≠ 0 → j ≠ 0 → i = j

theorem lastIndex_mem :
    (lastIndex indices ≠ 0 → lastIndex indices ∈ indices) ∧
      (lastIndex indices = 0 → ∀ i ∈ indices, i = 0) := by
  induction indices using List.reverseRecOn with
  | nil => simp [lastIndex]
  | append_singleton indices index ih =>
    rw [lastIndex_concat]
    by_cases hzero : index = 0
    · simp only [hzero, if_true]
      constructor
      · exact fun h => mem_append_left _ (ih.1 h)
      · intro h i hi
        rcases mem_append.mp hi with hi | hi
        · exact ih.2 h i hi
        · simpa using hi
    · simp only [hzero, if_false]
      exact ⟨fun _ => by simp, fun h => h.elim⟩

theorem lastIndex_perm {indices indices' : List ℕ} (h : indices.Perm indices')
    (hagree : Agree indices) : lastIndex indices = lastIndex indices' := by
  obtain ⟨hmem, hzero⟩ := lastIndex_mem indices
  obtain ⟨hmem', hzero'⟩ := lastIndex_mem indices'
  by_cases hi : lastIndex indices = 0
  · by_cases hj : lastIndex indices' = 0
    · rw [hi, hj]
    · exact absurd (hzero hi _ (h.mem_iff.mpr (hmem' hj))) hj
  · by_cases hj : lastIndex indices' = 0
    · exact absurd (hzero' hj _ (h.mem_iff.mp (hmem hi))) hi
    · exact hagree _ (hmem hi) _ (h.mem_iff.mpr (hmem' hj)) hi hj

theorem accumulateAll_perm (h : contributions.Perm contributions')
    (hagree : Agree (indicesOf signalId contributions)) :
    (accumulateAll .empty contributions).get? signalId =
      (accumulateAll .empty contributions').get? signalId := by
  have hfilter := h.filter fun c => decide (c.1 = signalId)
  have htotal : totalOf signalId contributions = totalOf signalId contributions' :=
    (hfilter.map _).sum_eq
  have hlast : lastIndex (indicesOf signalId contributions) =
      lastIndex (indicesOf signalId contributions') := lastIndex_perm (hfilter.map _) hagree
  rw [get?_accumulateAll, get?_accumulateAll, htotal, hlast]
  simp only [(h.map Prod.fst).mem_iff]

end

/-! ## Ranking -/

variable {scores scores' : Dict String (ℚ × ℕ)}

theorem rankSignals_congr
    (h : ∀ signalId, scores.get? signalId = scores'.get? signalId) (limit : ℕ) :
    rankSignals scores limit = rankSignals scores' limit := by
  have hitems : ∀ d : Dict String (ℚ × ℕ), d.items.Nodup := fun d => List.Nodup.of_map _ d.nodup
  have hperm : scores.items.Perm scores'.items := by
    refine (perm_ext_iff_of_nodup (hitems _) (hitems _)).mpr fun item => ?_
    rw [← Prod.mk.eta (p := item), Dict.mem_items_iff, Dict.mem_items_iff, h]
  have hnodup : (scores.items.map fun item : String × ℚ × ℕ =>
      (toLex (-item.2.1, item.1) : ℚ ×ₗ String)).Nodup := by
    refine List.Nodup.of_map (fun key => (ofLex key).2) ?_
    rw [map_map]
    exact scores.nodup
  unfold rankSignals
  rw [sortedBy_congr hnodup hperm]

theorem mem_rankSignals {scores : Dict String (ℚ × ℕ)} {limit : ℕ} {c : Candidate}
    (hc : c ∈ rankSignals scores limit) : ∃ held, scores.get? c.signalId = some held ∧
      c.chunkId = Indexing.chunkIdFor c.signalId held.2 := by
  obtain ⟨i, hi, rfl⟩ := mem_mapIdx.mp hc
  exact ⟨_, Dict.mem_items_iff.mp ((sortedBy_perm _ _).mem_iff.mp
    (mem_of_mem_take (getElem_mem hi))), rfl⟩

theorem exists_candidate {scores : Dict String (ℚ × ℕ)} {signalId : String} {held : ℚ × ℕ}
    (h : scores.get? signalId = some held) {limit : ℕ} (hlimit : scores.items.length ≤ limit) :
    ∃ c ∈ rankSignals scores limit, c.signalId = signalId := by
  have hmem : (signalId, held) ∈ (sortedBy (fun item : String × ℚ × ℕ =>
      (toLex (-item.2.1, item.1) : ℚ ×ₗ String)) scores.items).take limit := by
    rw [take_of_length_le ((sortedBy_perm _ _).length_eq.trans_le hlimit),
      (sortedBy_perm _ _).mem_iff]
    exact Dict.mem_items_iff.mpr h
  obtain ⟨i, hi, heq⟩ := getElem_of_mem hmem
  refine ⟨_, mem_mapIdx.mpr ⟨i, hi, rfl⟩, ?_⟩
  exact congrArg Prod.fst heq

theorem index_of_candidates
    (h : ∀ limit, rankSignals scores limit = rankSignals scores' limit) {signalId : String}
    {held held' : ℚ × ℕ} (hheld : scores.get? signalId = some held)
    (hheld' : scores'.get? signalId = some held') : held.2 = held'.2 := by
  obtain ⟨c, hc, rfl⟩ := exists_candidate hheld (le_refl scores.items.length)
  obtain ⟨first, hfirst, hchunk⟩ := mem_rankSignals hc
  rw [h] at hc
  obtain ⟨second, hsecond, hchunk'⟩ := mem_rankSignals hc
  obtain rfl := Option.some.inj (hheld.symm.trans hfirst)
  obtain rfl := Option.some.inj (hheld'.symm.trans hsecond)
  exact (Indexing.chunkIdFor_inj (hchunk.symm.trans hchunk')).2

/-! ## The rows that count -/

def MentionRow.contribution (entities : Dict String Neighbour) (row : MentionRow) :
    Option Contribution :=
  ((entities.get? (textOf row.viaEntity)).filter fun _ => textOf row.signalId ≠ "").map fun via =>
    (textOf row.signalId, via.pathScore * row.salience.getD DEFAULT_SALIENCE,
      chunkIndexOf row.chunkIndex)

def directContribution (signals : Dict String Neighbour) (signalId : Option String) :
    Option Contribution :=
  (signals.get? (textOf signalId)).map fun node => (textOf signalId, node.pathScore, 0)

def contributionsOf (hood : Neighbourhood) (mentions : List MentionRow)
    (direct : List (Option String)) : List Contribution :=
  mentions.filterMap (MentionRow.contribution (byId hood.entities)) ++
    direct.filterMap (directContribution (byId hood.signalNodes))

theorem foldl_contributions {α : Type} (contribution : α → Option Contribution)
    (step : Dict String (ℚ × ℕ) → α → Dict String (ℚ × ℕ))
    (hstep : ∀ scores a, step scores a = (contribution a).elim scores fun c =>
      accumulate scores c.1 c.2.1 c.2.2) (rows : List α) (scores : Dict String (ℚ × ℕ)) :
    rows.foldl step scores = accumulateAll scores (rows.filterMap contribution) := by
  induction rows generalizing scores with
  | nil => rfl
  | cons row rows ih =>
    rw [foldl_cons, ih, hstep]
    cases hrow : contribution row with
    | none => rw [filterMap_cons_none hrow]; rfl
    | some c => rw [filterMap_cons_some hrow]; rfl

theorem collectSignals_eq (hood : Neighbourhood) (mentions : List MentionRow)
    (direct : List (Option String)) :
    collectSignals hood mentions direct =
      accumulateAll .empty (contributionsOf hood mentions direct) := by
  have hmention : ∀ scores row, collectMention (byId hood.entities) scores row =
      (row.contribution (byId hood.entities)).elim scores fun c =>
        accumulate scores c.1 c.2.1 c.2.2 := by
    intro scores row
    unfold collectMention MentionRow.contribution
    cases (byId hood.entities).get? (textOf row.viaEntity) with
    | none => rfl
    | some via =>
      by_cases hblank : textOf row.signalId = ""
      · simp [hblank]
      · dsimp only
        rw [if_neg hblank, Option.filter_some_pos (by simpa using hblank)]
        rfl
  have hdirect : ∀ scores signalId,
      collectDirect (byId hood.signalNodes) scores signalId =
        (directContribution (byId hood.signalNodes) signalId).elim scores fun c =>
          accumulate scores c.1 c.2.1 c.2.2 := by
    intro scores signalId
    unfold collectDirect directContribution
    cases (byId hood.signalNodes).get? (textOf signalId) with
    | none | some => rfl
  unfold collectSignals contributionsOf
  rw [foldl_contributions _ _ hmention, foldl_contributions _ _ hdirect]
  unfold accumulateAll
  rw [foldl_append]

/-! ## Lookups -/

def Scored (score : String → ℚ) (nodes : Dict String Neighbour) : Prop :=
  ∀ v n, nodes.get? v = some n → n.entityId = v ∧ n.pathScore = score v

def bestIds (score : String → ℚ) (ids : List String) (maxNodes : ℕ) : List String :=
  (sortedBy (fun v => (toLex (-score v, v) : ℚ ×ₗ String)) ids).take maxNodes

section

variable {score : String → ℚ} {nodes : Dict String Neighbour} {ids : List String}

theorem mem_values {n : Neighbour} :
    n ∈ nodes.values ↔ ∃ v, nodes.get? v = some n := by
  unfold Dict.values
  rw [mem_map]
  constructor
  · rintro ⟨item, hitem, rfl⟩
    exact ⟨item.1, Dict.mem_items_iff.mp hitem⟩
  · rintro ⟨v, hv⟩
    exact ⟨(v, n), Dict.mem_items_iff.mpr hv, rfl⟩

theorem Scored.map_entityId (h : Scored score nodes) : nodes.values.map Neighbour.entityId = nodes.keys := by
  unfold Dict.values Dict.keys
  rw [map_map]
  exact map_congr_left fun item hitem => (h item.1 item.2 (Dict.mem_items_iff.mp hitem)).1

theorem get?_byId {found : List Neighbour} (hnodup : (found.map Neighbour.entityId).Nodup)
    (v : String) (n : Neighbour) :
    (byId found).get? v = some n ↔ n ∈ found ∧ n.entityId = v := by
  have hkeys : (found.map fun n => (n.entityId, n)).map Prod.fst =
      found.map Neighbour.entityId := by
    rw [map_map]
    rfl
  unfold byId
  rw [Dict.get?_ofList (by rwa [hkeys]), mem_map]
  constructor
  · rintro ⟨m, hm, heq⟩
    cases heq
    exact ⟨hm, rfl⟩
  · rintro ⟨hn, rfl⟩
    exact ⟨n, hn, rfl⟩

theorem get?_byId_filtered (h : Scored score nodes) (p : Neighbour → Bool) (v : String)
    (n : Neighbour) :
    (byId (sortedBy Neighbour.order (nodes.values.filter p))).get? v = some n ↔
      nodes.get? v = some n ∧ p n = true := by
  have hperm := (sortedBy_perm Neighbour.order (nodes.values.filter p)).map Neighbour.entityId
  have hnodup : ((nodes.values.filter p).map Neighbour.entityId).Nodup := by
    have hids : (nodes.values.map Neighbour.entityId).Nodup := by
      rw [h.map_entityId]
      exact nodes.nodup
    exact hids.sublist (filter_sublist.map _)
  rw [get?_byId (hperm.nodup_iff.mpr hnodup), (sortedBy_perm _ _).mem_iff, mem_filter,
    mem_values]
  constructor
  · rintro ⟨⟨⟨w, hw⟩, hp⟩, rfl⟩
    rw [(h w n hw).1]
    exact ⟨hw, hp⟩
  · rintro ⟨hv, hp⟩
    exact ⟨⟨⟨v, hv⟩, hp⟩, (h v n hv).1⟩

theorem map_sorted_values (h : Scored score nodes) (hids : ids.Nodup)
    (hmem : ∀ v, v ∈ ids ↔ (nodes.get? v).isSome) :
    (sortedBy Neighbour.order nodes.values).map Neighbour.entityId =
      sortedBy (fun v => (toLex (-score v, v) : ℚ ×ₗ String)) ids := by
  have hinjective : Function.Injective fun v => (toLex (-score v, v) : ℚ ×ₗ String) :=
    fun v w heq => congrArg (fun key => (ofLex key).2) heq
  have horder : ∀ n ∈ nodes.values, n.order = toLex (-score n.entityId, n.entityId) := by
    intro n hn
    obtain ⟨v, hv⟩ := mem_values.mp hn
    obtain ⟨hid, hscore⟩ := h v n hv
    unfold Neighbour.order
    rw [hscore, hid]
  have hnodup : (nodes.values.map Neighbour.order).Nodup := by
    have hkeys : nodes.values.map Neighbour.order = nodes.keys.map fun v =>
        (toLex (-score v, v) : ℚ ×ₗ String) := by
      rw [← h.map_entityId, map_map]
      exact map_congr_left horder
    rw [hkeys]
    exact nodes.nodup.map hinjective
  refine eq_of_strict ?_ (sortedBy_strict (hids.map hinjective)) fun v => ?_
  · refine pairwise_map.mpr ((sortedBy_strict hnodup).imp_of_mem fun {a b} ha hb hlt => ?_)
    rwa [← horder a ((sortedBy_perm _ _).mem_iff.mp ha),
      ← horder b ((sortedBy_perm _ _).mem_iff.mp hb)]
  · rw [((sortedBy_perm _ _).map _).mem_iff, (sortedBy_perm _ _).mem_iff, h.map_entityId, hmem,
      Dict.mem_keys]

theorem get?_capped {hood : Neighbourhood} (h : Scored score hood.nodes) (hids : ids.Nodup)
    (hmem : ∀ v, v ∈ ids ↔ (hood.nodes.get? v).isSome) (maxNodes : ℕ) (v : String)
    (n : Neighbour) : (hood.capped maxNodes).nodes.get? v = some n ↔
      hood.nodes.get? v = some n ∧ v ∈ bestIds score ids maxNodes := by
  have hsorted := map_sorted_values h hids hmem
  unfold capped bestIds
  split_ifs with hmany
  · have hnodup : (((sortedBy Neighbour.order hood.nodes.values).take maxNodes).map
        Neighbour.entityId).Nodup := by
      rw [map_take, hsorted]
      exact ((sortedBy_perm _ _).nodup_iff.mpr hids).sublist (take_sublist ..)
    rw [get?_byId hnodup, ← hsorted, ← map_take]
    constructor
    · rintro ⟨hn, rfl⟩
      obtain ⟨w, hw⟩ := mem_values.mp ((sortedBy_perm _ _).mem_iff.mp (mem_of_mem_take hn))
      exact ⟨(h w n hw).1 ▸ hw, mem_map_of_mem hn⟩
    · rintro ⟨hv, hmem⟩
      obtain ⟨m, hm, rfl⟩ := mem_map.mp hmem
      obtain ⟨w, hw⟩ := mem_values.mp ((sortedBy_perm _ _).mem_iff.mp (mem_of_mem_take hm))
      have hsame : hood.nodes.get? m.entityId = some m := (h w m hw).1 ▸ hw
      obtain rfl := Option.some.inj (hsame.symm.trans hv)
      exact ⟨hm, rfl⟩
  · have hlength : (sortedBy (fun v => (toLex (-score v, v) : ℚ ×ₗ String)) ids).length ≤
        maxNodes := by
      rw [← hsorted, length_map, (sortedBy_perm _ _).length_eq]
      unfold Dict.values
      rw [length_map]
      exact not_lt.mp hmany
    rw [take_of_length_le hlength, (sortedBy_perm _ _).mem_iff, hmem]
    exact ⟨fun hv => ⟨hv, by rw [hv]; rfl⟩, fun hv => hv.1⟩

end

/-! ## Rows in another order -/

structure Answers.Reorders (answers' answers : Answers) : Prop where
  hops : ∀ h, (answers'.hops h).Perm (answers.hops h)
  mentions : answers'.mentions.Perm answers.mentions
  direct : answers'.direct.Perm answers.direct

section

variable {seeds : List String} {hops hops' : ℕ → List EdgeRow} {minConfidence : ℚ}
  {label : String → String} (hperm : ∀ h, (hops' h).Perm (hops h))

include hperm

theorem usableRows_perm (h : ℕ) : (usableRows (hops' h)).Perm (usableRows (hops h)) :=
  (hperm h).filter _

theorem targets_perm (h : ℕ) (v : String) : Targets (hops' h) v ↔ Targets (hops h) v := by
  unfold Targets
  simp only [(usableRows_perm hperm h).mem_iff]

theorem sources_perm (h : ℕ) (v : String) : Sources (hops' h) v ↔ Sources (hops h) v := by
  unfold Sources
  simp only [(usableRows_perm hperm h).mem_iff]

theorem known_perm (h : ℕ) (v : String) : Known seeds hops' h v ↔ Known seeds hops h v := by
  induction h with
  | zero => exact Iff.rfl
  | succ h ih => exact or_congr ih (targets_perm hperm (h + 1) v)

theorem layer_perm (h : ℕ) (v : String) : Layer seeds hops' h v ↔ Layer seeds hops h v := by
  cases h with
  | zero => exact Iff.rfl
  | succ h => exact and_congr (targets_perm hperm (h + 1) v) (not_congr (known_perm hperm h v))

theorem learned_perm (h : ℕ) (v : String) : Learned seeds hops' h v ↔ Learned seeds hops h v := by
  unfold Learned
  simp only [sources_perm hperm]

theorem answered_perm (h : Answered seeds hops minConfidence label) :
    Answered seeds hops' minConfidence label where
  start k v hv := (layer_perm hperm k v).mpr (h.start k v ((sources_perm hperm _ v).mp hv))
  confident k row hrow := h.confident k row ((usableRows_perm hperm k).mem_iff.mp hrow)
  labelled k row hrow := h.labelled k row ((usableRows_perm hperm k).mem_iff.mp hrow)

theorem stages_perm (hopDecay : ℚ) (k : ℕ) :
    (stages hops' hopDecay k).Perm (stages hops hopDecay k) :=
  (usableRows_perm hperm (k + 1)).map _

end

theorem exists_hops {hops : ℕ → List EdgeRow} {hopDecay : ℚ} {arcs : ℕ → List (Arc String ℚ)}
    (h : ∀ k, (arcs k).Perm (stages hops hopDecay k)) :
    ∃ hops' : ℕ → List EdgeRow, (∀ k, (hops' k).Perm (hops k)) ∧ stages hops' hopDecay = arcs := by
  have hlift : ∀ k, ∃ rows, rows.Perm (hops (k + 1)) ∧ arcsOf (hopDecay ^ (k + 1)) rows = arcs k := by
    intro k
    have hcomp := congrFun (congrFun (eq_map_comp_perm (EdgeRow.arc (hopDecay ^ (k + 1))))
      (arcs k)) (usableRows (hops (k + 1)))
    obtain ⟨rows, harcs, hrows⟩ := hcomp.mpr (h k)
    refine ⟨rows ++ (hops (k + 1)).filter fun row => !row.usable, ?_, ?_⟩
    · exact (hrows.append_right _).trans (filter_append_perm ..)
    · have hall : ∀ row ∈ rows, row.usable = true := fun row hrow =>
        (mem_filter.mp (hrows.mem_iff.mp hrow)).2
      have hnone : ((hops (k + 1)).filter fun row => !row.usable).filter EdgeRow.usable = [] := by
        refine filter_eq_nil_iff.mpr fun row hrow => ?_
        simpa using (mem_filter.mp hrow).2
      unfold arcsOf usableRows
      rw [filter_append, filter_eq_self.mpr hall, hnone, append_nil, harcs]
  choose rows hrows harcs using hlift
  refine ⟨fun k => if k = 0 then hops 0 else rows (k - 1), fun k => ?_, funext fun k => ?_⟩
  · cases k with
    | zero => exact .refl _
    | succ k => exact hrows k
  · exact harcs k

/-! ## Scores and candidates -/

variable (backend : GraphTraversal)

variable (seeds : List String)

variable (hops : ℕ → List EdgeRow)

variable (depth : ℕ)

def hopScore : String → ℚ :=
  diffuseTo (seedScore seeds) (stages hops backend.hopDecay) depth

def knownIds : List String :=
  (seeds ++ (List.range depth).flatMap fun k =>
    (usableRows (hops (k + 1))).map EdgeRow.target).dedup

def keptIds : List String :=
  bestIds (hopScore backend seeds hops depth) (knownIds seeds hops depth) backend.maxNodes

def SignalNode
    (label : String → String) (v : String) : Prop :=
  Learned seeds hops depth v ∧ label v = SIGNAL_LABEL

def MentionRow.Counts (label : String → String) (row : MentionRow) : Prop :=
  textOf row.signalId ≠ "" ∧ textOf row.viaEntity ∈ keptIds backend seeds hops depth ∧
    ¬SignalNode seeds hops depth label (textOf row.viaEntity)

def GraphTraversal.candidates (depth fanoutCap : ℕ)
    (seeds : List String) (answers : Answers) (limit : ℕ) : List Candidate :=
  rankSignals (collectSignals ((backend.walk depth fanoutCap seeds answers.hops).capped
    backend.maxNodes) answers.mentions answers.direct) limit

theorem mem_knownIds {seeds : List String} {hops : ℕ → List EdgeRow} {depth : ℕ} {v : String} :
    v ∈ knownIds seeds hops depth ↔ Known seeds hops depth v := by
  unfold knownIds
  rw [mem_dedup]
  induction depth with
  | zero => simp [Known]
  | succ depth ih =>
    rw [range_succ, flatMap_append, ← append_assoc, mem_append, ih,
      flatMap_singleton]
    exact or_congr_right mem_map

section

variable {backend : GraphTraversal} {seeds : List String} {hops : ℕ → List EdgeRow}
  {label : String → String} {depth : ℕ} {hood : Neighbourhood}

variable {v : String}

theorem keptIds_known (hv : v ∈ keptIds backend seeds hops depth) : Known seeds hops depth v :=
  mem_knownIds.mp ((sortedBy_perm _ _).mem_iff.mp (mem_of_mem_take hv))

theorem Walked.scored (hwalked : Walked seeds hops backend.hopDecay label depth hood.nodes)
    (hscore : scoreIn hood.nodes = hopScore backend seeds hops depth) :
    Scored (hopScore backend seeds hops depth) hood.nodes := by
  intro v n hn
  refine ⟨(hwalked.facts v n hn).1, ?_⟩
  rw [← hscore]
  unfold scoreIn
  rw [hn]
  rfl

theorem get?_kept (hwalked : Walked seeds hops backend.hopDecay label depth hood.nodes)
    (hscore : scoreIn hood.nodes = hopScore backend seeds hops depth) (v : String) (n : Neighbour) :
    (hood.capped backend.maxNodes).nodes.get? v = some n ↔
      hood.nodes.get? v = some n ∧ v ∈ keptIds backend seeds hops depth :=
  get?_capped (hwalked.scored hscore) (nodup_dedup _)
    (fun w => mem_knownIds.trans (hwalked.mem w).symm) backend.maxNodes v n

theorem isSignal_iff (hwalked : Walked seeds hops backend.hopDecay label depth hood.nodes)
    {n : Neighbour} (hn : hood.nodes.get? v = some n) :
    n.isSignal = true ↔ SignalNode seeds hops depth label v := by
  obtain ⟨-, -, -, hlearned, hblank⟩ := hwalked.facts v n hn
  unfold Neighbour.isSignal SignalNode
  rw [decide_eq_true_eq]
  by_cases hv : Learned seeds hops depth v
  · rw [hlearned hv, and_iff_right hv]
  · rw [hblank hv]
    exact iff_of_false (by decide) fun h => hv h.1

theorem get?_filtered (hwalked : Walked seeds hops backend.hopDecay label depth hood.nodes)
    (hscore : scoreIn hood.nodes = hopScore backend seeds hops depth) (p : Neighbour → Bool)
    (v : String) (n : Neighbour) :
    (byId (sortedBy Neighbour.order
      ((hood.capped backend.maxNodes).nodes.values.filter p))).get? v = some n ↔
      hood.nodes.get? v = some n ∧ v ∈ keptIds backend seeds hops depth ∧ p n = true := by
  have hkept := get?_kept hwalked hscore
  have hcapped : Scored (hopScore backend seeds hops depth)
      (hood.capped backend.maxNodes).nodes := fun w m hm =>
    hwalked.scored hscore w m ((hkept w m).mp hm).1
  rw [get?_byId_filtered hcapped, hkept, and_assoc]

theorem exists_kept (hwalked : Walked seeds hops backend.hopDecay label depth hood.nodes)
    (hscore : scoreIn hood.nodes = hopScore backend seeds hops depth)
    (hv : v ∈ keptIds backend seeds hops depth) : ∃ n, hood.nodes.get? v = some n ∧
      n.pathScore = hopScore backend seeds hops depth v := by
  obtain ⟨n, hn⟩ := Option.isSome_iff_exists.mp ((hwalked.mem v).mpr (keptIds_known hv))
  exact ⟨n, hn, (hwalked.scored hscore v n hn).2⟩

theorem contribution_iff (hwalked : Walked seeds hops backend.hopDecay label depth hood.nodes)
    (hscore : scoreIn hood.nodes = hopScore backend seeds hops depth) (row : MentionRow)
    (c : Contribution) :
    row.contribution (byId (hood.capped backend.maxNodes).entities) = some c ↔
      row.Counts backend seeds hops depth label ∧
        (textOf row.signalId, hopScore backend seeds hops depth (textOf row.viaEntity) *
          row.salience.getD DEFAULT_SALIENCE, chunkIndexOf row.chunkIndex) = c := by
  have hget := get?_filtered hwalked hscore (fun n => !n.isSignal) (textOf row.viaEntity)
  unfold MentionRow.contribution MentionRow.Counts entities
  rw [Option.map_eq_some_iff]
  constructor
  · rintro ⟨via, hvia, rfl⟩
    obtain ⟨hfound, hblank⟩ := Option.filter_eq_some_iff.mp hvia
    obtain ⟨hn, hkept, hentity⟩ := (hget via).mp hfound
    have hscored := (hwalked.scored hscore _ via hn).2
    refine ⟨⟨of_decide_eq_true hblank, hkept, fun hsignal => ?_⟩, by rw [hscored]⟩
    rw [(isSignal_iff hwalked hn).mpr hsignal] at hentity
    cases hentity
  · rintro ⟨⟨hblank, hkept, hentity⟩, rfl⟩
    obtain ⟨via, hn, hscored⟩ := exists_kept hwalked hscore hkept
    have hfalse : via.isSignal = false :=
      Bool.eq_false_iff.mpr (mt (isSignal_iff hwalked hn).mp hentity)
    refine ⟨via, Option.filter_eq_some_iff.mpr ⟨(hget via).mpr ⟨hn, hkept, ?_⟩, ?_⟩, ?_⟩
    · rw [hfalse]
      rfl
    · exact decide_eq_true hblank
    · rw [hscored]

theorem directContribution_iff
    (hwalked : Walked seeds hops backend.hopDecay label depth hood.nodes)
    (hscore : scoreIn hood.nodes = hopScore backend seeds hops depth) (signalId : Option String)
    (c : Contribution) :
    directContribution (byId (hood.capped backend.maxNodes).signalNodes) signalId =
        some c ↔
      (textOf signalId ∈ keptIds backend seeds hops depth ∧
        SignalNode seeds hops depth label (textOf signalId)) ∧
        (textOf signalId, hopScore backend seeds hops depth (textOf signalId), 0) = c := by
  have hget := get?_filtered hwalked hscore Neighbour.isSignal (textOf signalId)
  unfold directContribution signalNodes
  rw [Option.map_eq_some_iff]
  constructor
  · rintro ⟨n, hfound, rfl⟩
    obtain ⟨hn, hkept, hsignal⟩ := (hget n).mp hfound
    refine ⟨⟨hkept, (isSignal_iff hwalked hn).mp hsignal⟩, ?_⟩
    rw [(hwalked.scored hscore _ n hn).2]
  · rintro ⟨⟨hkept, hsignal⟩, rfl⟩
    obtain ⟨n, hn, hscored⟩ := exists_kept hwalked hscore hkept
    exact ⟨n, (hget n).mpr ⟨hn, hkept, (isSignal_iff hwalked hn).mpr hsignal⟩, by rw [hscored]⟩

end

end OmniSense.Retrieval
