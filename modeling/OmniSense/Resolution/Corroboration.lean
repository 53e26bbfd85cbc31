import OmniSense.Library.Sums
import OmniSense.Resolution.Matcher

/-! The corroborating features, and what they do to a verdict that name and embedding support. -/

namespace OmniSense.Resolution

open Library List

def ResolutionRecord.uncorroborated (r : ResolutionRecord) : ResolutionRecord :=
  { r with aliases := [], context := ∅ }

/-- `DISTINCT < REVIEW < MERGE`. -/
def MatchDecision.rank : MatchDecision → ℕ
  | .distinct => 0
  | .review => 1
  | .merge => 2

theorem MatchDecision.rank_le (d : MatchDecision) : d.rank ≤ 2 := by
  cases d <;> decide

structure MatchWeights.Nonneg (weights : MatchWeights) : Prop where
  name : 0 ≤ weights.name
  alias_ : 0 ≤ weights.alias_
  embedding : 0 ≤ weights.embedding
  context : 0 ≤ weights.context

variable {tools : TextTools} {left right : ResolutionRecord} {keys : List BlockingKey}

/-! ## The features of a pair -/

theorem aliasFeature_labels : (tools.aliasFeature left right).name = "alias" ∧
    (tools.aliasFeature left right).weight = matchWeights.alias_ := by
  unfold TextTools.aliasFeature
  dsimp only
  split
  · exact ⟨rfl, rfl⟩
  · split
    · exact ⟨rfl, rfl⟩
    · split
      · exact ⟨rfl, rfl⟩
      · split_ifs <;> exact ⟨rfl, rfl⟩

theorem embeddingFeature_labels : (tools.embeddingFeature left right).name = "embedding" ∧
    (tools.embeddingFeature left right).weight = matchWeights.embedding := by
  unfold TextTools.embeddingFeature
  split
  · split_ifs
    · exact ⟨rfl, rfl⟩
    · split <;> exact ⟨rfl, rfl⟩
  · exact ⟨rfl, rfl⟩

theorem contextFeature_name : (contextFeature left right).name = "context" := by
  unfold contextFeature
  dsimp only
  split_ifs <;> rfl

theorem aliasFeature_nonneg {v : ℚ} (h : (tools.aliasFeature left right).value = some v) :
    0 ≤ v := by
  unfold TextTools.aliasFeature at h
  dsimp only at h
  split at h
  · cases h
  · split at h
    · cases h
    · split at h
      · obtain rfl := Option.some.inj h
        exact zero_le_one
      · split_ifs at h with _ hbest
        obtain rfl := Option.some.inj h
        have hthreshold : (0 : ℚ) ≤ reviewThreshold := by norm_num [reviewThreshold]
        exact hthreshold.trans (not_lt.mp hbest)

theorem contextFeature_nonneg {v : ℚ} (h : (contextFeature left right).value = some v) :
    0 ≤ v := by
  unfold contextFeature at h
  dsimp only at h
  split_ifs at h
  cases h
  exact div_nonneg (Nat.cast_nonneg _) (Nat.cast_nonneg _)

theorem aliasFeature_uncorroborated :
    (tools.aliasFeature left.uncorroborated right.uncorroborated).value = none := rfl

theorem contextFeature_uncorroborated :
    (contextFeature left.uncorroborated right.uncorroborated).value = none := rfl

namespace MatchModel

variable (model : MatchModel)

def primary (left right : ResolutionRecord) : List FeatureScore :=
  [⟨"name", model.tools.nameSimilarity left.name right.name, model.weights.name, .blended⟩,
    model.tools.embeddingFeature left right]

def corroborating (left right : ResolutionRecord) : List FeatureScore :=
  [model.tools.aliasFeature left right, contextFeature left right]

def measured (features : List FeatureScore) : List (ℚ × ℚ) :=
  features.filterMap fun f => f.value.map fun v => (model.weightOf f, v)

def features (left right : ResolutionRecord) : List FeatureScore :=
  [⟨"name", model.tools.nameSimilarity left.name right.name, model.weights.name, .blended⟩,
    model.tools.aliasFeature left right, model.tools.embeddingFeature left right,
    contextFeature left right]

variable {model}

theorem features_perm : (model.features left right).Perm
    (model.primary left right ++ model.corroborating left right) :=
  (List.Perm.swap _ _ _).cons _

theorem compute_features :
    (model.compute left right keys).features = model.features left right := by
  unfold compute
  dsimp only
  split
  · rfl
  · split
    · rfl
    · rfl
    · split
      · rfl
      · split
        · split_ifs <;> rfl
        · split_ifs <;> rfl
        · rfl

theorem weightOf_nonneg (hweights : model.weights.Nonneg) {f : FeatureScore}
    (h : f ∈ model.primary left right ++ model.corroborating left right) :
    0 ≤ model.weightOf f := by
  have hname : f.name = "name" ∨ f.name = "embedding" ∨ f.name = "alias" ∨ f.name = "context" := by
    simp only [primary, corroborating, cons_append, nil_append, mem_cons,
      not_mem_nil, or_false] at h
    rcases h with rfl | rfl | rfl | rfl
    · exact .inl rfl
    · exact .inr (.inl embeddingFeature_labels.1)
    · exact .inr (.inr (.inl aliasFeature_labels.1))
    · exact .inr (.inr (.inr contextFeature_name))
  unfold weightOf
  rcases hname with h | h | h | h
  · rw [h]
    exact hweights.name
  · rw [h]
    exact hweights.embedding
  · rw [h]
    exact hweights.alias_
  · rw [h]
    exact hweights.context

variable {e : ℚ × ℚ}

theorem mem_measured {features : List FeatureScore} (h : e ∈ model.measured features) :
    ∃ f ∈ features, model.weightOf f = e.1 ∧ f.value = some e.2 := by
  obtain ⟨f, hf, he⟩ := mem_filterMap.mp h
  obtain ⟨v, hv, rfl⟩ := Option.map_eq_some_iff.mp he
  exact ⟨f, hf, rfl, hv⟩

theorem measured_nonneg (hweights : model.weights.Nonneg)
    (h : e ∈ model.measured (model.primary left right ++ model.corroborating left right)) :
    0 ≤ e.1 := by
  obtain ⟨f, hf, hweight, _⟩ := mem_measured h
  rw [← hweight]
  exact weightOf_nonneg hweights hf

theorem measured_append (fs gs : List FeatureScore) :
    model.measured (fs ++ gs) = model.measured fs ++ model.measured gs :=
  filterMap_append

theorem measured_corroborating_nonneg (hweights : model.weights.Nonneg)
    (h : e ∈ model.measured (model.corroborating left right)) : 0 ≤ e.1 ∧ 0 ≤ e.2 := by
  have hmem : e ∈ model.measured (model.primary left right ++ model.corroborating left right) := by
    rw [measured_append]
    exact mem_append_right _ h
  refine ⟨measured_nonneg hweights hmem, ?_⟩
  obtain ⟨f, hf, _, hvalue⟩ := mem_measured h
  simp only [corroborating, mem_cons, not_mem_nil, or_false] at hf
  rcases hf with rfl | rfl
  · exact aliasFeature_nonneg hvalue
  · exact contextFeature_nonneg hvalue

theorem measured_uncorroborated : model.measured
    (model.primary left.uncorroborated right.uncorroborated ++
      model.corroborating left.uncorroborated right.uncorroborated) =
    model.measured (model.primary left right) := by
  have hnone : model.measured
      (model.corroborating left.uncorroborated right.uncorroborated) = [] := by
    unfold measured corroborating
    rw [filterMap_cons_none (congrArg _ aliasFeature_uncorroborated),
      filterMap_cons_none (congrArg _ contextFeature_uncorroborated), filterMap_nil]
  rw [measured_append, hnone, append_nil]
  rfl

/-! ## The combined score -/

theorem combine_eq (features : List FeatureScore) : model.combine features =
    if totalWeight (model.measured features) ≤ 0 then none
    else some (weightedMean (model.measured features)) := by
  have hsums : (features.map fun f => f.value.elim 0 (model.weightOf f * ·)).sum =
        weightedSum (model.measured features) ∧
      (features.map fun f => f.value.elim 0 fun _ => model.weightOf f).sum =
        totalWeight (model.measured features) := by
    unfold weightedSum totalWeight measured
    induction features with
    | nil => exact ⟨rfl, rfl⟩
    | cons f fs ih =>
      rw [map_cons, sum_cons, ih.1, map_cons, sum_cons, ih.2]
      rw [filterMap_cons]
      cases f.value with
      | none => exact ⟨zero_add _, zero_add _⟩
      | some v => exact ⟨rfl, rfl⟩
  unfold combine weightedMean
  rw [hsums.1, hsums.2]

theorem combine_perm {fs gs : List FeatureScore} (h : fs.Perm gs) :
    model.combine fs = model.combine gs := by
  have hmeasured : (model.measured fs).Perm (model.measured gs) := h.filterMap _
  have htotal : totalWeight (model.measured fs) = totalWeight (model.measured gs) :=
    (hmeasured.map Prod.fst).sum_eq
  rw [combine_eq, combine_eq, htotal, weightedMean_perm hmeasured]

theorem combine_getD {features : List FeatureScore}
    (h : ∀ e ∈ model.measured features, 0 ≤ e.1) :
    (model.combine features).getD 0 = weightedMean (model.measured features) := by
  rw [combine_eq]
  split_ifs with htotal
  · have hzero : totalWeight (model.measured features) = 0 :=
      le_antisymm htotal (totalWeight_nonneg h)
    unfold weightedMean
    rw [hzero, div_zero]
    rfl
  · rfl

/-! ## The verdict -/

def exactAlias (model : MatchModel) (left right : ResolutionRecord) : Prop :=
  (model.tools.aliasFeature left right).value = some 1 ∧
    (model.tools.aliasFeature left right).detail matches .exactSurface _

theorem not_exactAlias_uncorroborated :
    ¬model.exactAlias left.uncorroborated right.uncorroborated := by
  rintro ⟨hvalue, _⟩
  rw [aliasFeature_uncorroborated] at hvalue
  cases hvalue

def Supported (model : MatchModel) (left right : ResolutionRecord) (keys : List BlockingKey) :
    Prop :=
  ¬(model.tools.nameSimilarity left.name right.name).all (· < nameEvidenceFloor) ∨
    model.exactAlias left right ∨
    keys.any fun key => key.kind = .identifier ∧ key.value.startsWith "handle:"

section Comparable

variable (htype : ¬typeConflict left right) (hident : identifierVerdict left right = none)

include htype hident

theorem combined_of_comparable : (model.compute left right keys).combined =
    (model.combine (model.features left right)).getD 0 := by
  unfold compute
  rw [if_neg htype, hident]
  dsimp only
  split
  · rename_i hnone
    exact (congrArg (Option.getD · 0) hnone).symm
  · rename_i c hsome
    split
    · split_ifs <;> exact (congrArg (Option.getD · 0) hsome).symm
    · split_ifs <;> exact (congrArg (Option.getD · 0) hsome).symm
    · exact (congrArg (Option.getD · 0) hsome).symm

variable (keys) in
theorem rank_of_comparable {c : ℚ} (hcombine : model.combine (model.features left right) = some c) :
    (2 ≤ (model.compute left right keys).decision.rank ↔
      model.autoMerge ≤ c ∧ model.Supported left right keys) ∧
    (1 ≤ (model.compute left right keys).decision.rank ↔
      model.review ≤ c ∨ model.exactAlias left right) := by
  unfold features at hcombine
  unfold compute Supported exactAlias
  rw [if_neg htype, hident]
  rw [hcombine]
  dsimp only
  unfold band
  have hreview : model.autoMerge ≤ c → model.review ≤ c := model.review_le.trans
  have hlow : ¬2 ≤ MatchDecision.rank .review := by decide
  have hnot : ¬2 ≤ MatchDecision.rank .distinct := by decide
  by_cases hmerge : model.autoMerge ≤ c
  · rw [if_pos hmerge]
    dsimp only
    split_ifs with hweak
    · obtain ⟨hname, hexact, hhandle⟩ := hweak
      refine ⟨iff_of_false hlow ?_, iff_of_true (le_refl 1) (.inl (hreview hmerge))⟩
      rintro ⟨_, h | h | h⟩
      · exact h hname
      · exact hexact h
      · exact hhandle h
    · rw [not_and_or, not_and_or, not_not, not_not] at hweak
      exact ⟨iff_of_true (le_refl 2) ⟨hmerge, hweak⟩,
        iff_of_true one_le_two (.inl (hreview hmerge))⟩
  · rw [if_neg hmerge]
    have hmerge' : ∀ P : Prop, ¬(model.autoMerge ≤ c ∧ P) := fun _ h => hmerge h.1
    by_cases hband : model.review ≤ c
    · rw [if_pos hband]
      exact ⟨iff_of_false hlow (hmerge' _), iff_of_true (le_refl 1) (.inl hband)⟩
    · rw [if_neg hband]
      dsimp only
      split_ifs with halias
      · exact ⟨iff_of_false hlow (hmerge' _), iff_of_true (le_refl 1) (.inr halias)⟩
      · have hzero : ¬1 ≤ MatchDecision.rank .distinct := by decide
        exact ⟨iff_of_false hnot (hmerge' _), iff_of_false hzero (not_or.mpr ⟨hband, halias⟩)⟩

theorem decision_of_incomparable (hcombine : model.combine (model.features left right) = none) :
    (model.compute left right keys).decision = .distinct := by
  unfold features at hcombine
  unfold compute
  rw [if_neg htype, hident]
  rw [hcombine]

end Comparable

theorem typeConflict_uncorroborated :
    typeConflict left.uncorroborated right.uncorroborated = typeConflict left right := rfl

theorem identifierVerdict_uncorroborated :
    identifierVerdict left.uncorroborated right.uncorroborated = identifierVerdict left right := rfl

theorem combine_features : model.combine (model.features left right) =
    model.combine (model.primary left right ++ model.corroborating left right) :=
  combine_perm features_perm

theorem rank_mono (hweights : model.weights.Nonneg) (htype : ¬typeConflict left right)
    (hident : identifierVerdict left right = none)
    (hmean : weightedMean (model.measured (model.primary left right)) ≤
      weightedMean (model.measured (model.primary left right ++ model.corroborating left right))) :
    (model.compute left.uncorroborated right.uncorroborated keys).decision.rank ≤
      (model.compute left right keys).decision.rank := by
  have htypeBare : ¬typeConflict left.uncorroborated right.uncorroborated := by
    rwa [typeConflict_uncorroborated]
  have hidentBare : identifierVerdict left.uncorroborated right.uncorroborated = none := by
    rwa [identifierVerdict_uncorroborated]
  have hbare : model.combine (model.features left.uncorroborated right.uncorroborated) =
      if totalWeight (model.measured (model.primary left right)) ≤ 0 then none
      else some (weightedMean (model.measured (model.primary left right))) := by
    rw [combine_features, combine_eq, measured_uncorroborated]
  by_cases hnone : totalWeight (model.measured (model.primary left right)) ≤ 0
  · rw [if_pos hnone] at hbare
    have hdistinct : (model.compute left.uncorroborated right.uncorroborated keys).decision =
        .distinct := decision_of_incomparable htypeBare hidentBare hbare
    rw [hdistinct]
    exact Nat.zero_le _
  · rw [if_neg hnone] at hbare
    have hweight : 0 ≤ totalWeight (model.measured (model.corroborating left right)) :=
      totalWeight_nonneg fun e he => (measured_corroborating_nonneg hweights he).1
    have hfull : model.combine (model.features left right) = some (weightedMean
        (model.measured (model.primary left right ++ model.corroborating left right))) := by
      rw [combine_features, combine_eq, if_neg]
      rw [measured_append, totalWeight_append]
      exact fun h => hnone ((le_add_of_nonneg_right hweight).trans h)
    obtain ⟨hmergeBare, hreviewBare⟩ := rank_of_comparable keys htypeBare hidentBare hbare
    obtain ⟨hmerge, hreview⟩ := rank_of_comparable keys htype hident hfull
    have hsupported : model.Supported left.uncorroborated right.uncorroborated keys →
        model.Supported left right keys := by
      rintro (h | h | h)
      · exact .inl h
      · exact absurd h not_exactAlias_uncorroborated
      · exact .inr (.inr h)
    have htwo : 2 ≤ (model.compute left.uncorroborated right.uncorroborated keys).decision.rank →
        2 ≤ (model.compute left right keys).decision.rank := fun h =>
      hmerge.mpr ⟨(hmergeBare.mp h).1.trans hmean, hsupported (hmergeBare.mp h).2⟩
    have hone : 1 ≤ (model.compute left.uncorroborated right.uncorroborated keys).decision.rank →
        1 ≤ (model.compute left right keys).decision.rank := fun h =>
      hreview.mpr (.inl (((hreviewBare.mp h).resolve_right not_exactAlias_uncorroborated).trans
        hmean))
    have hbound := MatchDecision.rank_le
      (model.compute left.uncorroborated right.uncorroborated keys).decision
    omega

/-- **Corroboration raises a verdict** exactly when the alias and context values there are lie, by
weight, on or above the mean of the name and embedding values there are. -/
theorem corroboration_raises_iff (model : MatchModel) (hweights : model.weights.Nonneg)
    (left right : ResolutionRecord) (keys : List BlockingKey)
    (htype : ¬typeConflict left right) (hident : identifierVerdict left right = none) :
    ((model.compute left.uncorroborated right.uncorroborated keys).combined ≤
        (model.compute left right keys).combined ∧
      (model.compute left.uncorroborated right.uncorroborated keys).decision.rank ≤
        (model.compute left right keys).decision.rank) ↔
      0 ≤ deviation (model.measured (model.corroborating left right))
        (weightedMean (model.measured (model.primary left right))) := by
  have hprimary : ∀ e ∈ model.measured (model.primary left right), 0 ≤ e.1 := by
    intro e he
    have hmem : e ∈ model.measured (model.primary left right ++ model.corroborating left right) := by
      rw [measured_append]
      exact mem_append_left _ he
    exact measured_nonneg hweights hmem
  have hbare : (model.compute left.uncorroborated right.uncorroborated keys).combined =
      weightedMean (model.measured (model.primary left right)) := by
    have htypeBare : ¬typeConflict left.uncorroborated right.uncorroborated := by
      rwa [typeConflict_uncorroborated]
    have hidentBare : identifierVerdict left.uncorroborated right.uncorroborated = none := by
      rwa [identifierVerdict_uncorroborated]
    rw [combined_of_comparable htypeBare hidentBare, combine_features, combine_getD,
      measured_uncorroborated]
    rw [measured_uncorroborated]
    exact hprimary
  have hfull : (model.compute left right keys).combined =
      weightedMean (model.measured (model.primary left right ++ model.corroborating left right)) := by
    rw [combined_of_comparable htype hident, combine_features, combine_getD]
    exact fun e => measured_nonneg hweights
  have hextra : ∀ e ∈ model.measured (model.corroborating left right), 0 ≤ e.1 ∧ 0 ≤ e.2 :=
    fun e he => measured_corroborating_nonneg hweights he
  have hraise := weightedMean_le_append_iff hprimary hextra
  rw [← measured_append] at hraise
  rw [hbare, hfull, ← hraise]
  exact ⟨And.left, fun h => ⟨h, rank_mono hweights htype hident h⟩⟩

/-! ## Two records of one name -/

def sameNameTools : TextTools where
  normalizeName s := s
  nameTokens s := [s]
  phoneticCode _ := "AKM"
  lshKeys _ := []
  ratio _ _ := 100
  tokenSetRatio _ _ := 100
  tokenSortRatio _ _ := 100
  jaroWinkler _ _ := 1
  cosineSimilarity _ _ := none

def mentionedWith (id : String) (context : Finset String) : ResolutionRecord where
  id := id
  type := .company
  name := "acme"
  aliases := []
  identifiers := .empty
  embedding := none
  context := context
  firstSeen := none
  lastSeen := none
  mentionCount := 1
  mergedFrom := []

theorem standard_nonneg : (standard sameNameTools).weights.Nonneg := by
  constructor <;> decide +kernel

theorem corroboration_raises_shared :
    0 ≤ deviation ((standard sameNameTools).measured
        ((standard sameNameTools).corroborating (mentionedWith "a" {"x"}) (mentionedWith "b" {"x"})))
      (weightedMean ((standard sameNameTools).measured
        ((standard sameNameTools).primary (mentionedWith "a" {"x"}) (mentionedWith "b" {"x"})))) :=
  (corroboration_raises_iff (standard sameNameTools) standard_nonneg (mentionedWith "a" {"x"})
    (mentionedWith "b" {"x"}) [] (by decide) (by decide)).mp (by decide +kernel)

/-- Identical names merge, and one co-mention in three takes them back to review. -/
theorem shared_context_sinks :
    let left := mentionedWith "a" {"x", "y"}
    let right := mentionedWith "b" {"x", "z"}
    let full := (standard sameNameTools).compute left right []
    let bare := (standard sameNameTools).compute left.uncorroborated right.uncorroborated []
    typeConflict left right = false ∧ identifierVerdict left right = none ∧
      sameNameTools.nameSimilarity left.name right.name = some 1 ∧
      bare.decision = .merge ∧ full.decision = .review ∧
      ¬(bare.combined ≤ full.combined ∧ bare.decision.rank ≤ full.decision.rank) := by
  decide +kernel

end MatchModel

end OmniSense.Resolution
