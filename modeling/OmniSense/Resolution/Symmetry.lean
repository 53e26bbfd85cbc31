import Mathlib.Data.List.ProdSigma
import OmniSense.Resolution.Corroboration

/-! A pair scored from either side: when the memo entry that both sides share is right for both. -/

namespace OmniSense

open List

theorem EntityType.label_injective : Function.Injective EntityType.label := by
  intro a b h
  cases a <;> cases b <;> first | rfl | exact absurd h (by decide)

theorem EntityType.label_free (a : EntityType) : '!' ∉ a.label.toList := by
  cases a <;> simp [EntityType.label]

end OmniSense

namespace OmniSense.Resolution

open Library

/-- `cosine_similarity`, with the square root that the platform has. -/
def cosineSimilarity (sqrt : ℚ → ℚ) (left right : List ℚ) : Option ℚ :=
  if left.length ≠ right.length ∨ left = [] then none
  else
    let dot := (left.zipWith (· * ·) right).sum
    let leftNorm := (left.map fun a => a * a).sum
    let rightNorm := (right.map fun b => b * b).sum
    if leftNorm ≤ 0 ∨ rightNorm ≤ 0 then none else some (dot / sqrt (leftNorm * rightNorm))

theorem cosineSimilarity_comm (sqrt : ℚ → ℚ) (left right : List ℚ) :
    cosineSimilarity sqrt left right = cosineSimilarity sqrt right left := by
  unfold cosineSimilarity
  by_cases hlength : left.length = right.length
  · have hempty : left = [] ↔ right = [] := by
      rw [← List.length_eq_zero_iff, ← List.length_eq_zero_iff, hlength]
    have hdot : left.zipWith (· * ·) right = right.zipWith (· * ·) left :=
      List.zipWith_comm_of_comm mul_comm
    simp only [hlength, hempty, hdot, ne_eq, not_true_eq_false, false_or,
      or_comm (b := (right.map fun b => b * b).sum ≤ 0), mul_comm (left.map fun a => a * a).sum]
  · rw [if_pos (.inl hlength), if_pos (.inl (Ne.symm hlength))]

/-- The string ratios do not depend on the order of their arguments, and the cosine is computed as
the blocking module computes it. -/
structure TextTools.Symmetric (tools : TextTools) : Prop where
  ratio : ∀ a b, tools.ratio a b = tools.ratio b a
  tokenSetRatio : ∀ a b, tools.tokenSetRatio a b = tools.tokenSetRatio b a
  tokenSortRatio : ∀ a b, tools.tokenSortRatio a b = tools.tokenSortRatio b a
  jaroWinkler : ∀ a b, tools.jaroWinkler a b = tools.jaroWinkler b a
  cosine : ∃ sqrt, tools.cosineSimilarity = Resolution.cosineSimilarity sqrt

variable {tools : TextTools} {left right : ResolutionRecord} {keys : List BlockingKey}

/-! ## Features from either side -/

theorem tokenCoverage_comm (a b : List String) :
    tools.tokenCoverage a b = tools.tokenCoverage b a := by
  unfold TextTools.tokenCoverage
  simp only [or_comm (a := a.isEmpty = true), Nat.add_comm]

theorem nameSimilarity_comm (h : tools.Symmetric) (a b : String) :
    tools.nameSimilarity a b = tools.nameSimilarity b a := by
  unfold TextTools.nameSimilarity
  simp only [or_comm (a := tools.normalizeName a = ""),
    eq_comm (a := tools.normalizeName a) (b := tools.normalizeName b),
    tokenCoverage_comm (tools.nameTokens a), h.tokenSetRatio (tools.normalizeName a),
    h.tokenSortRatio (tools.normalizeName a), h.jaroWinkler (tools.normalizeName a)]

theorem embeddingFeature_value_comm (h : tools.Symmetric) :
    (tools.embeddingFeature left right).value = (tools.embeddingFeature right left).value := by
  obtain ⟨sqrt, hcosine⟩ := h.cosine
  unfold TextTools.embeddingFeature
  cases left.embedding with
  | none => cases right.embedding <;> rfl
  | some l =>
    cases right.embedding with
    | none => rfl
    | some r =>
      dsimp only
      by_cases hlength : l.length = r.length
      · rw [if_neg (not_not.mpr hlength), if_neg (not_not.mpr hlength.symm), hcosine,
          cosineSimilarity_comm]
      · rw [if_pos hlength, if_pos (Ne.symm hlength)]

variable (left right) in
theorem contextFeature_comm : contextFeature left right = contextFeature right left := by
  unfold contextFeature
  simp only [Finset.inter_comm left.context, Finset.union_comm left.context,
    or_comm (a := left.context = ∅)]

/-! ## Surfaces from either side -/

namespace TextTools

variable (tools : TextTools)

def surfacePairs (left right : ResolutionRecord) : List (String × String) :=
  (tools.normalizedSurfaces left).flatMap fun a =>
    ((tools.normalizedSurfaces right).filter fun b =>
      ¬(a = tools.normalizeName left.name ∧ b = tools.normalizeName right.name)).map fun b => (a, b)

def SharedSurface (left right : ResolutionRecord) : Prop :=
  ∃ s ∈ tools.normalizedSurfaces left, s ∈ tools.normalizedSurfaces right ∧
    ¬(tools.normalizeName left.name = tools.normalizeName right.name ∧
      s = tools.normalizeName left.name)

instance : Decidable (tools.SharedSurface left right) :=
  inferInstanceAs (Decidable (∃ s ∈ tools.normalizedSurfaces left, _ ∧ _))

def evidence (left right : ResolutionRecord) : Option ℚ :=
  if (tools.bestSurface left right).1 < reviewThreshold then none
  else some (tools.bestSurface left right).1

def SameEvidence (left right : ResolutionRecord) : Prop :=
  (left.aliases.isEmpty ∧ right.aliases.isEmpty) ∨ tools.SharedSurface left right ∨
    tools.evidence left right = tools.evidence right left

variable {tools}

theorem nodup_normalizedSurfaces (r : ResolutionRecord) : (tools.normalizedSurfaces r).Nodup :=
  (sorted_perm _).nodup_iff.mpr (List.nodup_dedup _)

theorem sharedSurface_comm : tools.SharedSurface left right ↔ tools.SharedSurface right left := by
  have key : ∀ {l r : ResolutionRecord}, tools.SharedSurface l r → tools.SharedSurface r l := by
    rintro l r ⟨s, hl, hr, hs⟩
    refine ⟨s, hr, hl, fun h => hs ⟨h.1.symm, h.2.trans h.1⟩⟩
  exact ⟨key, key⟩

theorem filter_product {α β : Type*} (l : List α) (l' : List β) (p : α × β → Bool) :
    (l ×ˢ l').filter p = l.flatMap fun a => (l'.filter fun b => p (a, b)).map (Prod.mk a) := by
  have hproduct : l ×ˢ l' = l.flatMap fun a => l'.map (Prod.mk a) := rfl
  rw [hproduct, List.filter_flatMap]
  refine List.flatMap_congr fun a _ => ?_
  rw [List.filter_map]
  rfl

theorem surfacePairs_eq : tools.surfacePairs left right =
    (tools.normalizedSurfaces left ×ˢ tools.normalizedSurfaces right).filter fun p =>
      ¬(p.1 = tools.normalizeName left.name ∧ p.2 = tools.normalizeName right.name) := by
  rw [filter_product]
  rfl

theorem surfacePairs_swap :
    (tools.surfacePairs right left).Perm ((tools.surfacePairs left right).map Prod.swap) := by
  have hnodup : ∀ l r, (tools.surfacePairs l r).Nodup := by
    intro l r
    rw [surfacePairs_eq]
    exact ((nodup_normalizedSurfaces l).product (nodup_normalizedSurfaces r)).filter _
  refine (List.perm_ext_iff_of_nodup (hnodup right left)
    ((hnodup left right).map Prod.swap_injective)).mpr fun p => ?_
  obtain ⟨b, a⟩ := p
  have hswap : Prod.swap (a, b) ∈ (tools.surfacePairs left right).map Prod.swap ↔
      (a, b) ∈ tools.surfacePairs left right :=
    List.mem_map_of_injective Prod.swap_injective
  refine Iff.trans ?_ hswap.symm
  rw [surfacePairs_eq, surfacePairs_eq, List.mem_filter, List.mem_filter, List.mem_product,
    List.mem_product, and_comm (a := b ∈ _)]
  simp only [and_comm (a := b = _)]

theorem bestSurface_eq : tools.bestSurface left right =
    (((tools.surfacePairs left right).take maxAliasComparisons).foldl
        (fun best p => max best ((tools.nameSimilarity p.1 p.2).getD 0)) 0,
      ((tools.surfacePairs left right).take maxAliasComparisons).length) := rfl

theorem evidence_of_nil (h : tools.surfacePairs left right = []) :
    tools.evidence left right = none := by
  have hbest : (tools.bestSurface left right).1 < reviewThreshold := by
    have hthreshold : (0 : ℚ) < reviewThreshold := by norm_num [reviewThreshold]
    rw [bestSurface_eq, h]
    exact hthreshold
  unfold evidence
  rw [if_pos hbest]

theorem evidence_comm (htools : tools.Symmetric)
    (h : (tools.surfacePairs left right).length ≤ maxAliasComparisons) :
    tools.evidence left right = tools.evidence right left := by
  have hswap : (tools.surfacePairs right left).Perm
      ((tools.surfacePairs left right).map Prod.swap) := surfacePairs_swap
  have hlength : (tools.surfacePairs right left).length ≤ maxAliasComparisons := by
    rw [hswap.length_eq, List.length_map]
    exact h
  have hbest : (tools.bestSurface left right).1 = (tools.bestSurface right left).1 := by
    rw [bestSurface_eq, bestSurface_eq, List.take_of_length_le h, List.take_of_length_le hlength]
    dsimp only
    have hcomm : RightCommutative fun (best : ℚ) (p : String × String) =>
        max best ((tools.nameSimilarity p.1 p.2).getD 0) :=
      ⟨fun best p q => max_right_comm best _ _⟩
    rw [hswap.foldl_eq, List.foldl_map]
    congr 1
    funext best p
    rw [nameSimilarity_comm htools]
    rfl
  unfold evidence
  rw [hbest]

theorem aliasFeature_spec :
    ((tools.aliasFeature left right).value =
      if left.aliases.isEmpty ∧ right.aliases.isEmpty then none
      else if tools.SharedSurface left right then some 1
      else tools.evidence left right) ∧
    ((tools.aliasFeature left right).detail matches .exactSurface _ ↔
      ¬(left.aliases.isEmpty ∧ right.aliases.isEmpty) ∧ tools.SharedSurface left right) := by
  let shared := ((tools.normalizedSurfaces left).filter
    (· ∈ tools.normalizedSurfaces right)).filter fun s =>
      ¬(tools.normalizeName left.name = tools.normalizeName right.name ∧
        s = tools.normalizeName left.name)
  have hmem : ∀ s, s ∈ shared ↔ s ∈ tools.normalizedSurfaces left ∧
      s ∈ tools.normalizedSurfaces right ∧
        ¬(tools.normalizeName left.name = tools.normalizeName right.name ∧
          s = tools.normalizeName left.name) := by
    intro s
    rw [List.mem_filter, List.mem_filter, decide_eq_true_eq, decide_eq_true_eq, and_assoc]
  have hshared : tools.SharedSurface left right ↔ shared ≠ [] := by
    constructor
    · rintro ⟨s, hs⟩
      exact List.ne_nil_of_mem ((hmem s).mpr hs)
    · intro h
      obtain ⟨s, hs⟩ := List.exists_mem_of_ne_nil _ h
      exact ⟨s, (hmem s).mp hs⟩
  unfold aliasFeature
  dsimp only
  by_cases hdeclared : left.aliases.isEmpty ∧ right.aliases.isEmpty
  · rw [if_pos hdeclared, if_pos hdeclared]
    exact ⟨rfl, iff_of_false Bool.false_ne_true fun h => h.1 hdeclared⟩
  rw [if_neg hdeclared, if_neg hdeclared]
  by_cases hempty : (tools.normalizedSurfaces left).isEmpty ∨
      (tools.normalizedSurfaces right).isEmpty
  · have hpairs : tools.surfacePairs left right = [] := by
      rw [List.isEmpty_iff, List.isEmpty_iff] at hempty
      rw [surfacePairs_eq]
      rcases hempty with h | h
      · rw [h, List.nil_product, List.filter_nil]
      · rw [h, List.product_nil, List.filter_nil]
    have hnone : ¬tools.SharedSurface left right := by
      rw [List.isEmpty_iff, List.isEmpty_iff] at hempty
      rintro ⟨s, hl, hr, _⟩
      rcases hempty with h | h
      · exact List.ne_nil_of_mem hl h
      · exact List.ne_nil_of_mem hr h
    rw [if_pos hempty, if_neg hnone, evidence_of_nil hpairs]
    exact ⟨rfl, iff_of_false Bool.false_ne_true fun h => hnone h.2⟩
  rw [if_neg hempty]
  split
  · rename_i hit rest hlist
    have hsome : tools.SharedSurface left right := hshared.mpr (by
      unfold shared
      rw [hlist]
      exact List.cons_ne_nil _ _)
    rw [if_pos hsome]
    exact ⟨rfl, iff_of_true rfl ⟨hdeclared, hsome⟩⟩
  · rename_i hlist
    have hnone : ¬tools.SharedSurface left right := fun h => hshared.mp h hlist
    have hinexact : ¬(¬(left.aliases.isEmpty ∧ right.aliases.isEmpty) ∧
        tools.SharedSurface left right) := fun h => hnone h.2
    rw [if_neg hnone]
    split_ifs with hcompared hbest
    · have hpairs : tools.surfacePairs left right = [] := by
        rw [bestSurface_eq, List.length_take] at hcompared
        have hcap : 0 < maxAliasComparisons := by decide
        exact List.length_eq_zero_iff.mp (by omega)
      exact ⟨(evidence_of_nil hpairs).symm, iff_of_false not_false hinexact⟩
    · have hevidence : tools.evidence left right = none := if_pos hbest
      exact ⟨hevidence.symm, iff_of_false not_false hinexact⟩
    · have hevidence : tools.evidence left right = some (tools.bestSurface left right).1 :=
        if_neg hbest
      exact ⟨hevidence.symm, iff_of_false not_false hinexact⟩

theorem aliasFeature_value_comm_iff :
    (tools.aliasFeature left right).value = (tools.aliasFeature right left).value ↔
      tools.SameEvidence left right := by
  rw [aliasFeature_spec.1, aliasFeature_spec.1]
  unfold SameEvidence
  simp only [and_comm (a := right.aliases.isEmpty = true)]
  by_cases hdeclared : left.aliases.isEmpty ∧ right.aliases.isEmpty
  · rw [if_pos hdeclared, if_pos hdeclared]
    exact iff_of_true rfl (.inl hdeclared)
  · rw [if_neg hdeclared, if_neg hdeclared, or_iff_right hdeclared]
    by_cases hshared : tools.SharedSurface left right
    · rw [if_pos hshared, if_pos (sharedSurface_comm.mp hshared)]
      exact iff_of_true rfl (.inl hshared)
    · rw [if_neg hshared, if_neg fun h => hshared (sharedSurface_comm.mp h), or_iff_right hshared]

end TextTools

/-! ## Rules from either side -/

theorem typeConflict_comm : typeConflict left right = typeConflict right left := by
  refine decide_eq_decide.mpr ⟨?_, ?_⟩
  · rintro ⟨hne, hl, hr⟩
    exact ⟨hne.symm, hr, hl⟩
  · rintro ⟨hne, hr, hl⟩
    exact ⟨hne.symm, hl, hr⟩

theorem strongKeys_comm : strongKeys left right = strongKeys right left := by
  refine sorted_congr (List.Perm.filter _ ?_)
  refine (List.perm_ext_iff_of_nodup (left.identifiers.nodup.filter _)
    (right.identifiers.nodup.filter _)).mpr fun key => ?_
  rw [List.mem_filter, List.mem_filter, decide_eq_true_eq, decide_eq_true_eq]
  exact and_comm

theorem identifierVerdict_comm : identifierVerdict left right = identifierVerdict right left := by
  have hconflict : identifierConflict left right = identifierConflict right left := by
    unfold identifierConflict
    rw [strongKeys_comm]
    congr 1
    funext key
    exact decide_eq_decide.mpr ne_comm
  unfold identifierVerdict
  rw [hconflict, strongKeys_comm]

theorem rule_of_conflict_inj {a b : EntityType}
    (h : "type_conflict:" ++ a.label ++ "!=" ++ b.label =
      "type_conflict:" ++ b.label ++ "!=" ++ a.label) : a = b := by
  -- no label contains the mark that ends the first label
  have hcut : ∀ (t : EntityType) (rest : List Char),
      (t.label.toList ++ ("!=".toList ++ rest)).takeWhile (· ≠ '!') = t.label.toList := by
    intro t rest
    have hlabel : ∀ c ∈ t.label.toList, decide (c ≠ '!') = true :=
      fun c hc => decide_eq_true fun heq => t.label_free (heq ▸ hc)
    have hmark : "!=".toList ++ rest = '!' :: '=' :: rest := rfl
    rw [List.takeWhile_append_of_pos hlabel, hmark, List.takeWhile_cons_of_neg (by decide),
      List.append_nil]
  have hlist := congrArg String.toList h
  simp only [String.toList_append, List.append_assoc, List.append_cancel_left_eq] at hlist
  have hlabels : a.label.toList = b.label.toList := by
    rw [← hcut a b.label.toList, hlist, hcut b a.label.toList]
  exact EntityType.label_injective (String.toList_injective hlabels)

namespace MatchModel

variable {model : MatchModel}

theorem exactAlias_iff : model.exactAlias left right ↔
    ¬(left.aliases.isEmpty ∧ right.aliases.isEmpty) ∧ model.tools.SharedSurface left right := by
  refine ⟨fun h => TextTools.aliasFeature_spec.2.mp h.2,
    fun h => ⟨?_, TextTools.aliasFeature_spec.2.mpr h⟩⟩
  rw [TextTools.aliasFeature_spec.1, if_neg h.1, if_pos h.2]

theorem exactAlias_comm : model.exactAlias left right ↔ model.exactAlias right left := by
  rw [exactAlias_iff, exactAlias_iff, TextTools.sharedSurface_comm,
    and_comm (a := left.aliases.isEmpty = true)]

theorem features_comm (htools : model.tools.Symmetric)
    (hsame : model.tools.SameEvidence left right) :
    (model.features left right).map (fun f => (f.name, f.value, f.weight)) =
      (model.features right left).map fun f => (f.name, f.value, f.weight) := by
  unfold features
  simp only [List.map_cons, List.map_nil, aliasFeature_labels, embeddingFeature_labels,
    nameSimilarity_comm htools left.name,
    TextTools.aliasFeature_value_comm_iff.mpr hsame, embeddingFeature_value_comm htools,
    contextFeature_comm left]

variable (model) in
theorem combine_congr {fs gs : List FeatureScore}
    (h : fs.map (fun f => (f.name, f.value, f.weight)) =
      gs.map fun f => (f.name, f.value, f.weight)) : model.combine fs = model.combine gs := by
  have hmeasured : ∀ hs : List FeatureScore, model.measured hs =
      (hs.map fun f => (f.name, f.value, f.weight)).filterMap fun e =>
        e.2.1.map fun v => (model.weightOf ⟨e.1, e.2.1, e.2.2, .blended⟩, v) := by
    intro hs
    rw [List.filterMap_map]
    rfl
  rw [combine_eq, combine_eq, hmeasured, hmeasured, h]

variable (keys) in
theorem verdict_comm (htools : model.tools.Symmetric) (htype : ¬typeConflict left right)
    (hident : identifierVerdict left right = none)
    (hcombine : model.combine (model.features left right) =
      model.combine (model.features right left)) :
    (model.compute left right keys).decision = (model.compute right left keys).decision ∧
      (model.compute left right keys).appliedRule = (model.compute right left keys).appliedRule := by
  have htype' : ¬typeConflict right left := by rwa [typeConflict_comm]
  have hident' : identifierVerdict right left = none := by rwa [identifierVerdict_comm]
  have hname := nameSimilarity_comm htools left.name right.name
  have hexact : model.exactAlias left right ↔ model.exactAlias right left := exactAlias_comm
  unfold features at hcombine
  unfold compute
  rw [if_neg htype, if_neg htype', hident, hident']
  rw [hcombine]
  cases model.combine _ with
  | none => exact ⟨rfl, rfl⟩
  | some c =>
    dsimp only
    cases model.band c with
    | review => exact ⟨rfl, rfl⟩
    | merge =>
      dsimp only
      rw [hname]
      split_ifs with hl hr hr
      · exact ⟨rfl, rfl⟩
      · exact absurd ⟨hl.1, fun h => hl.2.1 (hexact.mpr h), hl.2.2⟩ hr
      · exact absurd ⟨hr.1, fun h => hr.2.1 (hexact.mp h), hr.2.2⟩ hl
      · exact ⟨rfl, rfl⟩
    | distinct =>
      dsimp only
      split_ifs with hl hr hr
      · exact ⟨rfl, rfl⟩
      · exact absurd (hexact.mp hl) hr
      · exact absurd (hexact.mpr hr) hl
      · exact ⟨rfl, rfl⟩

end MatchModel

structure MatchScore.Agrees (s t : MatchScore) : Prop where
  combined : s.combined = t.combined
  decision : s.decision = t.decision
  appliedRule : s.appliedRule = t.appliedRule
  values : (s.features.map fun f => (f.name, f.value, f.weight)) =
    t.features.map fun f => (f.name, f.value, f.weight)

namespace MatchModel

variable {model : MatchModel}

theorem agrees_of_sameEvidence (htools : model.tools.Symmetric)
    (htype : ¬typeConflict left right) (hsame : model.tools.SameEvidence left right) :
    (model.compute left right keys).Agrees (model.compute right left keys) := by
  have htype' : ¬typeConflict right left := by rwa [typeConflict_comm]
  have hfeatures := features_comm htools hsame
  have hvalues : ((model.compute left right keys).features.map
      fun f => (f.name, f.value, f.weight)) =
      (model.compute right left keys).features.map fun f => (f.name, f.value, f.weight) := by
    rw [compute_features, compute_features]
    exact hfeatures
  cases hident : identifierVerdict left right with
  | none =>
    have hident' : identifierVerdict right left = none := by rwa [identifierVerdict_comm]
    have hcombine := combine_congr model hfeatures
    obtain ⟨hdecision, hrule⟩ := verdict_comm keys htools htype hident hcombine
    refine ⟨?_, hdecision, hrule, hvalues⟩
    rw [combined_of_comparable htype hident, combined_of_comparable htype' hident', hcombine]
  | some verdict =>
    have hident' : identifierVerdict right left = some verdict := by rwa [identifierVerdict_comm]
    refine ⟨?_, ?_, ?_, hvalues⟩ <;>
    · unfold compute
      rw [if_neg htype, if_neg htype', hident, hident']
      obtain ⟨_ | _, rule⟩ := verdict <;> rfl

/-- **A pair scores the same from either side** exactly when the types do not conflict and the alias
evidence that is compared is the same; then the shared memo entry is right for both. -/
theorem compute_agrees_iff (model : MatchModel) (htools : model.tools.Symmetric)
    (left right : ResolutionRecord) (keys : List BlockingKey) :
    ((model.compute left right keys).Agrees (model.compute right left keys) ↔
      ¬typeConflict left right ∧ model.tools.SameEvidence left right) ∧
    (((model.scorer.score left right keys).2.score right left keys).1.Agrees
        (model.compute right left keys) ↔
      ¬typeConflict left right ∧ model.tools.SameEvidence left right) := by
  have hmemo : ((model.scorer.score left right keys).2.score right left keys).1 =
      model.compute left right keys := by
    unfold MatchScorer.score MatchScorer.verdict
    rw [pairKey_comm right.id, Dict.get?_alter, if_pos rfl]
    rfl
  have hiff : (model.compute left right keys).Agrees (model.compute right left keys) ↔
      ¬typeConflict left right ∧ model.tools.SameEvidence left right := by
    refine ⟨fun h => ⟨fun htype => ?_, ?_⟩, fun h => agrees_of_sameEvidence htools h.1 h.2⟩
    · have htype' : typeConflict right left := by rwa [typeConflict_comm]
      have hrule := h.appliedRule
      unfold compute at hrule
      rw [if_pos htype, if_pos htype'] at hrule
      have heq : left.type = right.type := rule_of_conflict_inj (Option.some.inj hrule)
      exact (of_decide_eq_true htype).1 heq
    · have hvalues := h.values
      rw [compute_features, compute_features] at hvalues
      unfold features at hvalues
      simp only [List.map_cons, List.cons.injEq, Prod.mk.injEq] at hvalues
      exact TextTools.aliasFeature_value_comm_iff.mp hvalues.2.1.2.1
  rw [hmemo]
  exact ⟨hiff, hiff⟩

/-! ## Two records with many aliases -/

def loom (a b : String) : Bool :=
  (a = "loom tv" ∧ b = "loom tv engineers") ∨ (a = "loom tv engineers" ∧ b = "loom tv")

def rootOf (q : ℚ) : ℚ := Nat.sqrt q.num.toNat / Nat.sqrt q.den

def loomTools : TextTools where
  normalizeName s := s
  nameTokens s :=
    if s = "loom tv" then ["loom", "tv"]
    else if s = "loom tv engineers" then ["loom", "tv", "engineers"] else [s]
  phoneticCode _ := ""
  lshKeys _ := []
  ratio a b := if a = b then 100 else 0
  tokenSetRatio a b := if loom a b then 100 else 0
  tokenSortRatio a b := if loom a b then 175 / 3 else 0
  jaroWinkler a b := if loom a b then 15 / 17 else 0
  cosineSimilarity := Resolution.cosineSimilarity rootOf

def known (id : String) (aliases : List String) : ResolutionRecord where
  id := id
  type := .company
  name := "360"
  aliases := aliases
  identifiers := .empty
  embedding := none
  context := ∅
  firstSeen := none
  lastSeen := none
  mentionCount := 1
  mergedFrom := []

def loomLeft : ResolutionRecord := known "a" ["b", "bb", "bc", "c", "cb", "cc", "d", "loom tv"]

def loomRight : ResolutionRecord :=
  known "b" ["loom tv engineers", "w", "ww", "wx", "x", "xw", "xx", "y"]

theorem loomTools_symmetric : loomTools.Symmetric := by
  have hloom : ∀ a b, loom a b = loom b a := by
    intro a b
    exact decide_eq_decide.mpr ⟨fun h => h.symm.imp And.symm And.symm,
      fun h => h.symm.imp And.symm And.symm⟩
  refine ⟨fun a b => ?_, fun a b => ?_, fun a b => ?_, fun a b => ?_, rootOf, rfl⟩
  · change (if a = b then (100 : ℚ) else 0) = if b = a then 100 else 0
    simp only [eq_comm (a := a)]
  · exact congrArg (fun same : Bool => if same then (100 : ℚ) else 0) (hloom a b)
  · exact congrArg (fun same : Bool => if same then (175 / 3 : ℚ) else 0) (hloom a b)
  · exact congrArg (fun same : Bool => if same then (15 / 17 : ℚ) else 0) (hloom a b)

theorem evidence_few :
    loomTools.evidence (known "a" ["b"]) (known "b" ["w"]) =
      loomTools.evidence (known "b" ["w"]) (known "a" ["b"]) :=
  TextTools.evidence_comm loomTools_symmetric (by decide)

/-- Few enough surfaces are compared whole. -/
theorem few_surfaces_agree :
    ((standard loomTools).compute (known "a" ["b"]) (known "b" ["w"]) []).Agrees
      ((standard loomTools).compute (known "b" ["w"]) (known "a" ["b"]) []) :=
  ((compute_agrees_iff (standard loomTools) loomTools_symmetric (known "a" ["b"])
    (known "b" ["w"]) []).1).mpr ⟨by decide, .inr (.inr (by decide +kernel))⟩

/-- The one telling pair is within the first comparisons from the right only: the records merge
from the left and go to review from the right. -/
theorem telling_pair_cut :
    typeConflict loomLeft loomRight = false ∧
      ((standard loomTools).compute loomLeft loomRight []).decision = .merge ∧
      ((standard loomTools).compute loomRight loomLeft []).decision = .review ∧
      ¬((standard loomTools).compute loomLeft loomRight []).Agrees
        ((standard loomTools).compute loomRight loomLeft []) := by
  have hdecisions : ((standard loomTools).compute loomLeft loomRight []).decision = .merge ∧
      ((standard loomTools).compute loomRight loomLeft []).decision = .review := by
    decide +kernel
  refine ⟨rfl, hdecisions.1, hdecisions.2, fun h => ?_⟩
  have heq := hdecisions.1.symm.trans (h.decision.trans hdecisions.2)
  cases heq

end MatchModel

end OmniSense.Resolution
