import Mathlib.Data.Finset.Lattice.Basic
import OmniSense.Resolution.Blocking

/-! `MatchScorer`: hard rules, then features, then banding, and a memo over pairs of ids. Scores
are exact rationals. -/

namespace OmniSense.Resolution

open Library

inductive MatchDecision
  | merge | review | distinct
  deriving DecidableEq

/-- The `detail` of a feature. -/
inductive Detail
  | blended
  | neitherAliased | noSurfaces | noSurfacePair
  | exactSurface (hit : String)
  | noEvidence (best : ℚ) (comparisons : ℕ)
  | bestOf (comparisons : ℕ)
  | vectorMissing | zeroVector | cosine
  | dimensionMismatch (left right : ℕ)
  | contextEmpty | contextDisjoint
  | contextShared (shared all : ℕ)
  deriving DecidableEq

structure FeatureScore where
  name : String
  value : Option ℚ
  weight : ℚ
  detail : Detail
  deriving DecidableEq

structure MatchScore where
  leftId : String
  rightId : String
  combined : ℚ
  decision : MatchDecision
  features : List FeatureScore
  appliedRule : Option String
  deriving DecidableEq

/-! ## Features -/

structure MatchWeights where
  name : ℚ
  alias_ : ℚ
  embedding : ℚ
  context : ℚ

def matchWeights : MatchWeights := ⟨35 / 100, 20 / 100, 25 / 100, 20 / 100⟩

def tokenMatchRatio : ℚ := 85
def extraTokenPenalty : ℚ := 1 / 2
def autoMergeThreshold : ℚ := 92 / 100
def reviewThreshold : ℚ := 75 / 100
def nameEvidenceFloor : ℚ := 55 / 100
def maxAliasComparisons : ℕ := 64

def clampUnit (q : ℚ) : ℚ := max 0 (min 1 q)

namespace TextTools

variable (tools : TextTools)

def tokenCoverage (left right : List String) : ℚ :=
  if left.isEmpty ∨ right.isEmpty then 0
  else
    let covered := fun (source target : List String) => source.countP fun token =>
      target.any fun other => tokenMatchRatio ≤ tools.ratio token other
    ((covered left right + covered right left : ℕ) : ℚ) / (left.length + right.length : ℕ)

def nameSimilarity (left right : String) : Option ℚ :=
  let leftNorm := tools.normalizeName left
  let rightNorm := tools.normalizeName right
  if leftNorm = "" ∨ rightNorm = "" then none
  else if leftNorm = rightNorm then some 1
  else
    let coverage := tools.tokenCoverage (tools.nameTokens left) (tools.nameTokens right)
    let blend := 40 / 100 * tools.tokenSetRatio leftNorm rightNorm / 100 +
      25 / 100 * tools.tokenSortRatio leftNorm rightNorm / 100 +
      15 / 100 * tools.jaroWinkler leftNorm rightNorm + 20 / 100 * coverage
    some (clampUnit (blend * (1 - extraTokenPenalty * (1 - coverage))))

/-- `sorted(record.normalized_surfaces())`. -/
def normalizedSurfaces (r : ResolutionRecord) : List String :=
  sorted (((r.name :: r.aliases).filter fun s => strip s ≠ "").map
    tools.normalizeName).dedup

variable (left right : ResolutionRecord)

def bestSurface : ℚ × ℕ :=
  let pairs := (tools.normalizedSurfaces left).flatMap fun a =>
    ((tools.normalizedSurfaces right).filter fun b =>
      ¬(a = tools.normalizeName left.name ∧ b = tools.normalizeName right.name)).map fun b => (a, b)
  let compared := pairs.take maxAliasComparisons
  (compared.foldl (fun best p => max best ((tools.nameSimilarity p.1 p.2).getD 0)) 0,
    compared.length)

def aliasFeature : FeatureScore :=
  let score := fun value detail => FeatureScore.mk "alias" value matchWeights.alias_ detail
  let leftSurfaces := tools.normalizedSurfaces left
  let rightSurfaces := tools.normalizedSurfaces right
  let shared := (leftSurfaces.filter (· ∈ rightSurfaces)).filter fun s =>
    ¬(tools.normalizeName left.name = tools.normalizeName right.name ∧
      s = tools.normalizeName left.name)
  let (best, comparisons) := tools.bestSurface left right
  if left.aliases.isEmpty ∧ right.aliases.isEmpty then score none .neitherAliased
  else if leftSurfaces.isEmpty ∨ rightSurfaces.isEmpty then score none .noSurfaces
  else
    match shared with
    | hit :: _ => score (some 1) (.exactSurface hit)
    | [] =>
      if comparisons = 0 then score none .noSurfacePair
      else if best < reviewThreshold then score none (.noEvidence best comparisons)
      else score (some best) (.bestOf comparisons)

def embeddingFeature : FeatureScore :=
  let score := fun value detail => FeatureScore.mk "embedding" value matchWeights.embedding detail
  match left.embedding, right.embedding with
  | some l, some r =>
    if l.length ≠ r.length then score none (.dimensionMismatch l.length r.length)
    else
      match tools.cosineSimilarity l r with
      | none => score none .zeroVector
      | some c => score (some (clampUnit c)) .cosine
  | _, _ => score none .vectorMissing

end TextTools

variable (left right : ResolutionRecord)

def contextFeature : FeatureScore :=
  let score := fun value detail => FeatureScore.mk "context" value matchWeights.context detail
  let shared := (left.context ∩ right.context).card
  let all := (left.context ∪ right.context).card
  if left.context = ∅ ∨ right.context = ∅ then score none .contextEmpty
  else if shared = 0 then score none .contextDisjoint
  else score (some ((shared : ℚ) / (all : ℚ))) (.contextShared shared all)

/-! ## Hard rules -/

/-- `_type_conflict`: `UNKNOWN` is a wildcard. -/
def typeConflict : Bool :=
  left.type ≠ right.type ∧ left.type ≠ .unknown ∧ right.type ≠ .unknown

def strongKeys : List String :=
  sorted ((left.identifiers.keys.filter (· ∈ right.identifiers.keys)).filter fun key =>
    !key.startsWith "handle:")

def identifierConflict : Option String :=
  (strongKeys left right).find? fun key => left.identifiers.get? key ≠ right.identifiers.get? key

/-- `_identifier_verdict`: conflict is checked before agreement. -/
def identifierVerdict : Option (Bool × String) :=
  match identifierConflict left right with
  | some key => some (false, "identifier_conflict:" ++ key)
  | none => (strongKeys left right).head?.map fun key => (true, "identifier_match:" ++ key)

/-! ## Scoring -/

/-- What a `MatchScorer` is constructed with. -/
structure MatchModel where
  weights : MatchWeights
  autoMerge : ℚ
  review : ℚ
  review_le : review ≤ autoMerge
  tools : TextTools

namespace MatchModel

variable (model : MatchModel)

def weightOf (feature : FeatureScore) : ℚ :=
  match feature.name with
  | "name" => model.weights.name
  | "alias" => model.weights.alias_
  | "embedding" => model.weights.embedding
  | "context" => model.weights.context
  | _ => feature.weight

/-- `_combine`: the mean over the features there are, `none` when there are none. -/
def combine (features : List FeatureScore) : Option ℚ :=
  let numerator := (features.map fun f => f.value.elim 0 (model.weightOf f * ·)).sum
  let denominator := (features.map fun f => f.value.elim 0 fun _ => model.weightOf f).sum
  if denominator ≤ 0 then none else some (numerator / denominator)

def band (combined : ℚ) : MatchDecision :=
  if model.autoMerge ≤ combined then .merge
  else if model.review ≤ combined then .review
  else .distinct

def compute (left right : ResolutionRecord) (sharedKeys : List BlockingKey) : MatchScore :=
  let nameValue := model.tools.nameSimilarity left.name right.name
  let aliasScore := model.tools.aliasFeature left right
  let features :=
    [⟨"name", nameValue, model.weights.name, .blended⟩, aliasScore,
      model.tools.embeddingFeature left right, contextFeature left right]
  let verdict := fun combined decision rule =>
    MatchScore.mk left.id right.id combined decision features rule
  if typeConflict left right then
    verdict 0 .distinct (some ("type_conflict:" ++ left.type.label ++ "!=" ++ right.type.label))
  else
    match identifierVerdict left right with
    | some (true, rule) => verdict 1 .merge (some rule)
    | some (false, rule) => verdict 0 .distinct (some rule)
    | none =>
      match model.combine features with
      | none => verdict 0 .distinct (some "no_comparable_features")
      | some combined =>
        let exactAlias := aliasScore.value = some 1 ∧ aliasScore.detail matches .exactSurface _
        let sharedHandle := sharedKeys.any fun key =>
          key.kind = .identifier ∧ key.value.startsWith "handle:"
        match model.band combined with
        | .merge =>
          if nameValue.all (· < nameEvidenceFloor) ∧ ¬exactAlias ∧ ¬sharedHandle then
            verdict combined .review (some "name_evidence_floor")
          else verdict combined .merge none
        | .distinct =>
          if exactAlias then verdict combined .review (some "exact_alias_hit")
          else verdict combined .distinct none
        | .review => verdict combined .review none

end MatchModel

structure MatchScorer where
  compute : ResolutionRecord → ResolutionRecord → List BlockingKey → MatchScore
  memo : Dict Pair MatchScore

namespace MatchScorer

variable (scorer : MatchScorer)

def verdict (left right : ResolutionRecord) (keys : List BlockingKey) :
    MatchScore :=
  (scorer.memo.get? (pairKey left.id right.id)).getD (scorer.compute left right keys)

def score (left right : ResolutionRecord) (keys : List BlockingKey) :
    MatchScore × MatchScorer :=
  let verdict := scorer.verdict left right keys
  (verdict, { scorer with memo := scorer.memo.alter (pairKey left.id right.id) fun _ => verdict })

def comparisons : ℕ := scorer.memo.items.length

end MatchScorer

/-- `MatchScorer()`. -/
def MatchModel.standard (tools : TextTools) : MatchModel :=
  ⟨matchWeights, autoMergeThreshold, reviewThreshold, by decide +kernel, tools⟩

def MatchModel.scorer (model : MatchModel) : MatchScorer := ⟨model.compute, .empty⟩

/-! ## Separated pairs -/

def HardSeparated : Prop :=
  (left.type ≠ right.type ∧ left.type ≠ .unknown ∧ right.type ≠ .unknown) ∨
    ∃ key a b, ¬key.startsWith "handle:" ∧ left.identifiers.get? key = some a ∧
      right.identifiers.get? key = some b ∧ a ≠ b

theorem mem_strongKeys {left right : ResolutionRecord} {key : String} :
    key ∈ strongKeys left right ↔ ¬key.startsWith "handle:" ∧
      ∃ a b, left.identifiers.get? key = some a ∧ right.identifiers.get? key = some b := by
  unfold strongKeys
  rw [mem_sorted, List.mem_filter, List.mem_filter, decide_eq_true_eq, Dict.mem_keys, Dict.mem_keys,
    Option.isSome_iff_exists, Option.isSome_iff_exists]
  constructor
  · rintro ⟨⟨⟨a, ha⟩, b, hb⟩, hkey⟩
    exact ⟨by simpa using hkey, a, b, ha, hb⟩
  · rintro ⟨hkey, a, b, ha, hb⟩
    exact ⟨⟨⟨a, ha⟩, b, hb⟩, by simpa using hkey⟩

theorem hardSeparated_iff {left right : ResolutionRecord} :
    HardSeparated left right ↔
      typeConflict left right ∨ (identifierConflict left right).isSome := by
  have hconflict : (identifierConflict left right).isSome ↔
      ∃ key a b, ¬key.startsWith "handle:" ∧ left.identifiers.get? key = some a ∧
        right.identifiers.get? key = some b ∧ a ≠ b := by
    unfold identifierConflict
    rw [List.find?_isSome]
    constructor
    · rintro ⟨key, hmem, hne⟩
      obtain ⟨hkey, a, b, ha, hb⟩ := mem_strongKeys.mp hmem
      refine ⟨key, a, b, hkey, ha, hb, fun hab => ?_⟩
      exact of_decide_eq_true hne (ha.trans (hab ▸ hb.symm))
    · rintro ⟨key, a, b, hkey, ha, hb, hab⟩
      refine ⟨key, mem_strongKeys.mpr ⟨hkey, a, b, ha, hb⟩, decide_eq_true ?_⟩
      rw [ha, hb]
      exact fun h => hab (Option.some.inj h)
  unfold HardSeparated typeConflict
  rw [hconflict, decide_eq_true_eq]

def MatchScorer.RespectsRules (scorer : MatchScorer) : Prop :=
  ∀ left right keys, HardSeparated left right →
    (scorer.verdict left right keys).combined = 0 ∧
      (scorer.verdict left right keys).decision = .distinct

theorem MatchModel.scorer_respectsRules (model : MatchModel) : model.scorer.RespectsRules := by
  intro left right keys hsep
  have hverdict : model.scorer.verdict left right keys = model.compute left right keys := rfl
  rw [hverdict]
  unfold compute
  rcases hardSeparated_iff.mp hsep with htype | hident
  · rw [if_pos htype]
    exact ⟨rfl, rfl⟩
  · obtain ⟨key, hkey⟩ := Option.isSome_iff_exists.mp hident
    have hident : identifierVerdict left right =
        some (false, "identifier_conflict:" ++ key) := by
      unfold identifierVerdict
      rw [hkey]
    split_ifs
    · exact ⟨rfl, rfl⟩
    · rw [hident]
      exact ⟨rfl, rfl⟩

end OmniSense.Resolution
