import Mathlib.Data.Finset.Lattice.Fold
import Mathlib.Data.List.MinMax
import OmniSense.Library.Effect
import OmniSense.Resolution.Clustering
import OmniSense.Resolution.Matcher

/-! `resolve`: candidate pairs are scored, accepted pairs joined, components refined, and each
cluster merged into its survivor. Nothing is written; the result is a plan. -/

namespace OmniSense.Resolution

open Library

/-! ## The plan -/

/-- `MatchScore.as_dict`. -/
structure ScoreRow where
  leftId : String
  rightId : String
  combined : ℚ
  decision : MatchDecision
  appliedRule : Option String
  features : Dict String (Option ℚ)

def MatchScore.asDict (score : MatchScore) : ScoreRow where
  leftId := score.leftId
  rightId := score.rightId
  combined := roundTo 6 score.combined
  decision := score.decision
  appliedRule := score.appliedRule
  features := .ofList (score.features.map fun f => (f.name, f.value.map (roundTo 6)))

/-- The `score` of an edge: the verdict on its pair, or the weakest link of its cluster. -/
inductive EdgeScore
  | scored (row : ScoreRow)
  | linkedTransitively (combined : ℚ)

structure SameAsEdge where
  fromId : String
  toId : String
  mergeId : String
  confidence : ℚ
  observedAt : ℤ
  score : EdgeScore
  decidedBy : String

structure MergeRecord where
  id : String
  canonicalId : String
  absorbedIds : List String
  snapshots : List ResolutionRecord
  scores : List MatchScore
  confidence : ℚ
  decidedBy : String
  decidedAt : ℤ

structure ReviewItem where
  leftId : String
  rightId : String
  score : MatchScore
  reason : String

def ReviewItem.pair (item : ReviewItem) : Pair := pairKey item.leftId item.rightId

structure ResolvedCluster where
  survivorId : String
  memberIds : List String
  canonical : ResolutionRecord
  weakestLink : Option ℚ
  merge : Option MergeRecord

structure ResolutionResult where
  clusters : List ResolvedCluster
  merges : List MergeRecord
  sameAsEdges : List SameAsEdge
  reviewItems : List ReviewItem
  blocking : BlockingStats
  comparisons : ℕ
  unrefinedComponents : List (List String)

inductive ResolveError
  | duplicateId (id : String)
  | emptyCluster
  deriving DecidableEq

/-! ## Merging -/

/-- Smaller wins; a record that was never seen comes last. Instants and counts compare as
rationals. -/
def survivorSortKey (r : ResolutionRecord) : ℕ ×ₗ ℚ ×ₗ ℚ ×ₗ String :=
  let rest := toLex (-(r.mentionCount : ℚ), r.id)
  match r.firstSeen with
  | none => toLex (1, toLex (0, rest))
  | some seen => toLex (0, toLex ((seen : ℚ), rest))

/-- `none` is the `ValueError` of an empty cluster. -/
def electSurvivor (records : List ResolutionRecord) : Option ResolutionRecord :=
  records.argmin survivorSortKey

/-- The first of the absorbed records, by id, that has what `f` looks for. -/
def firstById {β : Type} (absorbed : List ResolutionRecord) (f : ResolutionRecord → Option β) :
    Option β :=
  (sortedBy ResolutionRecord.id absorbed).findSome? f

def mergeInto (survivor : ResolutionRecord) (absorbed : List ResolutionRecord) :
    ResolutionRecord :=
  let members := survivor :: absorbed
  let survivingSurface := strip survivor.name
  let surfaces := (members.flatMap fun m => m.name :: m.aliases).filter fun surface =>
    strip surface ≠ "" ∧ strip surface ≠ survivingSurface
  let inherited := absorbed.map ResolutionRecord.id ++ members.flatMap ResolutionRecord.mergedFrom
  { survivor with
    type := if survivor.type = .unknown then
        (firstById absorbed fun m => if m.type = .unknown then none else some m.type).getD .unknown
      else survivor.type
    aliases := sorted surfaces.dedup
    -- the survivor is applied last, so it wins
    identifiers := .ofList (members.reverse.flatMap fun m => m.identifiers.items)
    embedding := survivor.embedding.or (firstById absorbed ResolutionRecord.embedding)
    context := members.foldl (fun context m => context ∪ m.context) ∅
    firstSeen := (members.filterMap ResolutionRecord.firstSeen).min?
    lastSeen := (members.filterMap ResolutionRecord.lastSeen).max?
    mentionCount := (members.map ResolutionRecord.mentionCount).sum
    mergedFrom := sorted (inherited.dedup.filter (· ≠ survivor.id)) }

/-! ## The pass -/

/-- The arguments of `resolve` next to the records and the scorer, the clock, and what the standard
library computes. `keysOf` is `blocking_keys`. -/
structure ResolveOptions where
  index : Option BlockingIndex
  keysOf : ResolutionRecord → List BlockingKey
  mustLink : List Pair
  mustNotLink : List Pair
  decidedAt : Option ℤ
  utcnow : ℤ
  decidedBy : String
  minWithinClusterLinkage : ℚ
  maxBlockSize : Option ℕ
  sha256 : String → String
  isoformat : ℤ → String

namespace ResolveOptions

variable (options : ResolveOptions)

def decided : ℤ := options.decidedAt.getD options.utcnow

def forbidden : List Pair := options.mustNotLink.map fun p => pairKey p.1 p.2

def required : List Pair :=
  (options.mustLink.map fun p => pairKey p.1 p.2).dedup.filter (· ∉ options.forbidden)

def indexFor (ordered : List ResolutionRecord) : BlockingIndex :=
  options.index.getD ((BlockingIndex.new options.keysOf options.maxBlockSize).addAll ordered)

def mergeId (canonicalId : String) (memberIds : List String) : String :=
  let material :=
    "|".intercalate (canonicalId :: sorted memberIds ++ [options.isoformat options.decided])
  "mrg_" ++ String.ofList ((options.sha256 material).toList.take 32)

end ResolveOptions

structure ResolveContext where
  options : ResolveOptions
  index : BlockingIndex
  byId : Dict String ResolutionRecord

/-- The locals that `resolve` updates. -/
structure ResolvePass where
  scorer : MatchScorer
  similarity : Dict Pair ℚ
  accepted : List Pair
  review : List ReviewItem
  scoresByPair : Dict Pair MatchScore
  clusters : List ResolvedCluster
  merges : List MergeRecord
  edges : List SameAsEdge
  unrefined : List (List String)

def ResolvePass.start (scorer : MatchScorer) : ResolvePass :=
  ⟨scorer, .empty, [], [], .empty, [], [], [], []⟩

def reviewReason (score : MatchScore) : String :=
  match score.appliedRule with
  | none | some "" => "score_band"
  | some rule => rule

def splitReviewItems (pass : ResolvePass) (component : List String)
    (refined : List (List String)) : List ReviewItem :=
  (pairsOf component).filterMap fun ids =>
    let pair := pairKey ids.1 ids.2
    match pass.scoresByPair.get? pair with
    | none => none
    | some score =>
      if score.decision = .merge ∧ (owner refined).get? ids.1 ≠ (owner refined).get? ids.2 then
        some ⟨pair.1, pair.2, score, "split_by_linkage"⟩
      else none

def queueSplit (pass : ResolvePass) (component : List String) (refined : List (List String)) :
    ResolvePass :=
  if 1 < refined.length then
    { pass with review := pass.review ++ splitReviewItems pass component refined }
  else pass

namespace ResolveContext

variable (ctx : ResolveContext)

def acceptScored (pass : ResolvePass) (pair : Pair) (score : MatchScore) : ResolvePass :=
  if pair ∈ ctx.options.required ∨ score.decision = .merge then
    { pass with accepted := pass.accepted ++ [pair] }
  else if score.decision = .review then
    { pass with review := pass.review ++ [⟨pair.1, pair.2, score, reviewReason score⟩] }
  else pass

def scoreCandidate (pass : ResolvePass) (candidate : Pair) : ResolvePass :=
  let pair := pairKey candidate.1 candidate.2
  match ctx.byId.get? pair.1, ctx.byId.get? pair.2 with
  | some left, some right =>
    if pair ∈ ctx.options.forbidden then { pass with similarity := pass.similarity.set pair 0 }
    else
      let (score, scorer) := pass.scorer.score left right (ctx.index.sharedKeys pair.1 pair.2)
      ctx.acceptScored
        { pass with
          scorer := scorer
          scoresByPair := pass.scoresByPair.set pair score
          similarity := pass.similarity.set pair score.combined } pair score
  -- a pair of somebody else's batch
  | _, _ => pass

def linkRequired (pass : ResolvePass) (pair : Pair) : ResolvePass :=
  if (pass.similarity.get? pair).isSome ∨ ctx.byId.get? pair.1 = none ∨
      ctx.byId.get? pair.2 = none then pass
  else
    { pass with
      similarity := pass.similarity.set pair 1
      accepted := pass.accepted ++ [pair] }

/-- One round of `_score_missing_pairs`, for a pair of records of the batch. -/
def scoreMissingPair (pass : ResolvePass) (ids : Pair) : ResolvePass :=
  let pair := pairKey ids.1 ids.2
  if (pass.similarity.get? pair).isSome then pass
  else if pair ∈ ctx.options.forbidden then { pass with similarity := pass.similarity.set pair 0 }
  else
    match ctx.byId.get? ids.1, ctx.byId.get? ids.2 with
    | some left, some right =>
      let (score, scorer) := pass.scorer.score left right []
      { pass with scorer := scorer, similarity := pass.similarity.set pair score.combined }
    | _, _ => pass

def scoreMissingPairs (pass : ResolvePass) (component : List String) : ResolvePass :=
  (pairsOf component).foldl ctx.scoreMissingPair pass

/-- `_build_cluster`. The ids are those of records of the batch. -/
def buildCluster (pass : ResolvePass) (clusterIds : List String) :
    Except ResolveError (ResolvedCluster × Option MergeRecord × List SameAsEdge) :=
  let members := clusterIds.filterMap ctx.byId.get?
  match electSurvivor members with
  | none => .error .emptyCluster
  | some survivor =>
    let absorbed := sortedBy ResolutionRecord.id (members.filter fun r => r.id ≠ survivor.id)
    if absorbed = [] then .ok (⟨survivor.id, [survivor.id], survivor, none, none⟩, none, [])
    else
      let pairs := (pairsOf clusterIds).map fun p => pairKey p.1 p.2
      let weakest := ((pairs.map fun p => (pass.similarity.get? p).getD 0).min?).getD 0
      let memberIds := sorted clusterIds
      let mergeId := ctx.options.mergeId survivor.id memberIds
      let merge : MergeRecord :=
        { id := mergeId
          canonicalId := survivor.id
          absorbedIds := absorbed.map ResolutionRecord.id
          snapshots := sortedBy ResolutionRecord.id members
          scores := pairs.filterMap pass.scoresByPair.get?
          confidence := weakest
          decidedBy := ctx.options.decidedBy
          decidedAt := ctx.options.decided }
      let edges := absorbed.map fun record =>
        let pair := pairKey record.id survivor.id
        { fromId := record.id
          toId := survivor.id
          mergeId := mergeId
          confidence := (pass.similarity.get? pair).getD weakest
          observedAt := ctx.options.decided
          score := match pass.scoresByPair.get? pair with
            | some score => .scored score.asDict
            | none => .linkedTransitively weakest
          decidedBy := ctx.options.decidedBy }
      .ok (⟨survivor.id, memberIds, mergeInto survivor absorbed, some weakest, some merge⟩,
        some merge, edges)

def refine (pass : ResolvePass) (component : List String) : List (List String) × ResolvePass :=
  if maxRefinementComponent < component.length then
    ([component], { pass with unrefined := pass.unrefined ++ [component] })
  else
    let pass := ctx.scoreMissingPairs pass component
    (applyRequiredLinks
      (refineComponent pass.similarity ctx.options.minWithinClusterLinkage component)
      ctx.options.required, pass)

def emitCluster (pass : ResolvePass) (clusterIds : List String) :
    Except ResolveError ResolvePass := do
  let (cluster, merge, edges) ← ctx.buildCluster pass clusterIds
  return { pass with
    clusters := pass.clusters ++ [cluster]
    merges := pass.merges ++ merge.toList
    edges := pass.edges ++ edges }

def resolveComponent (pass : ResolvePass) (component : List String) :
    Except ResolveError ResolvePass := do
  let (refined, pass) := ctx.refine pass component
  let pass ← refined.foldlM ctx.emitCluster pass
  return queueSplit pass component refined

def collectPairs (scorer : MatchScorer) : ResolvePass :=
  let scored := ctx.index.candidatePairs.foldl ctx.scoreCandidate (.start scorer)
  (sortedBy (toLex : Pair → String ×ₗ String) ctx.options.required).foldl ctx.linkRequired scored

end ResolveContext

def reviewSortKey (item : ReviewItem) : (String ×ₗ String) ×ₗ String :=
  toLex (toLex item.pair, item.reason)

def dedupeReviews (items : List ReviewItem) : List ReviewItem :=
  let best := (sortedBy reviewSortKey items).foldl (fun (best : Dict Pair ReviewItem) item =>
    if (best.get? item.pair).isNone ∨ item.reason = "split_by_linkage" then best.set item.pair item
    else best) .empty
  (sortedBy (toLex : Pair → String ×ₗ String) best.keys).filterMap best.get?

def ResolveContext.finish (ctx : ResolveContext) (pass : ResolvePass) : ResolutionResult where
  clusters := sortedBy ResolvedCluster.survivorId pass.clusters
  merges := sortedBy MergeRecord.canonicalId pass.merges
  sameAsEdges := sortedBy (fun e => (toLex (e.toId, e.fromId) : String ×ₗ String)) pass.edges
  reviewItems := dedupeReviews (sortedBy reviewSortKey pass.review)
  blocking := ctx.index.stats
  comparisons := pass.scorer.comparisons
  unrefinedComponents := pass.unrefined

def indexById (ordered : List ResolutionRecord) :
    Except ResolveError (Dict String ResolutionRecord) :=
  ordered.foldlM (fun byId record =>
    if (byId.get? record.id).isSome then .error (.duplicateId record.id)
    else .ok (byId.set record.id record)) .empty

def resolve (options : ResolveOptions) (scorer : MatchScorer) (records : List ResolutionRecord) :
    Except ResolveError ResolutionResult := do
  let ordered := sortedBy ResolutionRecord.id records
  let byId ← indexById ordered
  let ctx : ResolveContext := ⟨options, options.indexFor ordered, byId⟩
  let pass := ctx.collectPairs scorer
  let pass ← (components byId.keys pass.accepted).foldlM ctx.resolveComponent pass
  return ctx.finish pass

end OmniSense.Resolution
