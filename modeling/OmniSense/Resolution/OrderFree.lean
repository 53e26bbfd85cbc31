import OmniSense.Resolution.IndexHistory
import OmniSense.Resolution.Separation

/-! `resolve` is a function of the set of its records: neither their order, nor that of the
overrides, nor how the index came to hold what it holds, reaches the result. -/

namespace OmniSense.Resolution

open Library List

/-! ## Contexts that read the same -/

structure Alike (ctx ctx' : ResolveContext) : Prop where
  byId : ctx.byId = ctx'.byId
  candidatePairs : ctx.index.candidatePairs = ctx'.index.candidatePairs
  sharedKeys : ctx.index.sharedKeys = ctx'.index.sharedKeys
  stats : ctx.index.stats = ctx'.index.stats
  required : ∀ p, p ∈ ctx.options.required ↔ p ∈ ctx'.options.required
  forbidden : ∀ p, p ∈ ctx.options.forbidden ↔ p ∈ ctx'.options.forbidden
  decided : ctx.options.decided = ctx'.options.decided
  decidedBy : ctx.options.decidedBy = ctx'.options.decidedBy
  minWithinClusterLinkage :
    ctx.options.minWithinClusterLinkage = ctx'.options.minWithinClusterLinkage
  mergeId : ctx.options.mergeId = ctx'.options.mergeId

variable {ctx ctx' : ResolveContext}

theorem nodup_required (options : ResolveOptions) : options.required.Nodup :=
  (nodup_dedup _).filter _

theorem Alike.required_perm (h : Alike ctx ctx') :
    ctx.options.required.Perm ctx'.options.required :=
  (perm_ext_iff_of_nodup (nodup_required _) (nodup_required _)).mpr h.required

theorem Alike.sorted_required (h : Alike ctx ctx') :
    sortedBy (toLex : Pair → String ×ₗ String) ctx.options.required =
      sortedBy (toLex : Pair → String ×ₗ String) ctx'.options.required :=
  sortedBy_congr ((nodup_required _).map toLex.injective) h.required_perm

theorem Alike.applyRequiredLinks (h : Alike ctx ctx') (refined : List (List String)) :
    applyRequiredLinks refined ctx.options.required =
      applyRequiredLinks refined ctx'.options.required := by
  have hspanned : spannedClusters refined ctx.options.required =
      spannedClusters refined ctx'.options.required := by
    unfold spannedClusters
    rw [h.sorted_required]
  have hnil : ctx.options.required = [] ↔ ctx'.options.required = [] := by
    rw [eq_nil_iff_forall_not_mem, eq_nil_iff_forall_not_mem]
    exact forall_congr' fun p => not_congr (h.required p)
  unfold Resolution.applyRequiredLinks
  rw [hspanned]
  exact if_congr hnil rfl rfl

section

variable (h : Alike ctx ctx') (pass : ResolvePass)
include h

theorem Alike.acceptScored (pair : Pair) (score : MatchScore) :
    ctx.acceptScored pass pair score = ctx'.acceptScored pass pair score := by
  exact if_congr (or_congr_left (h.required pair)) rfl rfl

theorem Alike.scoreCandidate (candidate : Pair) :
    ctx.scoreCandidate pass candidate = ctx'.scoreCandidate pass candidate := by
  unfold ResolveContext.scoreCandidate
  dsimp only
  rw [h.byId, h.sharedKeys]
  split
  · refine if_congr (h.forbidden _) rfl ?_
    exact h.acceptScored _ _ _
  · rfl

theorem Alike.linkRequired (pair : Pair) :
    ctx.linkRequired pass pair = ctx'.linkRequired pass pair := by
  unfold ResolveContext.linkRequired
  rw [h.byId]

theorem Alike.collectPairs (scorer : MatchScorer) :
    ctx.collectPairs scorer = ctx'.collectPairs scorer := by
  have hscore : ctx.scoreCandidate = ctx'.scoreCandidate :=
    funext fun pass => funext fun candidate => h.scoreCandidate pass candidate
  have hlink : ctx.linkRequired = ctx'.linkRequired :=
    funext fun pass => funext fun pair => h.linkRequired pass pair
  unfold ResolveContext.collectPairs
  rw [hscore, hlink, h.candidatePairs, h.sorted_required]

theorem Alike.scoreMissingPair (ids : Pair) :
    ctx.scoreMissingPair pass ids = ctx'.scoreMissingPair pass ids := by
  unfold ResolveContext.scoreMissingPair
  rw [h.byId]
  exact if_congr Iff.rfl rfl (if_congr (h.forbidden _) rfl rfl)

theorem Alike.refine (component : List String) :
    ctx.refine pass component = ctx'.refine pass component := by
  have hmissing : ctx.scoreMissingPair = ctx'.scoreMissingPair :=
    funext fun pass => funext fun ids => h.scoreMissingPair pass ids
  unfold ResolveContext.refine ResolveContext.scoreMissingPairs
  rw [hmissing, h.minWithinClusterLinkage]
  simp only [h.applyRequiredLinks]

theorem Alike.buildCluster (clusterIds : List String) :
    ctx.buildCluster pass clusterIds = ctx'.buildCluster pass clusterIds := by
  unfold ResolveContext.buildCluster
  rw [h.byId, h.mergeId, h.decided, h.decidedBy]

theorem Alike.resolveComponent (component : List String) :
    ctx.resolveComponent pass component = ctx'.resolveComponent pass component := by
  have hemit : ctx.emitCluster = ctx'.emitCluster := by
    funext pass clusterIds
    unfold ResolveContext.emitCluster
    rw [h.buildCluster]
  unfold ResolveContext.resolveComponent
  rw [h.refine, hemit]

theorem Alike.finish : ctx.finish pass = ctx'.finish pass := by
  unfold ResolveContext.finish
  rw [h.stats]

end

/-! ## The order of the records -/

/-- `indexById`, one record at a time. -/
def indexRecord (byId : Dict String ResolutionRecord) (record : ResolutionRecord) :
    Except ResolveError (Dict String ResolutionRecord) :=
  if (byId.get? record.id).isSome then .error (.duplicateId record.id)
  else .ok (byId.set record.id record)

theorem indexById_eq (ordered : List ResolutionRecord) :
    indexById ordered = ordered.foldlM indexRecord .empty := rfl

theorem foldlM_duplicate {ordered ordered' : List ResolutionRecord}
    (hids : ordered.map ResolutionRecord.id = ordered'.map ResolutionRecord.id)
    {byId byId' : Dict String ResolutionRecord}
    (hkeys : ∀ rid, (byId.get? rid).isSome = (byId'.get? rid).isSome)
    (hdup : ¬((ordered.map ResolutionRecord.id).Nodup ∧
      ∀ rid ∈ ordered.map ResolutionRecord.id, (byId.get? rid).isSome = false)) :
    ∃ err, ordered.foldlM indexRecord byId = .error err ∧
      ordered'.foldlM indexRecord byId' = .error err := by
  -- Which id is refused as a repeated one is decided by the ids in their order.
  induction ordered generalizing ordered' byId byId' with
  | nil => exact absurd ⟨nodup_nil, fun _ h => absurd h not_mem_nil⟩ hdup
  | cons record ordered ih =>
    obtain ⟨record', ordered', rfl, hid, hrest⟩ := map_eq_cons_iff.mp hids.symm
    rw [foldlM_cons, foldlM_cons]
    cases hold : (byId.get? record.id).isSome with
    | true =>
      refine ⟨.duplicateId record.id, ?_, ?_⟩
      · rw [indexRecord, if_pos hold]
        rfl
      · rw [indexRecord, hid, ← hkeys, if_pos hold]
        rfl
    | false =>
      have hold' : ¬(byId'.get? record'.id).isSome = true := by
        rw [hid, ← hkeys, hold]
        exact Bool.false_ne_true
      rw [indexRecord, if_neg (hold ▸ Bool.false_ne_true), indexRecord, if_neg hold', hid]
      refine ih hrest.symm (fun rid => ?_) fun hfine => hdup ?_
      · rw [Dict.get?_set, Dict.get?_set]
        split_ifs
        · rfl
        · exact hkeys rid
      · obtain ⟨hnodup, hfresh⟩ := hfine
        have hnew : record.id ∉ ordered.map ResolutionRecord.id := by
          intro hmem
          have hset := hfresh record.id hmem
          rw [Dict.get?_set, if_pos rfl] at hset
          cases hset
        rw [map_cons, nodup_cons]
        refine ⟨⟨hnew, hnodup⟩, fun rid hrid => ?_⟩
        rcases mem_cons.mp hrid with rfl | hrid
        · exact hold
        · have hset := hfresh rid hrid
          rw [Dict.get?_set] at hset
          split_ifs at hset with hsame
          · cases hset
          · exact hset

theorem sorted_ids {records records' : List ResolutionRecord} (h : records.Perm records') :
    (sortedBy ResolutionRecord.id records).map ResolutionRecord.id =
      (sortedBy ResolutionRecord.id records').map ResolutionRecord.id := by
  have hperm := ((sortedBy_perm ResolutionRecord.id records).trans h).trans
    (sortedBy_perm ResolutionRecord.id records').symm
  refine (hperm.map ResolutionRecord.id).eq_of_pairwise (fun _ _ _ _ hab hba => le_antisymm hab hba)
    ?_ ?_
  · exact pairwise_map.mpr (sortedBy_sorted ResolutionRecord.id records)
  · exact pairwise_map.mpr (sortedBy_sorted ResolutionRecord.id records')

/-! ## The result -/

inductive SameIndexed : Option BlockingIndex → Option BlockingIndex → Prop
  | absent : SameIndexed none none
  | built (keysOf : ResolutionRecord → List BlockingKey) (maxBlockSize : Option ℕ)
      (calls calls' : List IndexCall)
      (records : ∀ rid, (BlockingIndex.after keysOf maxBlockSize calls).records.get? rid =
        (BlockingIndex.after keysOf maxBlockSize calls').records.get? rid) :
      SameIndexed (some (.after keysOf maxBlockSize calls)) (some (.after keysOf maxBlockSize calls'))

theorem SameIndexed.agree {index index' : Option BlockingIndex} (h : SameIndexed index index')
    (default : BlockingIndex) :
    index.getD default = index'.getD default ∨ (index.getD default).Agree (index'.getD default) := by
  cases h with
  | absent => exact .inl rfl
  | built keysOf maxBlockSize calls calls' hrecords =>
    obtain ⟨hleft, hkeys, hsize⟩ := BlockingIndex.after_faithful keysOf maxBlockSize calls
    obtain ⟨hright, hkeys', hsize'⟩ := BlockingIndex.after_faithful keysOf maxBlockSize calls'
    exact .inr ⟨hleft, hright, hkeys.trans hkeys'.symm, hsize.trans hsize'.symm, hrecords⟩

theorem mem_forbidden {options : ResolveOptions} {p : Pair} :
    p ∈ options.forbidden ↔ ∃ q ∈ options.mustNotLink, pairKey q.1 q.2 = p := mem_map

theorem mem_required {options : ResolveOptions} {p : Pair} :
    p ∈ options.required ↔ (∃ q ∈ options.mustLink, pairKey q.1 q.2 = p) ∧ p ∉ options.forbidden := by
  unfold ResolveOptions.required
  rw [mem_filter, mem_dedup, mem_map, decide_eq_true_eq]

theorem contextOf_alike (options : ResolveOptions) (decidedAt now now' : ℤ)
    {records records' : List ResolutionRecord} (hnodup : (records.map ResolutionRecord.id).Nodup)
    (hrecords : records.Perm records') {mustLink mustLink' mustNotLink mustNotLink' : List Pair}
    (hlink : ∀ p, p ∈ mustLink ↔ p ∈ mustLink')
    (hnotLink : ∀ p, p ∈ mustNotLink ↔ p ∈ mustNotLink')
    {index index' : Option BlockingIndex} (hindex : SameIndexed index index') :
    Alike
      (ResolveOptions.contextOf
        { options with index := index, mustLink := mustLink, mustNotLink := mustNotLink
                       decidedAt := some decidedAt, utcnow := now } records)
      (ResolveOptions.contextOf
        { options with index := index', mustLink := mustLink', mustNotLink := mustNotLink'
                       decidedAt := some decidedAt, utcnow := now' } records') := by
  have hordered := sortedBy_congr hnodup hrecords
  have hagree := hindex.agree ((BlockingIndex.new options.keysOf options.maxBlockSize).addAll
    (sortedBy ResolutionRecord.id records))
  have hforbidden : ∀ p, (∃ q ∈ mustNotLink, pairKey q.1 q.2 = p) ↔
      ∃ q ∈ mustNotLink', pairKey q.1 q.2 = p := fun p =>
    exists_congr fun q => and_congr_left fun _ => hnotLink q
  have hrequired : ∀ p, (∃ q ∈ mustLink, pairKey q.1 q.2 = p) ↔
      ∃ q ∈ mustLink', pairKey q.1 q.2 = p := fun p =>
    exists_congr fun q => and_congr_left fun _ => hlink q
  unfold ResolveOptions.contextOf ResolveOptions.indexFor
  rw [← hordered]
  constructor
  case byId => rfl
  case candidatePairs =>
    rcases hagree with hsame | hagree
    · exact congrArg BlockingIndex.candidatePairs hsame
    · exact hagree.candidatePairs
  case sharedKeys =>
    rcases hagree with hsame | hagree
    · exact congrArg BlockingIndex.sharedKeys hsame
    · exact funext fun l => funext fun r => hagree.sharedKeys l r
  case stats =>
    rcases hagree with hsame | hagree
    · exact congrArg BlockingIndex.stats hsame
    · exact hagree.stats
  case required =>
    intro p
    rw [mem_required, mem_required, mem_forbidden, mem_forbidden]
    exact and_congr (hrequired p) (not_congr (hforbidden p))
  case forbidden =>
    intro p
    rw [mem_forbidden, mem_forbidden]
    exact hforbidden p
  all_goals rfl

/-- With a fixed `decided_at`, the result depends on the records, the overrides and the indexed
records as sets only. -/
theorem resolve_order_free (options : ResolveOptions) (scorer : MatchScorer) (decidedAt now now' : ℤ)
    {records records' : List ResolutionRecord} (hrecords : records.Perm records')
    {mustLink mustLink' mustNotLink mustNotLink' : List Pair}
    (hlink : ∀ p, p ∈ mustLink ↔ p ∈ mustLink')
    (hnotLink : ∀ p, p ∈ mustNotLink ↔ p ∈ mustNotLink')
    {index index' : Option BlockingIndex} (hindex : SameIndexed index index') :
    resolve { options with index := index, mustLink := mustLink, mustNotLink := mustNotLink
                           decidedAt := some decidedAt, utcnow := now } scorer records =
      resolve { options with index := index', mustLink := mustLink', mustNotLink := mustNotLink'
                             decidedAt := some decidedAt, utcnow := now' } scorer records' := by
  by_cases hnodup : (records.map ResolutionRecord.id).Nodup
  · have hnodup' := (hrecords.map ResolutionRecord.id).nodup_iff.mp hnodup
    have halike := contextOf_alike options decidedAt now now' hnodup hrecords hlink hnotLink hindex
    rw [resolve_eq hnodup, resolve_eq hnodup']
    dsimp only
    rw [halike.byId, halike.collectPairs, funext fun pass => halike.finish pass,
      funext fun pass => funext fun component => halike.resolveComponent pass component]
  · obtain ⟨err, herr, herr'⟩ := foldlM_duplicate (sorted_ids hrecords) (fun _ => rfl) fun hfine =>
      hnodup <| ((sortedBy_perm ResolutionRecord.id records).map ResolutionRecord.id).nodup_iff.mp
        hfine.1
    unfold resolve
    dsimp only
    rw [indexById_eq, herr, indexById_eq, herr']
    rfl

/-- The companies arrive the other way round, the overrides too, and one of them is indexed, taken
out and indexed again. -/
theorem resolve_order_free_acme :
    resolve { acmeOptions [] with
        index := some (.after acmeTools.blockingKeys (some 50) [.add (acme "a" .company),
          .add (acme "b" .company), .remove "a", .add (acme "a" .company)])
        mustLink := [("a", "b"), ("c", "a")], mustNotLink := [("b", "c"), ("a", "d")]
        decidedAt := some 0, utcnow := 1 } (MatchModel.standard acmeTools).scorer
        [acme "a" .company, acme "b" .company, acme "c" .product] =
      resolve { acmeOptions [] with
        index := some (.after acmeTools.blockingKeys (some 50) [.add (acme "b" .company),
          .add (acme "a" .company)])
        mustLink := [("c", "a"), ("a", "b")], mustNotLink := [("a", "d"), ("b", "c")]
        decidedAt := some 0, utcnow := 2 } (MatchModel.standard acmeTools).scorer
        [acme "c" .product, acme "a" .company, acme "b" .company] := by
  have hindexed : ∀ rid,
      (BlockingIndex.after acmeTools.blockingKeys (some 50) [.add (acme "a" .company),
        .add (acme "b" .company), .remove "a", .add (acme "a" .company)]).records.get? rid =
      (BlockingIndex.after acmeTools.blockingKeys (some 50) [.add (acme "b" .company),
        .add (acme "a" .company)]).records.get? rid := by
    intro rid
    simp only [BlockingIndex.after, List.foldl, BlockingIndex.call, BlockingIndex.get?_add,
      BlockingIndex.get?_remove]
    by_cases ha : rid = (acme "a" .company).id
    · rw [if_pos ha, if_pos ha]
    · have hkept : ¬rid = "a" := ha
      rw [if_neg ha, if_neg ha, if_neg ha, if_neg hkept]
  have hrecords : [acme "a" .company, acme "b" .company, acme "c" .product].Perm
      [acme "c" .product, acme "a" .company, acme "b" .company] :=
    @perm_append_comm _ [acme "a" .company, acme "b" .company] [acme "c" .product]
  exact resolve_order_free (acmeOptions []) _ 0 1 2 hrecords
    (fun p => (List.Perm.swap _ _ []).mem_iff) (fun p => (List.Perm.swap _ _ []).mem_iff)
    (.built _ _ _ _ hindexed)

end OmniSense.Resolution
