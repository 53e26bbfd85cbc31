import OmniSense.Resolution.Separation

/-! `unmerge`: a merge is taken back from its snapshots, whole or for some of its members. -/

namespace OmniSense.Resolution

open Library List

structure UnmergeResult where
  mergeId : String
  restored : List ResolutionRecord
  canonical : ResolutionRecord
  retractedEdges : List Pair
  mustNotLink : List Pair
  decidedBy : String
  decidedAt : ℤ

/-- The `ValueError`s of `unmerge`, and the `KeyError` of a corrupt merge record. -/
inductive UnmergeError
  | detachesCanonical (canonicalId mergeId : String)
  | neverAbsorbed (mergeId : String) (unknown absorbed : List String)
  | nothingToDetach (mergeId : String)
  | noSnapshot (mergeId recordId : String)
  deriving DecidableEq

def MergeRecord.snapshotFor (merge : MergeRecord) (recordId : String) :
    Except UnmergeError ResolutionRecord :=
  match merge.snapshots.find? fun snapshot => snapshot.id = recordId with
  | some snapshot => .ok snapshot
  | none => .error (.noSnapshot merge.id recordId)

def unmerge (merge : MergeRecord) (separate : Option (List String)) (decidedAt : Option ℤ)
    (utcnow : ℤ) (decidedBy : String) : Except UnmergeError UnmergeResult := do
  let decided := decidedAt.getD utcnow
  let absorbedIds := merge.absorbedIds.dedup
  let targets := (separate.getD absorbedIds).dedup
  if merge.canonicalId ∈ targets then
    throw (.detachesCanonical merge.canonicalId merge.id)
  let unknown := targets.filter (· ∉ absorbedIds)
  if unknown ≠ [] then
    throw (.neverAbsorbed merge.id (sorted unknown) (sorted absorbedIds))
  if targets = [] then
    throw (.nothingToDetach merge.id)
  let restored ← (sorted targets).mapM merge.snapshotFor
  let retainedIds := sorted (absorbedIds.filter (· ∉ targets))
  let survivorSnapshot ← merge.snapshotFor merge.canonicalId
  let retained ← retainedIds.mapM merge.snapshotFor
  let retainedAll := merge.canonicalId :: retainedIds
  return {
    mergeId := merge.id
    restored := restored
    canonical := if retainedIds = [] then survivorSnapshot else mergeInto survivorSnapshot retained
    retractedEdges := sortedBy (toLex : Pair → String ×ₗ String)
      (targets.map fun rid => (rid, merge.canonicalId))
    mustNotLink := sortedBy (toLex : Pair → String ×ₗ String)
      (targets.flatMap fun target => retainedAll.map fun kept => pairKey target kept).dedup
    decidedBy := decidedBy
    decidedAt := decided }

/-! ## The survivor of a smaller cluster -/

theorem survivorSortKey_id {r s : ResolutionRecord} (h : survivorSortKey r = survivorSortKey s) :
    r.id = s.id := by
  have hlast : ∀ t : ResolutionRecord,
      (ofLex (ofLex (ofLex (survivorSortKey t)).2).2).2 = t.id := by
    intro t
    unfold survivorSortKey
    cases t.firstSeen <;> rfl
  rw [← hlast r, h, hlast s]

theorem electSurvivor_subset {members rest : List ResolutionRecord} {survivor : ResolutionRecord}
    (hids : (members.map ResolutionRecord.id).Nodup) (hsub : rest ⊆ members)
    (helected : electSurvivor members = some survivor) (hmem : survivor ∈ rest) :
    electSurvivor rest = some survivor := by
  have hsome : electSurvivor rest ≠ none := fun hnone =>
    ne_nil_of_mem hmem (argmin_eq_none.mp hnone)
  obtain ⟨winner, hwinner⟩ := Option.ne_none_iff_exists'.mp hsome
  have hmember : winner ∈ members := hsub (argmin_mem hwinner)
  have hkeys : survivorSortKey winner = survivorSortKey survivor :=
    le_antisymm (le_of_mem_argmin hmem hwinner) (le_of_mem_argmin hmember helected)
  have heq : winner = survivor := inj_on_of_nodup_map hids hmember (argmin_mem helected)
    (survivorSortKey_id hkeys)
  rw [hwinner, heq]

namespace ResolveContext

variable {ctx : ResolveContext} {pass : ResolvePass} {clusterIds : List String}
  {cluster : ResolvedCluster} {merge : MergeRecord} {edges : List SameAsEdge}

def absorbedBy (ctx : ResolveContext) (clusterIds : List String) (survivor : ResolutionRecord) :
    List ResolutionRecord :=
  sortedBy ResolutionRecord.id
    ((clusterIds.filterMap ctx.byId.get?).filter fun r => r.id ≠ survivor.id)

def folded (ctx : ResolveContext) (clusterIds : List String) (survivor : ResolutionRecord) :
    ResolutionRecord :=
  if ctx.absorbedBy clusterIds survivor = [] then survivor
  else mergeInto survivor (ctx.absorbedBy clusterIds survivor)

variable {survivor : ResolutionRecord}

variable (pass) in
theorem buildCluster_elected
    (h : electSurvivor (clusterIds.filterMap ctx.byId.get?) = some survivor) :
    ∃ cluster edges, ctx.buildCluster pass clusterIds = .ok (cluster, cluster.merge, edges) ∧
      cluster.survivorId = survivor.id ∧ cluster.canonical = ctx.folded clusterIds survivor := by
  unfold buildCluster folded absorbedBy
  simp only [h]
  split_ifs with habsorbed
  · exact ⟨_, _, rfl, rfl, rfl⟩
  · exact ⟨_, _, rfl, rfl, rfl⟩

theorem buildCluster_merged (h : ctx.buildCluster pass clusterIds = .ok (cluster, some merge, edges)) :
    ∃ survivor, electSurvivor (clusterIds.filterMap ctx.byId.get?) = some survivor ∧
      cluster.survivorId = survivor.id ∧ merge.canonicalId = survivor.id ∧
      merge.absorbedIds ≠ [] ∧ merge.absorbedIds = (ctx.absorbedBy clusterIds survivor).map ResolutionRecord.id ∧
      merge.snapshots = sortedBy ResolutionRecord.id (clusterIds.filterMap ctx.byId.get?) ∧
      edges.map (fun e => (e.fromId, e.toId)) =
        (ctx.absorbedBy clusterIds survivor).map fun r => (r.id, survivor.id) := by
  unfold buildCluster at h
  dsimp only at h
  split at h
  · cases h
  · rename_i survivor helected
    split_ifs at h with habsorbed
    · cases h
    · obtain ⟨rfl, hrest⟩ := Prod.mk.inj (Except.ok.inj h)
      obtain ⟨hmerge, rfl⟩ := Prod.mk.inj hrest
      cases hmerge
      refine ⟨survivor, helected, rfl, rfl, fun hnil => habsorbed (map_eq_nil_iff.mp hnil), rfl,
        rfl, ?_⟩
      rw [map_map]
      rfl

/-! ## Snapshots -/

theorem Indexed.mem_members (hctx : ctx.Indexed) {r : ResolutionRecord} :
    r ∈ clusterIds.filterMap ctx.byId.get? ↔ r.id ∈ clusterIds ∧ ctx.byId.get? r.id = some r := by
  rw [mem_filterMap]
  constructor
  · rintro ⟨rid, hrid, hr⟩
    rw [hctx rid r hr]
    exact ⟨hrid, hr⟩
  · rintro ⟨hrid, hr⟩
    exact ⟨r.id, hrid, hr⟩

theorem Indexed.mem_absorbedBy (hctx : ctx.Indexed) {survivor r : ResolutionRecord} :
    r ∈ ctx.absorbedBy clusterIds survivor ↔
      r.id ∈ clusterIds ∧ r.id ≠ survivor.id ∧ ctx.byId.get? r.id = some r := by
  unfold absorbedBy
  rw [(sortedBy_perm _ _).mem_iff, mem_filter, hctx.mem_members, decide_eq_true_eq]
  exact ⟨fun h => ⟨h.1.1, h.2, h.1.2⟩, fun h => ⟨⟨h.1, h.2.2⟩, h.2.1⟩⟩

theorem Indexed.snapshotFor_ok (hctx : ctx.Indexed)
    (hsnapshots : merge.snapshots = sortedBy ResolutionRecord.id
      (clusterIds.filterMap ctx.byId.get?))
    {rid : String} {r : ResolutionRecord} (hrid : rid ∈ clusterIds)
    (hr : ctx.byId.get? rid = some r) : merge.snapshotFor rid = .ok r := by
  have hmem : ∀ {r' : ResolutionRecord}, r' ∈ merge.snapshots ↔
      r'.id ∈ clusterIds ∧ ctx.byId.get? r'.id = some r' := by
    intro r'
    rw [hsnapshots, (sortedBy_perm _ _).mem_iff, hctx.mem_members]
  obtain rfl := hctx rid r hr
  have hfind : merge.snapshots.find? (fun snapshot => snapshot.id = r.id) = some r := by
    have hsome : (merge.snapshots.find? fun snapshot => snapshot.id = r.id).isSome := by
      rw [List.find?_isSome]
      exact ⟨r, hmem.mpr ⟨hrid, hr⟩, decide_eq_true rfl⟩
    obtain ⟨r', hr'⟩ := Option.isSome_iff_exists.mp hsome
    have hid : r'.id = r.id := by
      have h := List.find?_some hr'
      exact of_decide_eq_true h
    have hget := (hmem.mp (mem_of_find?_eq_some hr')).2
    rw [hid, hr] at hget
    rw [hr', Option.some.inj hget]
  unfold MergeRecord.snapshotFor
  rw [hfind]

section Snapshots

variable (hctx : ctx.Indexed) (hin : clusterIds ⊆ ctx.byId.keys)
include hctx hin

variable {survivor : ResolutionRecord}

theorem mem_absorbedIds {rid : String} :
    rid ∈ (ctx.absorbedBy clusterIds survivor).map ResolutionRecord.id ↔
      rid ∈ clusterIds ∧ rid ≠ survivor.id := by
  rw [mem_map]
  constructor
  · rintro ⟨r, hr, rfl⟩
    obtain ⟨hrid, hne, _⟩ := hctx.mem_absorbedBy.mp hr
    exact ⟨hrid, hne⟩
  · rintro ⟨hrid, hne⟩
    obtain ⟨r, hr⟩ := Option.isSome_iff_exists.mp (Dict.mem_keys.mp (hin hrid))
    obtain rfl := hctx rid r hr
    exact ⟨r, hctx.mem_absorbedBy.mpr ⟨hrid, hne, hr⟩, rfl⟩

theorem mapM_snapshotFor
    (hsnapshots : merge.snapshots = sortedBy ResolutionRecord.id
      (clusterIds.filterMap ctx.byId.get?))
    {ids : List String} (hids : ids ⊆ clusterIds) :
    ids.mapM merge.snapshotFor = .ok (ids.filterMap ctx.byId.get?) := by
  induction ids with
  | nil => rfl
  | cons rid rest ih =>
    obtain ⟨hrid, hrest⟩ := cons_subset.mp hids
    obtain ⟨r, hr⟩ := Option.isSome_iff_exists.mp (Dict.mem_keys.mp (hin hrid))
    rw [mapM_cons, hctx.snapshotFor_ok hsnapshots hrid hr, ih hrest,
      filterMap_cons_some hr]
    rfl

theorem nodup_absorbedIds (hnodup : clusterIds.Nodup) (survivor : ResolutionRecord) :
    ((ctx.absorbedBy clusterIds survivor).map ResolutionRecord.id).Nodup := by
  refine ((sortedBy_perm _ _).map _).nodup_iff.mpr
    (List.Nodup.sublist (filter_sublist.map _) ?_)
  rw [hctx.map_members hin]
  exact hnodup

theorem perm_restored (hnodup : clusterIds.Nodup)
    {targets : List String} (h : ∀ rid, rid ∈ targets ↔ rid ∈ clusterIds ∧ rid ≠ survivor.id) :
    ((sorted targets.dedup).filterMap ctx.byId.get?).Perm (ctx.absorbedBy clusterIds survivor) := by
  have htargets : sorted targets.dedup ⊆ ctx.byId.keys := fun rid hrid =>
    hin ((h rid).mp (mem_dedup.mp (mem_sorted.mp hrid))).1
  refine (perm_ext_iff_of_nodup (List.Nodup.of_map ResolutionRecord.id ?_)
    (List.Nodup.of_map _ (nodup_absorbedIds hctx hin hnodup survivor))).mpr fun r => ?_
  · rw [hctx.map_members htargets]
    exact (sorted_perm _).nodup_iff.mpr (nodup_dedup _)
  · rw [hctx.mem_members, mem_sorted, mem_dedup, h, and_assoc]
    exact hctx.mem_absorbedBy.symm

theorem retained_eq (hnodup : clusterIds.Nodup) {targets remaining : List String}
    (hremaining : remaining.Perm (clusterIds.filter (· ∉ targets))) :
    (sorted (((ctx.absorbedBy clusterIds survivor).map ResolutionRecord.id).dedup.filter
      (· ∉ targets))).filterMap ctx.byId.get? = ctx.absorbedBy remaining survivor := by
  have hmem : ∀ rid, rid ∈ sorted (((ctx.absorbedBy clusterIds survivor).map
      ResolutionRecord.id).dedup.filter (· ∉ targets)) ↔
      rid ∈ clusterIds ∧ rid ≠ survivor.id ∧ rid ∉ targets := by
    intro rid
    rw [mem_sorted, mem_filter, mem_dedup, mem_absorbedIds hctx hin, decide_eq_true_eq,
      and_assoc]
  have hkept : ∀ rid, rid ∈ remaining ↔ rid ∈ clusterIds ∧ rid ∉ targets := by
    intro rid
    rw [hremaining.mem_iff, mem_filter, decide_eq_true_eq]
  have hsub : remaining ⊆ ctx.byId.keys := fun rid hrid => hin ((hkept rid).mp hrid).1
  have hids := hctx.map_members fun rid hrid => hin ((hmem rid).mp hrid).1
  refine @eq_of_strict _ _ _ ResolutionRecord.id _ _ ?_ (sortedBy_strict ?_) fun r => ?_
  · rw [← pairwise_map, hids]
    refine @sortedBy_strict _ _ _ id _ ?_
    rw [map_id]
    exact (nodup_dedup _).filter _
  · refine List.Nodup.sublist (filter_sublist.map _) ?_
    rw [hctx.map_members hsub]
    exact hremaining.nodup_iff.mpr (hnodup.filter _)
  · rw [hctx.mem_absorbedBy, hkept, mem_filterMap]
    constructor
    · rintro ⟨rid, hrid, hr⟩
      obtain rfl := hctx rid r hr
      obtain ⟨hcluster, hne, htarget⟩ := (hmem r.id).mp hrid
      exact ⟨⟨hcluster, htarget⟩, hne, hr⟩
    · rintro ⟨⟨hcluster, htarget⟩, hne, hr⟩
      exact ⟨r.id, (hmem r.id).mpr ⟨hcluster, hne, htarget⟩, hr⟩

end Snapshots

/-! ## Taking a merge back -/

theorem unmerge_ok {targets : List String} (decidedAt : Option ℤ)
    (utcnow : ℤ) (decidedBy : String) (hctx : ctx.Indexed) (hin : clusterIds ⊆ ctx.byId.keys)
    (hsurvivor : survivor ∈ clusterIds.filterMap ctx.byId.get?)
    (hcanonical : merge.canonicalId = survivor.id)
    (habsorbed : merge.absorbedIds =
      (ctx.absorbedBy clusterIds survivor).map ResolutionRecord.id)
    (hsnapshots : merge.snapshots = sortedBy ResolutionRecord.id
      (clusterIds.filterMap ctx.byId.get?))
    (hne : targets ≠ []) (hsub : targets ⊆ merge.absorbedIds) :
    ∃ result, unmerge merge (some targets) decidedAt utcnow decidedBy = .ok result ∧
      result.restored = (sorted targets.dedup).filterMap ctx.byId.get? ∧
      result.canonical =
        (if sorted (merge.absorbedIds.dedup.filter (· ∉ targets)) = [] then survivor
        else mergeInto survivor ((sorted (merge.absorbedIds.dedup.filter
          (· ∉ targets))).filterMap ctx.byId.get?)) ∧
      result.retractedEdges = sortedBy (toLex : Pair → String ×ₗ String)
        (targets.dedup.map fun rid => (rid, survivor.id)) ∧
      result.mustNotLink = sortedBy (toLex : Pair → String ×ₗ String)
        (targets.dedup.flatMap fun target => (survivor.id ::
          sorted (merge.absorbedIds.dedup.filter (· ∉ targets))).map fun kept =>
            pairKey target kept).dedup := by
  have hids : ∀ {rid : String}, rid ∈ merge.absorbedIds ↔ rid ∈ clusterIds ∧ rid ≠ survivor.id := by
    intro rid
    rw [habsorbed, mem_absorbedIds hctx hin]
  have hkept : (survivor.id ∉ targets) := fun h => (hids.mp (hsub h)).2 rfl
  have hunknown : targets.dedup.filter (· ∉ merge.absorbedIds) = [] := by
    rw [filter_eq_nil_iff]
    intro rid hrid
    rw [decide_eq_true_eq, not_not]
    exact hsub (mem_dedup.mp hrid)
  have htargets : targets.dedup ≠ [] := by
    obtain ⟨rid, hrid⟩ := exists_mem_of_ne_nil _ hne
    exact ne_nil_of_mem (mem_dedup.mpr hrid)
  have hrestored : (sorted targets.dedup).mapM merge.snapshotFor =
      .ok ((sorted targets.dedup).filterMap ctx.byId.get?) := by
    refine mapM_snapshotFor hctx hin hsnapshots fun rid hrid => ?_
    exact (hids.mp (hsub (mem_dedup.mp (mem_sorted.mp hrid)))).1
  have hretained : (sorted (merge.absorbedIds.dedup.filter (· ∉ targets))).mapM merge.snapshotFor =
      .ok ((sorted (merge.absorbedIds.dedup.filter (· ∉ targets))).filterMap ctx.byId.get?) := by
    refine mapM_snapshotFor hctx hin hsnapshots fun rid hrid => ?_
    exact (hids.mp (mem_dedup.mp (mem_filter.mp (mem_sorted.mp hrid)).1)).1
  obtain ⟨hsurvivorId, hsurvivorGet⟩ := hctx.mem_members.mp hsurvivor
  have hsnapshot : merge.snapshotFor survivor.id = .ok survivor :=
    hctx.snapshotFor_ok hsnapshots hsurvivorId hsurvivorGet
  unfold unmerge
  simp only [Option.getD_some, hcanonical, mem_dedup, hkept, if_false, hunknown, ne_eq,
    not_true_eq_false, htargets, hrestored, hsnapshot, hretained, bind, Except.bind, pure,
    Except.pure]
  exact ⟨_, rfl, rfl, rfl, rfl, rfl⟩

structure Separated (ctx : ResolveContext) (clusterIds : List String) (cluster : ResolvedCluster)
    (edges : List SameAsEdge) (targets : List String) (result : UnmergeResult) : Prop where
  /-- the records of the targets as they came in -/
  restored : result.restored.map some = (sorted targets.dedup).map ctx.byId.get?
  /-- the rest, built into a cluster afresh -/
  canonical : ∀ pass remaining, remaining.Perm (clusterIds.filter (· ∉ targets)) →
    ∃ cluster' edges', ctx.buildCluster pass remaining = .ok (cluster', cluster'.merge, edges') ∧
      cluster'.survivorId = cluster.survivorId ∧ cluster'.canonical = result.canonical
  retracted : result.retractedEdges.Perm
    ((edges.filter fun e => e.fromId ∈ targets).map fun e => (e.fromId, e.toId))
  apart_nodup : result.mustNotLink.Nodup
  apart : ∀ p, p ∈ result.mustNotLink ↔
    ∃ target ∈ targets, ∃ kept ∈ clusterIds.filter (· ∉ targets), p = pairKey target kept
  /-- when all that was absorbed is taken back, everything is -/
  whole : (∀ edge ∈ edges, edge.fromId ∈ targets) →
    (result.canonical :: result.restored).Perm (clusterIds.filterMap ctx.byId.get?)

theorem folded_eq {retainedIds remaining : List String}
    (hctx : ctx.Indexed) (hin : retainedIds ⊆ ctx.byId.keys)
    (hretained : retainedIds.filterMap ctx.byId.get? = ctx.absorbedBy remaining survivor) :
    ctx.folded remaining survivor = if retainedIds = [] then survivor
      else mergeInto survivor (retainedIds.filterMap ctx.byId.get?) := by
  have hnil : ctx.absorbedBy remaining survivor = [] ↔ retainedIds = [] := by
    rw [← hretained, ← map_eq_nil_iff (f := ResolutionRecord.id), hctx.map_members hin]
  unfold folded
  simp only [hnil, hretained]

theorem map_some_filterMap {ids : List String} (hin : ids ⊆ ctx.byId.keys) :
    (ids.filterMap ctx.byId.get?).map some = ids.map ctx.byId.get? := by
  induction ids with
  | nil => rfl
  | cons rid rest ih =>
    obtain ⟨hrid, hrest⟩ := cons_subset.mp hin
    obtain ⟨r, hr⟩ := Option.isSome_iff_exists.mp (Dict.mem_keys.mp hrid)
    rw [filterMap_cons_some hr, map_cons, map_cons, ih hrest, hr]

theorem perm_retracted {targets : List String} (hctx : ctx.Indexed)
    (hin : clusterIds ⊆ ctx.byId.keys) (hnodup : clusterIds.Nodup)
    (hsub : targets ⊆ (ctx.absorbedBy clusterIds survivor).map ResolutionRecord.id)
    (hedges : edges.map (fun e => (e.fromId, e.toId)) =
      (ctx.absorbedBy clusterIds survivor).map fun r => (r.id, survivor.id)) :
    (targets.dedup.map fun rid => (rid, survivor.id)).Perm
      ((edges.filter fun e => e.fromId ∈ targets).map fun e => (e.fromId, e.toId)) := by
  have hfilter : (edges.filter fun e => e.fromId ∈ targets).map (fun e => (e.fromId, e.toId)) =
      (((ctx.absorbedBy clusterIds survivor).map ResolutionRecord.id).filter (· ∈ targets)).map
        fun rid => (rid, survivor.id) := by
    have hpairs : (edges.filter fun e => e.fromId ∈ targets).map (fun e => (e.fromId, e.toId)) =
        (edges.map fun e => (e.fromId, e.toId)).filter fun p => p.1 ∈ targets := by
      rw [filter_map]
      rfl
    rw [hpairs, hedges, filter_map, filter_map, map_map]
    rfl
  have hids := nodup_absorbedIds hctx hin hnodup survivor
  rw [hfilter]
  refine List.Perm.map _ ((perm_ext_iff_of_nodup (nodup_dedup _)
    (hids.filter _)).mpr fun rid => ?_)
  rw [mem_dedup, mem_filter, decide_eq_true_eq]
  exact ⟨fun h => ⟨hsub h, h⟩, And.right⟩

theorem unmerge_none (decidedAt : Option ℤ) (utcnow : ℤ) (decidedBy : String) :
    unmerge merge none decidedAt utcnow decidedBy =
      unmerge merge (some merge.absorbedIds) decidedAt utcnow decidedBy := by
  unfold unmerge
  simp only [Option.getD_none, Option.getD_some, dedup_idem]

/-- **A partial unmerge equals never having merged the targets.** -/
theorem unmerge_separates (hctx : ctx.Indexed) (hin : clusterIds ⊆ ctx.byId.keys)
    (hnodup : clusterIds.Nodup)
    (hbuilt : ctx.buildCluster pass clusterIds = .ok (cluster, some merge, edges))
    (decidedAt : Option ℤ) (utcnow : ℤ) (decidedBy : String) :
    (∀ targets, targets ≠ [] → targets ⊆ merge.absorbedIds →
      ∃ result, unmerge merge (some targets) decidedAt utcnow decidedBy = .ok result ∧
        ctx.Separated clusterIds cluster edges targets result) ∧
    ∃ result, unmerge merge none decidedAt utcnow decidedBy = .ok result ∧
      ctx.Separated clusterIds cluster edges merge.absorbedIds result ∧
      (result.canonical :: result.restored).Perm (clusterIds.filterMap ctx.byId.get?) := by
  obtain ⟨survivor, helected, hsurvivorId, hcanonicalId, hne, habsorbed, hsnapshots, hedges⟩ :=
    buildCluster_merged hbuilt
  have hpart : ∀ targets, targets ≠ [] → targets ⊆ merge.absorbedIds →
      ∃ result, unmerge merge (some targets) decidedAt utcnow decidedBy = .ok result ∧
        ctx.Separated clusterIds cluster edges targets result := by
    intro targets htargets hsub
    obtain ⟨result, hresult, hanswer⟩ := unmerge_ok decidedAt utcnow decidedBy hctx hin
      (argmin_mem helected) hcanonicalId habsorbed hsnapshots htargets hsub
    obtain ⟨hrestored, hcanonical, hretracted, hapart⟩ := hanswer
    have hids : ∀ {rid}, rid ∈ merge.absorbedIds ↔ rid ∈ clusterIds ∧ rid ≠ survivor.id := by
      intro rid
      rw [habsorbed, mem_absorbedIds hctx hin]
    obtain ⟨hsurvivor, hget⟩ := hctx.mem_members.mp (argmin_mem helected)
    have hkept : survivor.id ∉ targets := fun h => (hids.mp (hsub h)).2 rfl
    have hsorted : ∀ {rid}, rid ∈ sorted (merge.absorbedIds.dedup.filter (· ∉ targets)) ↔
        (rid ∈ clusterIds ∧ rid ≠ survivor.id) ∧ rid ∉ targets := by
      intro rid
      rw [mem_sorted, mem_filter, mem_dedup, hids, decide_eq_true_eq]
    refine ⟨result, hresult, ?_, fun pass' remaining hremaining => ?_, ?_, ?_, fun p => ?_,
      fun hall => ?_⟩
    · rw [hrestored]
      refine map_some_filterMap fun rid hrid => ?_
      exact hin (hids.mp (hsub (mem_dedup.mp (mem_sorted.mp hrid)))).1
    · have hremains : survivor ∈ remaining.filterMap ctx.byId.get? := by
        refine hctx.mem_members.mpr ⟨hremaining.mem_iff.mpr ?_, hget⟩
        exact mem_filter.mpr ⟨hsurvivor, decide_eq_true hkept⟩
      have hrest : remaining.filterMap ctx.byId.get? ⊆ clusterIds.filterMap ctx.byId.get? := by
        intro r hr
        obtain ⟨hrid, hr⟩ := hctx.mem_members.mp hr
        exact hctx.mem_members.mpr ⟨(mem_filter.mp (hremaining.mem_iff.mp hrid)).1, hr⟩
      have hnodupIds : ((clusterIds.filterMap ctx.byId.get?).map ResolutionRecord.id).Nodup := by
        rw [hctx.map_members hin]
        exact hnodup
      obtain ⟨cluster', edges', hbuild, hid, hfolded⟩ := buildCluster_elected pass'
        (electSurvivor_subset hnodupIds hrest helected hremains)
      refine ⟨cluster', edges', hbuild, hid.trans hsurvivorId.symm, ?_⟩
      rw [hfolded, hcanonical]
      refine folded_eq hctx (fun rid hrid => hin (hsorted.mp hrid).1.1) ?_
      rw [habsorbed]
      exact retained_eq hctx hin hnodup hremaining
    · rw [hretracted]
      exact (sortedBy_perm _ _).trans (perm_retracted hctx hin hnodup (habsorbed ▸ hsub) hedges)
    · rw [hapart]
      exact (sortedBy_perm _ _).nodup_iff.mpr (nodup_dedup _)
    · have hkeeps : ∀ rid, rid ∈ survivor.id ::
          sorted (merge.absorbedIds.dedup.filter (· ∉ targets)) ↔
          rid ∈ clusterIds.filter (· ∉ targets) := by
        intro rid
        rw [mem_cons, hsorted, mem_filter, decide_eq_true_eq]
        constructor
        · rintro (rfl | ⟨⟨hrid, _⟩, htarget⟩)
          · exact ⟨hsurvivor, hkept⟩
          · exact ⟨hrid, htarget⟩
        · rintro ⟨hrid, htarget⟩
          by_cases heq : rid = survivor.id
          · exact .inl heq
          · exact .inr ⟨⟨hrid, heq⟩, htarget⟩
      rw [hapart, (sortedBy_perm _ _).mem_iff, mem_dedup, mem_flatMap]
      simp only [mem_dedup, mem_map, hkeeps, eq_comm]
    · have hevery : ∀ {rid}, rid ∈ merge.absorbedIds ↔ rid ∈ targets := by
        refine fun {rid} => ⟨fun hrid => ?_, fun hrid => hsub hrid⟩
        rw [habsorbed] at hrid
        obtain ⟨r, hr, rfl⟩ := mem_map.mp hrid
        have hedge : (r.id, survivor.id) ∈ edges.map fun e => (e.fromId, e.toId) := by
          rw [hedges]
          exact mem_map_of_mem hr
        obtain ⟨edge, hedge, heq⟩ := mem_map.mp hedge
        rw [← (Prod.mk.inj heq).1]
        exact hall edge hedge
      have hnone : sorted (merge.absorbedIds.dedup.filter (· ∉ targets)) = [] := by
        refine eq_nil_iff_forall_not_mem.mpr fun rid hrid => ?_
        obtain ⟨hrid, htarget⟩ := hsorted.mp hrid
        exact htarget (hevery.mp (hids.mpr hrid))
      rw [hcanonical, if_pos hnone, hrestored]
      have hrestore := perm_restored hctx hin hnodup fun rid => hevery.symm.trans hids
      have hmembers := hctx.map_members hin
      exact (hrestore.cons survivor).trans
        (perm_absorbed (hmembers.symm ▸ hnodup) (argmin_mem helected))
  refine ⟨hpart, ?_⟩
  obtain ⟨result, hresult, hseparated⟩ := hpart merge.absorbedIds hne (List.Subset.refl _)
  refine ⟨result, (unmerge_none _ _ _).trans hresult, hseparated, hseparated.whole fun edge hedge => ?_⟩
  have hmem : (edge.fromId, edge.toId) ∈
      (ctx.absorbedBy clusterIds survivor).map fun r => (r.id, survivor.id) := by
    rw [← hedges]
    exact mem_map_of_mem hedge
  obtain ⟨r, hr, heq⟩ := mem_map.mp hmem
  rw [habsorbed, ← (Prod.mk.inj heq).1]
  exact mem_map_of_mem hr

/-! ## Four companies named Acme -/

def acmeContext : ResolveContext := (acmeOptions []).contextOf acmeCompanies

theorem acmeContext_indexed : acmeContext.Indexed := by
  intro rid r hr
  exact ((get?_contextOf (by decide) _).mp hr).2

theorem unmerge_separates_acme : ∃ cluster merge edges,
    acmeContext.buildCluster (.start (MatchModel.standard acmeTools).scorer) ["a", "b", "c", "d"] =
      .ok (cluster, some merge, edges) ∧
    merge.absorbedIds = ["b", "c", "d"] ∧
    ∃ result, unmerge merge (some ["c"]) none 0 "reviewer" = .ok result ∧
      acmeContext.Separated ["a", "b", "c", "d"] cluster edges ["c"] result := by
  let pass : ResolvePass := .start (MatchModel.standard acmeTools).scorer
  have hin : ["a", "b", "c", "d"] ⊆ acmeContext.byId.keys := by decide
  obtain ⟨cluster, edges, hbuild, _⟩ :=
    acmeContext_indexed.buildCluster_ok pass hin (by decide) (by decide)
  have hrun : ((acmeContext.buildCluster pass ["a", "b", "c", "d"]).toOption.bind
      fun built => built.2.1.map MergeRecord.absorbedIds) = some ["b", "c", "d"] := by
    decide
  rw [hbuild] at hrun
  obtain ⟨merge, hmerge, habsorbed⟩ := Option.map_eq_some_iff.mp hrun
  have hsome : cluster.merge = some merge := hmerge
  have hbuilt : acmeContext.buildCluster pass ["a", "b", "c", "d"] =
      .ok (cluster, some merge, edges) := by
    rw [hbuild, hsome]
  refine ⟨cluster, merge, edges, hbuilt, habsorbed, ?_⟩
  exact (unmerge_separates acmeContext_indexed hin (by decide) hbuilt none 0 "reviewer").1 ["c"]
    (by decide) (habsorbed ▸ by decide)

end ResolveContext

end OmniSense.Resolution
