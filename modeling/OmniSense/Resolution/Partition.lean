import OmniSense.Resolution.Separation

/-! A pass partitions its batch: every record is in one cluster, the edges lead from the absorbed
records to their survivors, and what a `must_link` override asks for is kept together. -/

namespace OmniSense.Resolution

open Library UnionFind ResolveContext List

/-! ## One cluster -/

section

variable {members : List ResolutionRecord} {cluster : ResolvedCluster} {edges : List SameAsEdge}

theorem ResolveContext.Built.absorbed_perm (h : Built members cluster edges)
    (hnodup : (members.map ResolutionRecord.id).Nodup) :
    ∃ survivor absorbed, (survivor :: absorbed).Perm members ∧
      cluster.survivorId = survivor.id ∧
      (cluster.memberIds.filter (· ≠ cluster.survivorId)).Perm
        (absorbed.map ResolutionRecord.id) ∧
      edges.map (fun e => (e.fromId, e.toId)) = absorbed.map (fun r => (r.id, survivor.id)) ∧
      match cluster.merge with
      | none => absorbed = [] ∧ cluster.canonical = survivor
      | some merge => absorbed ≠ [] ∧ cluster.canonical = mergeInto survivor absorbed ∧
          merge.canonicalId = survivor.id ∧ merge.absorbedIds = absorbed.map ResolutionRecord.id ∧
          merge.snapshots.Perm members := by
  obtain ⟨survivor, absorbed, hperm, hid, hedges, hmerge⟩ := h.elected
  have hids := h.memberIds.trans (hperm.map ResolutionRecord.id).symm
  rw [map_cons] at hids
  have hfresh : survivor.id ∉ absorbed.map ResolutionRecord.id := by
    have hcons := (hperm.map ResolutionRecord.id).nodup_iff.mpr hnodup
    rw [map_cons, nodup_cons] at hcons
    exact hcons.1
  have hfilter : (survivor.id :: absorbed.map ResolutionRecord.id).filter (· ≠ survivor.id) =
      absorbed.map ResolutionRecord.id := by
    rw [filter_cons_of_neg (by simp)]
    refine filter_eq_self.mpr fun rid hrid => decide_eq_true ?_
    rintro rfl
    exact hfresh hrid
  refine ⟨survivor, absorbed, hperm, hid, ?_, hedges, hmerge⟩
  rw [hid, ← hfilter]
  exact hids.filter _

theorem ResolveContext.Built.survivor_mem (h : Built members cluster edges) :
    cluster.survivorId ∈ cluster.memberIds := by
  obtain ⟨survivor, absorbed, hperm, hid, -⟩ := h.elected
  have hmem : survivor ∈ members := hperm.mem_iff.mp (mem_cons_self ..)
  exact hid ▸ h.memberIds.mem_iff.mpr (mem_map_of_mem hmem)

theorem ResolveContext.Built.edges_perm (h : Built members cluster edges)
    (hnodup : (members.map ResolutionRecord.id).Nodup) :
    (edges.map fun e => (e.fromId, e.toId)).Perm
      ((cluster.memberIds.filter (· ≠ cluster.survivorId)).map fun rid =>
        (rid, cluster.survivorId)) := by
  obtain ⟨survivor, absorbed, -, hid, habsorbed, hedges, -⟩ := h.absorbed_perm hnodup
  rw [hedges, hid]
  have hmap := habsorbed.map fun rid => (rid, survivor.id)
  rw [map_map] at hmap
  rw [hid] at hmap
  exact hmap.symm

end

/-! ## All clusters -/

section

variable {ctx : ResolveContext} {outcomes : List Outcome} {blocks : List (List String)}

theorem ResolveContext.BuiltAll.exists_block (h : ctx.BuiltAll outcomes blocks) {o : Outcome}
    (ho : o ∈ outcomes) :
    ∃ block ∈ blocks, Built (block.filterMap ctx.byId.get?) o.1 o.2 := by
  induction h with
  | nil => cases ho
  | @cons o' block outcomes blocks hbuilt _ ih =>
    rcases mem_cons.mp ho with rfl | ho
    · exact ⟨block, mem_cons_self .., hbuilt⟩
    · obtain ⟨block', hmem, hbuilt'⟩ := ih ho
      exact ⟨block', mem_cons_of_mem _ hmem, hbuilt'⟩

theorem ResolveContext.BuiltAll.memberIds_perm (h : ctx.BuiltAll outcomes blocks)
    (hctx : ctx.Indexed) (hin : blocks.flatten ⊆ ctx.byId.keys) :
    (outcomes.flatMap fun o => o.1.memberIds).Perm blocks.flatten := by
  induction h with
  | nil => exact .refl _
  | @cons o block outcomes blocks hbuilt _ ih =>
    rw [flatten_cons, append_subset] at hin
    have hmembers := hbuilt.memberIds
    rw [hctx.map_members hin.1] at hmembers
    exact hmembers.append (ih hin.2)

theorem ResolveContext.BuiltAll.edges_perm (h : ctx.BuiltAll outcomes blocks)
    (hctx : ctx.Indexed) (hin : blocks.flatten ⊆ ctx.byId.keys) (hnodup : blocks.flatten.Nodup) :
    ((outcomes.flatMap Prod.snd).map fun e => (e.fromId, e.toId)).Perm
      (outcomes.flatMap fun o => (o.1.memberIds.filter (· ≠ o.1.survivorId)).map fun rid =>
        (rid, o.1.survivorId)) := by
  induction h with
  | nil => exact .refl _
  | @cons o block outcomes blocks hbuilt _ ih =>
    rw [flatten_cons, append_subset] at hin
    rw [flatten_cons, nodup_append] at hnodup
    have hmembers := hctx.map_members hin.1
    rw [flatMap_cons, flatMap_cons, map_append]
    exact (hbuilt.edges_perm (hmembers.symm ▸ hnodup.1)).append (ih hin.2 hnodup.2.1)

end

/-! ## A pass -/

/-- **A pass partitions its batch, and its edges and audit records match the clusters.** -/
theorem resolve_partitions {records : List ResolutionRecord}
    (hids : (records.map ResolutionRecord.id).Nodup) (options : ResolveOptions)
    (scorer : MatchScorer) :
    ∃ result, resolve options scorer records = .ok result ∧
      (result.clusters.flatMap ResolvedCluster.memberIds).Perm
        (records.map ResolutionRecord.id) ∧
      (∀ cluster ∈ result.clusters, cluster.survivorId ∈ cluster.memberIds) ∧
      (result.sameAsEdges.map fun e => (e.fromId, e.toId)).Perm
        (result.clusters.flatMap fun cluster =>
          (cluster.memberIds.filter (· ≠ cluster.survivorId)).map fun rid =>
            (rid, cluster.survivorId)) ∧
      result.merges.Perm (result.clusters.filterMap ResolvedCluster.merge) ∧
      ∀ cluster ∈ result.clusters,
        match cluster.merge with
        | none => cluster.memberIds = [cluster.survivorId]
        | some merge => 1 < cluster.memberIds.length ∧ merge.canonicalId = cluster.survivorId ∧
            merge.absorbedIds.Perm (cluster.memberIds.filter (· ≠ cluster.survivorId)) ∧
            merge.snapshots.Perm (records.filter (·.id ∈ cluster.memberIds)) := by
  obtain ⟨result, hrun, outcomes, blocks, hplan⟩ := resolve_run hids options scorer
    (fun _ => False) (fun _ _ => True) trivial (fun _ _ _ => trivial)
    fun _ _ _ _ _ h => h.elim
  have hctx := indexed_contextOf hids options
  have hin := hplan.perm.subset
  have hflat := hplan.perm.nodup_iff.mpr (options.contextOf records).byId.nodup
  have hkeys : (options.contextOf records).byId.keys.Perm (records.map ResolutionRecord.id) :=
    (perm_ext_iff_of_nodup (options.contextOf records).byId.nodup hids).mpr
      fun _ => mem_keys_contextOf hids options
  have hblock : ∀ cluster ∈ result.clusters, ∃ block ∈ blocks, ∃ edges,
      Built (block.filterMap (options.contextOf records).byId.get?) cluster edges := by
    intro cluster hmem
    obtain ⟨o, ho, rfl⟩ := mem_map.mp (hplan.clusters.mem_iff.mp hmem)
    obtain ⟨block, hmem, hbuilt⟩ := hplan.built.exists_block ho
    exact ⟨block, hmem, o.2, hbuilt⟩
  have hmembers : ∀ block ∈ blocks, (block.filterMap
      (options.contextOf records).byId.get?).map ResolutionRecord.id = block := fun block hmem =>
    hctx.map_members fun x hx => hin (mem_flatten_of_mem hmem hx)
  refine ⟨result, hrun, ?_, ?_, ?_, ?_, ?_⟩
  · have hclusters := hplan.clusters.flatMap_right ResolvedCluster.memberIds
    rw [flatMap_map] at hclusters
    exact hclusters.trans ((hplan.built.memberIds_perm hctx hin).trans (hplan.perm.trans hkeys))
  · intro cluster hmem
    obtain ⟨_, -, _, hbuilt⟩ := hblock cluster hmem
    exact hbuilt.survivor_mem
  · have hclusters := hplan.clusters.flatMap_right fun cluster =>
      (cluster.memberIds.filter (· ≠ cluster.survivorId)).map fun rid => (rid, cluster.survivorId)
    rw [flatMap_map] at hclusters
    exact ((hplan.edges.map _).trans (hplan.built.edges_perm hctx hin hflat)).trans hclusters.symm
  · have hmerges := hplan.clusters.filterMap ResolvedCluster.merge
    rw [filterMap_map] at hmerges
    exact hplan.merges.trans hmerges.symm
  · intro cluster hmem
    obtain ⟨block, hmem, edges, hbuilt⟩ := hblock cluster hmem
    have hnodup : block.Nodup := (nodup_flatten.mp hflat).1 _ hmem
    obtain ⟨survivor, absorbed, hperm, hid, habsorbed, -, hmerge⟩ :=
      hbuilt.absorbed_perm ((hmembers block hmem).symm ▸ hnodup)
    have hids' := hbuilt.memberIds.trans (hperm.map ResolutionRecord.id).symm
    cases hcase : cluster.merge with
    | none =>
      rw [hcase] at hmerge
      obtain ⟨rfl, -⟩ := hmerge
      rw [hid]
      exact perm_singleton.mp hids'
    | some merge =>
      rw [hcase] at hmerge
      obtain ⟨hne, -, hcanonical, hlist, hsnapshots⟩ := hmerge
      refine ⟨?_, hcanonical.trans hid.symm, hlist ▸ habsorbed.symm, hsnapshots.trans ?_⟩
      · rw [hids'.length_eq, map_cons, length_cons, length_map]
        exact Nat.succ_lt_succ (length_pos_iff.mpr hne)
      · rw [perm_ext_iff_of_nodup
          (List.Nodup.of_map ResolutionRecord.id ((hmembers block hmem).symm ▸ hnodup))
          ((List.Nodup.of_map ResolutionRecord.id hids).filter _)]
        intro r
        rw [mem_filterMap, mem_filter, decide_eq_true_eq, hbuilt.memberIds.mem_iff,
          hmembers block hmem]
        constructor
        · rintro ⟨rid, hrid, hr⟩
          obtain ⟨hmemr, rfl⟩ := (get?_contextOf hids options).mp hr
          exact ⟨hmemr, hrid⟩
        · rintro ⟨hr, hrid⟩
          exact ⟨r.id, hrid, (get?_contextOf hids options).mpr ⟨hr, rfl⟩⟩

theorem acmeMixed_ids : (acmeMixed.map ResolutionRecord.id).Nodup := by decide

theorem resolve_partitions_acme : ∃ result,
    resolve (acmeOptions []) (MatchModel.standard acmeTools).scorer acmeMixed = .ok result ∧
      (result.clusters.flatMap ResolvedCluster.memberIds).Perm
        (acmeMixed.map ResolutionRecord.id) := by
  obtain ⟨result, hrun, hperm, -⟩ := resolve_partitions acmeMixed_ids
    (acmeOptions []) (MatchModel.standard acmeTools).scorer
  exact ⟨result, hrun, hperm⟩

/-- **A required pair that is not forbidden ends in one cluster.** -/
theorem must_link_honoured {records : List ResolutionRecord}
    (hids : (records.map ResolutionRecord.id).Nodup) (options : ResolveOptions)
    (scorer : MatchScorer) :
    ∃ result, resolve options scorer records = .ok result ∧
      ∀ a b, (a, b) ∈ options.mustLink → (a, b) ∉ options.mustNotLink →
        (b, a) ∉ options.mustNotLink → a ∈ records.map ResolutionRecord.id →
        b ∈ records.map ResolutionRecord.id →
        ∃ cluster ∈ result.clusters, a ∈ cluster.memberIds ∧ b ∈ cluster.memberIds := by
  have hctx := indexed_contextOf hids options
  obtain ⟨result, hrun, outcomes, blocks, hplan⟩ := resolve_run hids options scorer
    (· ∈ options.required) (fun _ _ => True) trivial (fun _ _ _ => trivial)
    fun pass component hnodup _ p hp hl hr =>
      refine_required (options.contextOf records) pass hnodup hp hl hr
  refine ⟨result, hrun, fun a b hlink hab hba ha hb => ?_⟩
  have hlinking := hctx.collectPairs_linking scorer
  have hrequired : pairKey a b ∈ options.required := by
    refine mem_filter.mpr ⟨mem_dedup.mpr (mem_map.mpr ⟨_, hlink, rfl⟩), ?_⟩
    refine decide_eq_true fun hforbidden => ?_
    obtain ⟨q, hq, hkey⟩ := mem_map.mp hforbidden
    rcases pairKey_eq_iff.mp hkey with ⟨rfl, rfl⟩ | ⟨rfl, rfl⟩
    · exact hab hq
    · exact hba hq
  have hboth : ∀ p, p = (a, b) ∨ p = (b, a) → ((options.contextOf records).byId.get? p.1).isSome ∧
      ((options.contextOf records).byId.get? p.2).isSome := by
    have ha' := Dict.mem_keys.mp ((mem_keys_contextOf hids options).mpr ha)
    have hb' := Dict.mem_keys.mp ((mem_keys_contextOf hids options).mpr hb)
    rintro p (rfl | rfl)
    · exact ⟨ha', hb'⟩
    · exact ⟨hb', ha'⟩
  have hor : pairKey a b = (a, b) ∨ pairKey a b = (b, a) := by
    unfold pairKey
    split_ifs
    · exact .inl rfl
    · exact .inr rfl
  have haccepted := (hlinking.accepted (pairKey a b)).mpr
    (.inr ⟨(sortedBy_perm _ _).mem_iff.mpr hrequired, hboth _ hor⟩)
  have hkept := hplan.kept _ hrequired haccepted
  rw [hplan.together hids]
  rcases hor with hkey | hkey
  · rwa [hkey] at hkept
  · rw [hkey] at hkept
    exact hkept.symm

theorem must_link_honoured_acme : ∃ result,
    resolve { acmeOptions [] with mustLink := [("d", "a")] } (MatchModel.standard acmeTools).scorer
      acmeMixed = .ok result ∧
      ∃ cluster ∈ result.clusters, "d" ∈ cluster.memberIds ∧ "a" ∈ cluster.memberIds := by
  obtain ⟨result, hrun, hlink⟩ := must_link_honoured acmeMixed_ids
    { acmeOptions [] with mustLink := [("d", "a")] } (MatchModel.standard acmeTools).scorer
  exact ⟨result, hrun, hlink "d" "a" (by decide) (by decide) (by decide) (by decide) (by decide)⟩

end OmniSense.Resolution
