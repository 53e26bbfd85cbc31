import OmniSense.Resolution.Resolve

/-! What a pass does, step by step: which pairs are accepted, and that every component becomes
clusters of its own members. -/

namespace OmniSense.Resolution

open Library UnionFind List

/-! ## The records by id -/

theorem indexById_ok {records : List ResolutionRecord}
    (hids : (records.map ResolutionRecord.id).Nodup) :
    indexById records = .ok (.ofList (records.map fun r => (r.id, r))) := by
  induction records using List.reverseRecOn with
  | nil => rfl
  | append_singleton rs r ih =>
    rw [map_append, nodup_append] at hids
    obtain ⟨hids, -, hnew⟩ := hids
    have hkeys : (rs.map fun r => (r.id, r)).map Prod.fst = rs.map ResolutionRecord.id := by
      rw [map_map]
      rfl
    have hfresh : (Dict.ofList (rs.map fun r => (r.id, r))).get? r.id = none := by
      rw [Option.eq_none_iff_forall_ne_some]
      intro r' hr'
      obtain ⟨r'', hmem, heq⟩ := mem_map.mp ((Dict.get?_ofList (hkeys ▸ hids)).mp hr')
      exact hnew r''.id (mem_map_of_mem hmem) r.id (by simp) (Prod.mk.inj heq).1
    have hbefore := ih hids
    unfold indexById at hbefore ⊢
    rw [foldlM_append, hbefore, map_append, map_singleton, Dict.ofList_snoc]
    simp [hfresh, bind, Except.bind, pure, Except.pure]

/-- The context that `resolve` builds from records with distinct ids. -/
def ResolveOptions.contextOf (options : ResolveOptions) (records : List ResolutionRecord) :
    ResolveContext :=
  let ordered := sortedBy ResolutionRecord.id records
  ⟨options, options.indexFor ordered, .ofList (ordered.map fun r => (r.id, r))⟩

section

variable {records : List ResolutionRecord} (hids : (records.map ResolutionRecord.id).Nodup)
  (options : ResolveOptions)
include hids

theorem nodup_ordered :
    ((sortedBy ResolutionRecord.id records).map ResolutionRecord.id).Nodup :=
  ((sortedBy_perm ResolutionRecord.id records).map _).nodup_iff.mpr hids

theorem get?_contextOf {rid : String} {r : ResolutionRecord} :
    (options.contextOf records).byId.get? rid = some r ↔ r ∈ records ∧ r.id = rid := by
  have hkeys : ((sortedBy ResolutionRecord.id records).map fun r => (r.id, r)).map Prod.fst =
      (sortedBy ResolutionRecord.id records).map ResolutionRecord.id := by
    rw [map_map]
    rfl
  unfold ResolveOptions.contextOf
  rw [Dict.get?_ofList (hkeys ▸ nodup_ordered hids), mem_map]
  constructor
  · rintro ⟨r', hr', heq⟩
    obtain ⟨rfl, rfl⟩ := Prod.mk.inj heq
    exact ⟨(sortedBy_perm _ _).mem_iff.mp hr', rfl⟩
  · rintro ⟨hr, rfl⟩
    exact ⟨r, (sortedBy_perm _ _).mem_iff.mpr hr, rfl⟩

theorem mem_keys_contextOf {rid : String} :
    rid ∈ (options.contextOf records).byId.keys ↔ rid ∈ records.map ResolutionRecord.id := by
  rw [Dict.mem_keys, Option.isSome_iff_exists, mem_map]
  simp only [get?_contextOf hids options]

theorem resolve_eq (scorer : MatchScorer) :
    resolve options scorer records =
      let ctx := options.contextOf records
      ctx.finish <$> (components ctx.byId.keys (ctx.collectPairs scorer).accepted).foldlM
        ctx.resolveComponent (ctx.collectPairs scorer) := by
  unfold resolve
  simp only [indexById_ok (nodup_ordered hids), bind_pure_comp]
  rfl

end

/-! ## Accepted pairs -/

namespace MatchScorer

theorem verdict_score (scorer : MatchScorer) (l r : ResolutionRecord) (keys : List BlockingKey)
    (l' r' : ResolutionRecord) (keys' : List BlockingKey) :
    (scorer.score l r keys).2.verdict l' r' keys' =
      if pairKey l'.id r'.id = pairKey l.id r.id then scorer.verdict l r keys
      else scorer.verdict l' r' keys' := by
  have hmemo : (scorer.score l r keys).2.memo =
      scorer.memo.alter (pairKey l.id r.id) fun _ => scorer.verdict l r keys := rfl
  rw [verdict, hmemo, Dict.get?_alter]
  split_ifs
  · rfl
  · rfl

end MatchScorer

namespace ResolveContext

variable (ctx : ResolveContext)

def Indexed : Prop := ∀ rid r, ctx.byId.get? rid = some r → r.id = rid

def candidateVerdict (scorer : MatchScorer) (l r : ResolutionRecord) :
    MatchScore := scorer.verdict l r (ctx.index.sharedKeys l.id r.id)

/-- The pair is required, or proposed and decided `MERGE`; it is not forbidden. -/
def Accepts (scorer : MatchScorer) (proposed : List Pair) (p : Pair) : Prop :=
  p ∉ ctx.options.forbidden ∧ ∃ l r, ctx.byId.get? p.1 = some l ∧ ctx.byId.get? p.2 = some r ∧
    p ∈ proposed ∧ (p ∈ ctx.options.required ∨ (ctx.candidateVerdict scorer l r).decision = .merge)

/-- What the candidate loop knows after the candidates `done`. -/
structure Collected (ctx : ResolveContext) (scorer : MatchScorer) (done : List Pair)
    (pass : ResolvePass) : Prop where
  verdict : ∀ l r, ctx.byId.get? l.id = some l → ctx.byId.get? r.id = some r → l.id ≤ r.id →
    ctx.candidateVerdict pass.scorer l r = ctx.candidateVerdict scorer l r
  similar : ∀ p, (pass.similarity.get? p).isSome ↔
    p ∈ done ∧ (ctx.byId.get? p.1).isSome ∧ (ctx.byId.get? p.2).isSome
  accepted : ∀ p, p ∈ pass.accepted ↔ ctx.Accepts scorer done p
  scored : ∀ p ∈ pass.accepted, ∃ l r, ctx.byId.get? p.1 = some l ∧ ctx.byId.get? p.2 = some r ∧
    pass.similarity.get? p = some (ctx.candidateVerdict scorer l r).combined

variable {ctx : ResolveContext} {scorer : MatchScorer} {done : List Pair} {pass : ResolvePass}

theorem accepts_snoc {pair p : Pair} :
    ctx.Accepts scorer (done ++ [pair]) p ↔
      ctx.Accepts scorer done p ∨ p = pair ∧ ctx.Accepts scorer [pair] p := by
  unfold Accepts
  simp only [mem_append, mem_singleton]
  constructor
  · rintro ⟨hallowed, l, r, hl, hr, hproposed | rfl, hdecided⟩
    · exact .inl ⟨hallowed, l, r, hl, hr, hproposed, hdecided⟩
    · exact .inr ⟨rfl, hallowed, l, r, hl, hr, rfl, hdecided⟩
  · rintro (⟨hallowed, l, r, hl, hr, hproposed, hdecided⟩ |
      ⟨rfl, hallowed, l, r, hl, hr, -, hdecided⟩)
    · exact ⟨hallowed, l, r, hl, hr, .inl hproposed, hdecided⟩
    · exact ⟨hallowed, l, r, hl, hr, .inr rfl, hdecided⟩

variable (score : MatchScore) (pair : Pair)

theorem acceptScored_scorer : (ctx.acceptScored pass pair score).scorer = pass.scorer := by
  unfold acceptScored
  split_ifs <;> rfl

theorem acceptScored_similarity :
    (ctx.acceptScored pass pair score).similarity = pass.similarity := by
  unfold acceptScored
  split_ifs <;> rfl

theorem acceptScored_accepted : (ctx.acceptScored pass pair score).accepted =
      if pair ∈ ctx.options.required ∨ score.decision = .merge then pass.accepted ++ [pair]
      else pass.accepted := by
  unfold acceptScored
  split_ifs <;> rfl

variable (ctx) in
theorem scoreCandidate_skip (pass : ResolvePass) {candidate : Pair}
    (h : ¬((ctx.byId.get? (pairKey candidate.1 candidate.2).1).isSome ∧
      (ctx.byId.get? (pairKey candidate.1 candidate.2).2).isSome)) :
    ctx.scoreCandidate pass candidate = pass := by
  unfold scoreCandidate
  simp only
  split
  · rename_i left right hl hr
    rw [hl, hr] at h
    exact absurd ⟨rfl, rfl⟩ h
  · rfl

variable (ctx) in
theorem scoreCandidate_both (pass : ResolvePass) {candidate : Pair} {left right : ResolutionRecord}
    (hl : ctx.byId.get? (pairKey candidate.1 candidate.2).1 = some left)
    (hr : ctx.byId.get? (pairKey candidate.1 candidate.2).2 = some right) :
    ctx.scoreCandidate pass candidate =
      let pair := pairKey candidate.1 candidate.2
      let score := pass.scorer.verdict left right (ctx.index.sharedKeys pair.1 pair.2)
      if pair ∈ ctx.options.forbidden then { pass with similarity := pass.similarity.set pair 0 }
      else ctx.acceptScored
        { pass with
          scorer := (pass.scorer.score left right (ctx.index.sharedKeys pair.1 pair.2)).2
          scoresByPair := pass.scoresByPair.set pair score
          similarity := pass.similarity.set pair score.combined } pair score := by
  unfold scoreCandidate
  simp only [hl, hr]
  rfl

theorem Collected.step (h : ctx.Collected scorer done pass) (hctx : ctx.Indexed)
    (candidate : Pair) :
    ctx.Collected scorer (done ++ [pairKey candidate.1 candidate.2])
      (ctx.scoreCandidate pass candidate) := by
  -- The accepted pairs after the candidates: a step of the loop.
  generalize hpair : pairKey candidate.1 candidate.2 = pair
  have hle : pair.1 ≤ pair.2 := hpair ▸ pairKey_le _ _
  have hself : pairKey pair.1 pair.2 = pair := pairKey_of_le hle
  by_cases hin : (ctx.byId.get? pair.1).isSome ∧ (ctx.byId.get? pair.2).isSome
  swap
  · -- a pair of another batch changes nothing
    rw [ctx.scoreCandidate_skip pass (hpair.symm ▸ hin)]
    refine ⟨h.verdict, fun p => ?_, fun p => ?_, h.scored⟩
    · rw [h.similar, mem_append, mem_singleton]
      constructor
      · exact fun hp => ⟨.inl hp.1, hp.2⟩
      · rintro ⟨hp | rfl, hboth⟩
        · exact ⟨hp, hboth⟩
        · exact absurd hboth hin
    · rw [h.accepted, accepts_snoc, iff_self_or]
      rintro ⟨rfl, -, l, r, hl, hr, -⟩
      exact absurd ⟨Option.isSome_of_eq_some hl, Option.isSome_of_eq_some hr⟩ hin
  obtain ⟨left, hl⟩ := Option.isSome_iff_exists.mp hin.1
  obtain ⟨right, hr⟩ := Option.isSome_iff_exists.mp hin.2
  have hleft := hctx _ _ hl
  have hright := hctx _ _ hr
  have hsimilar : ∀ s : ℚ, ∀ p, ((pass.similarity.set pair s).get? p).isSome ↔
      p ∈ done ++ [pair] ∧ (ctx.byId.get? p.1).isSome ∧ (ctx.byId.get? p.2).isSome := by
    intro s p
    rw [Dict.get?_set, mem_append, mem_singleton]
    split_ifs with hp
    · subst hp
      exact ⟨fun _ => ⟨.inr rfl, hin⟩, fun _ => rfl⟩
    · rw [h.similar, or_iff_left hp]
  have hother : ∀ {p : Pair} {s : ℚ}, p ≠ pair →
      (pass.similarity.set pair s).get? p = pass.similarity.get? p := by
    intro p s hp
    rw [Dict.get?_set, if_neg hp]
  rw [ctx.scoreCandidate_both pass (hpair.symm ▸ hl) (hpair.symm ▸ hr)]
  simp only [hpair]
  split_ifs with hforbidden
  · have hnot : ∀ p, ctx.Accepts scorer done p → p ≠ pair := by
      rintro p hp rfl
      exact hp.1 hforbidden
    refine ⟨h.verdict, hsimilar 0, fun p => ?_, fun p hp => ?_⟩
    · rw [h.accepted, accepts_snoc, iff_self_or]
      rintro ⟨rfl, hp⟩
      exact absurd hforbidden hp.1
    · obtain ⟨l, r, hl, hr, hscore⟩ := h.scored p hp
      exact ⟨l, r, hl, hr, (hother (hnot p ((h.accepted p).mp hp))).trans hscore⟩
  · have hverdict : pass.scorer.verdict left right (ctx.index.sharedKeys pair.1 pair.2) =
        ctx.candidateVerdict scorer left right := by
      have hbefore := h.verdict left right (hleft.symm ▸ hl) (hright.symm ▸ hr)
        (hleft.symm ▸ hright.symm ▸ hle)
      rw [← hbefore, candidateVerdict, hleft, hright]
    have haccepts : ctx.Accepts scorer [pair] pair ↔ pair ∈ ctx.options.required ∨
        (ctx.candidateVerdict scorer left right).decision = .merge := by
      constructor
      · rintro ⟨-, l, r, hl', hr', -, hdecided⟩
        obtain rfl := Option.some.inj (hl.symm.trans hl')
        obtain rfl := Option.some.inj (hr.symm.trans hr')
        exact hdecided
      · exact fun hdecided =>
          ⟨hforbidden, left, right, hl, hr, mem_singleton_self pair, hdecided⟩
    rw [hverdict]
    constructor
    · intro l r hl' hr' hlr
      rw [acceptScored_scorer, candidateVerdict, MatchScorer.verdict_score]
      split_ifs with hkey
      · rw [pairKey_of_le hlr, hleft, hright, hself] at hkey
        have hlid : l.id = pair.1 := congrArg Prod.fst hkey
        have hrid : r.id = pair.2 := congrArg Prod.snd hkey
        obtain rfl := Option.some.inj (hl.symm.trans (hlid ▸ hl'))
        obtain rfl := Option.some.inj (hr.symm.trans (hrid ▸ hr'))
        exact hverdict
      · exact h.verdict l r hl' hr' hlr
    · intro p
      rw [acceptScored_similarity]
      exact hsimilar _ p
    · intro p
      rw [acceptScored_accepted, accepts_snoc, ← h.accepted]
      split_ifs with hdecided
      · rw [mem_append, mem_singleton]
        refine or_congr_right ⟨fun hp => ⟨hp, ?_⟩, fun hp => hp.1⟩
        subst hp
        exact haccepts.mpr hdecided
      · refine (or_iff_left ?_).symm
        rintro ⟨rfl, hp⟩
        exact hdecided (haccepts.mp hp)
    · intro p hp
      rw [acceptScored_similarity]
      by_cases hne : p = pair
      · subst hne
        exact ⟨left, right, hl, hr, by rw [Dict.get?_set, if_pos rfl]⟩
      · rw [acceptScored_accepted] at hp
        have hold : p ∈ pass.accepted := by
          split_ifs at hp
          · exact (mem_append.mp hp).resolve_right fun h => hne (mem_singleton.mp h)
          · exact hp
        obtain ⟨l, r, hl, hr, hscore⟩ := h.scored p hold
        exact ⟨l, r, hl, hr, (hother hne).trans hscore⟩

/-- What is known once the required pairs `done` are linked as well. -/
structure Linking (ctx : ResolveContext) (scorer : MatchScorer) (proposed done : List Pair)
    (pass : ResolvePass) : Prop where
  similar : ∀ p, (pass.similarity.get? p).isSome ↔
    (p ∈ proposed ∨ p ∈ done) ∧ (ctx.byId.get? p.1).isSome ∧ (ctx.byId.get? p.2).isSome
  accepted : ∀ p, p ∈ pass.accepted ↔ ctx.Accepts scorer proposed p ∨
    p ∈ done ∧ (ctx.byId.get? p.1).isSome ∧ (ctx.byId.get? p.2).isSome
  scored : ∀ p ∈ pass.accepted, p ∈ ctx.options.required ∨
    ∃ l r, ctx.byId.get? p.1 = some l ∧ ctx.byId.get? p.2 = some r ∧
      (ctx.candidateVerdict scorer l r).decision = .merge ∧
      pass.similarity.get? p = some (ctx.candidateVerdict scorer l r).combined

theorem Linking.step {proposed : List Pair} (h : ctx.Linking scorer proposed done pass) {pair : Pair}
    (hrequired : pair ∈ ctx.options.required) :
    ctx.Linking scorer proposed (done ++ [pair]) (ctx.linkRequired pass pair) := by
  have hallowed : pair ∉ ctx.options.forbidden := of_decide_eq_true (mem_filter.mp hrequired).2
  unfold linkRequired
  split_ifs with hskip
  · -- not in the batch, or accepted before
    have hold : (ctx.byId.get? pair.1).isSome ∧ (ctx.byId.get? pair.2).isSome →
        pair ∈ proposed ∨ pair ∈ done := by
      intro hboth
      rcases hskip with hsome | hnone | hnone
      · exact ((h.similar pair).mp hsome).1
      · rw [hnone] at hboth
        cases hboth.1
      · rw [hnone] at hboth
        cases hboth.2
    refine ⟨fun p => ?_, fun p => ?_, h.scored⟩
    · rw [h.similar, mem_append, mem_singleton]
      constructor
      · exact fun hp => ⟨hp.1.imp_right .inl, hp.2⟩
      · rintro ⟨hp | hp | rfl, hboth⟩
        · exact ⟨.inl hp, hboth⟩
        · exact ⟨.inr hp, hboth⟩
        · exact ⟨hold hboth, hboth⟩
    · rw [h.accepted, mem_append, mem_singleton]
      constructor
      · exact fun hp => hp.imp_right fun hp => ⟨.inl hp.1, hp.2⟩
      · rintro (hp | ⟨hp | rfl, hboth⟩)
        · exact .inl hp
        · exact .inr ⟨hp, hboth⟩
        · rcases hold hboth with hproposed | hdone
          · obtain ⟨l, hl⟩ := Option.isSome_iff_exists.mp hboth.1
            obtain ⟨r, hr⟩ := Option.isSome_iff_exists.mp hboth.2
            exact .inl ⟨hallowed, l, r, hl, hr, hproposed, .inl hrequired⟩
          · exact .inr ⟨hdone, hboth⟩
  · rw [not_or, not_or] at hskip
    obtain ⟨hnew, hl, hr⟩ := hskip
    have hboth : (ctx.byId.get? pair.1).isSome ∧ (ctx.byId.get? pair.2).isSome :=
      ⟨Option.isSome_iff_ne_none.mpr hl, Option.isSome_iff_ne_none.mpr hr⟩
    refine ⟨fun p => ?_, fun p => ?_, fun p hp => ?_⟩
    · rw [Dict.get?_set, mem_append, mem_singleton]
      split_ifs with hp
      · subst hp
        exact ⟨fun _ => ⟨.inr (.inr rfl), hboth⟩, fun _ => rfl⟩
      · rw [h.similar, or_iff_left (b := p = pair) hp]
    · rw [mem_append, mem_singleton, h.accepted, mem_append, mem_singleton,
        or_assoc, or_and_right]
      refine or_congr_right (or_congr_right ⟨?_, fun hp => hp.1⟩)
      rintro rfl
      exact ⟨rfl, hboth⟩
    · rcases mem_append.mp hp with hold | hpair
      · by_cases hne : p = pair
        · exact .inl (hne ▸ hrequired)
        · rw [Dict.get?_set, if_neg hne]
          exact h.scored p hold
      · exact .inl (mem_singleton.mp hpair ▸ hrequired)

/-- The candidates, as `resolve` keys them. -/
def proposed (ctx : ResolveContext) : List Pair :=
  ctx.index.candidatePairs.map fun p => pairKey p.1 p.2

theorem Indexed.collectPairs_linking (hctx : ctx.Indexed) (scorer : MatchScorer) :
    ctx.Linking scorer ctx.proposed
      (sortedBy (toLex : Pair → String ×ₗ String) ctx.options.required) (ctx.collectPairs scorer) := by
  have hscored := @foldl_done _ _
    (fun done pass => ctx.Collected scorer (done.map fun p => pairKey p.1 p.2) pass)
    ctx.index.candidatePairs (.start scorer) ctx.scoreCandidate
    ⟨fun _ _ _ _ _ => rfl, by simp [ResolvePass.start, Dict.get?_empty],
      by simp [ResolvePass.start, Accepts], by simp [ResolvePass.start]⟩
    fun done candidate _ pass h => by
      rw [map_append]
      exact h.step hctx candidate
  refine foldl_done (I := fun done pass => ctx.Linking scorer ctx.proposed done pass) ?_
    fun done pair hmem pass h => h.step ((sortedBy_perm _ _).mem_iff.mp hmem)
  refine ⟨fun p => ?_, fun p => ?_, fun p hp => ?_⟩
  · rw [hscored.similar]
    simp [proposed]
  · rw [hscored.accepted]
    simp [proposed]
  · obtain ⟨-, l, r, hl, hr, -, hdecided⟩ := (hscored.accepted p).mp hp
    obtain ⟨l', r', hl', hr', hscore⟩ := hscored.scored p hp
    obtain rfl := Option.some.inj (hl.symm.trans hl')
    obtain rfl := Option.some.inj (hr.symm.trans hr')
    exact hdecided.imp_right fun hmerge => ⟨l, r, hl, hr, hmerge, hscore⟩

end ResolveContext

/-! ## Clusters -/

namespace ResolveContext

variable {ctx : ResolveContext}

theorem Indexed.map_members (hctx : ctx.Indexed) {clusterIds : List String}
    (hin : clusterIds ⊆ ctx.byId.keys) :
    (clusterIds.filterMap ctx.byId.get?).map ResolutionRecord.id = clusterIds := by
  induction clusterIds with
  | nil => rfl
  | cons rid rest ih =>
    obtain ⟨hrid, hrest⟩ := cons_subset.mp hin
    obtain ⟨r, hr⟩ := Option.isSome_iff_exists.mp (Dict.mem_keys.mp hrid)
    rw [filterMap_cons_some hr, map_cons, ih hrest, hctx rid r hr]

structure Built (members : List ResolutionRecord) (cluster : ResolvedCluster)
    (edges : List SameAsEdge) : Prop where
  memberIds : cluster.memberIds.Perm (members.map ResolutionRecord.id)
  elected : ∃ survivor absorbed, (survivor :: absorbed).Perm members ∧
    cluster.survivorId = survivor.id ∧
    edges.map (fun e => (e.fromId, e.toId)) = absorbed.map (fun r => (r.id, survivor.id)) ∧
    match cluster.merge with
    | none => absorbed = [] ∧ cluster.canonical = survivor
    | some merge => absorbed ≠ [] ∧ cluster.canonical = mergeInto survivor absorbed ∧
        merge.canonicalId = survivor.id ∧ merge.absorbedIds = absorbed.map ResolutionRecord.id ∧
        merge.snapshots.Perm members

theorem perm_absorbed {members : List ResolutionRecord} {survivor : ResolutionRecord}
    (hnodup : (members.map ResolutionRecord.id).Nodup) (hmem : survivor ∈ members) :
    (survivor :: sortedBy ResolutionRecord.id
      (members.filter fun r => r.id ≠ survivor.id)).Perm members := by
  obtain ⟨before, after, rfl⟩ := append_of_mem hmem
  rw [map_append, map_cons, nodup_middle, nodup_cons] at hnodup
  have hkeep : (before ++ after).filter (fun r => r.id ≠ survivor.id) = before ++ after := by
    refine filter_eq_self.mpr fun r hr => decide_eq_true fun hid => hnodup.1 ?_
    rw [← map_append, ← hid]
    exact mem_map_of_mem hr
  have hfilter : (before ++ survivor :: after).filter (fun r => r.id ≠ survivor.id) =
      before ++ after := by
    rw [filter_append, filter_cons_of_neg (by simp), ← filter_append, hkeep]
  rw [hfilter]
  exact ((sortedBy_perm _ _).cons survivor).trans perm_middle.symm

theorem Indexed.buildCluster_ok (hctx : ctx.Indexed) (pass : ResolvePass)
    {clusterIds : List String} (hin : clusterIds ⊆ ctx.byId.keys) (hne : clusterIds ≠ [])
    (hnodup : clusterIds.Nodup) :
    ∃ cluster edges, ctx.buildCluster pass clusterIds = .ok (cluster, cluster.merge, edges) ∧
      Built (clusterIds.filterMap ctx.byId.get?) cluster edges := by
  have hmembers := hctx.map_members hin
  have hsome : electSurvivor (clusterIds.filterMap ctx.byId.get?) ≠ none := by
    intro hnone
    rw [argmin_eq_none.mp hnone] at hmembers
    exact hne hmembers.symm
  obtain ⟨survivor, hsurvivor⟩ := Option.ne_none_iff_exists'.mp hsome
  have hperm := perm_absorbed (hmembers.symm ▸ hnodup) (argmin_mem hsurvivor)
  unfold buildCluster
  simp only [hsurvivor]
  split_ifs with habsorbed
  · rw [habsorbed] at hperm
    exact ⟨_, _, rfl, (hperm.map ResolutionRecord.id), survivor, [], hperm, rfl, rfl, rfl, rfl⟩
  · refine ⟨_, _, rfl, (sorted_perm clusterIds).trans (.of_eq hmembers.symm), survivor, _, hperm,
      rfl, ?_, habsorbed, rfl, rfl, rfl, sortedBy_perm _ _⟩
    rw [map_map]
    rfl

abbrev Outcome := ResolvedCluster × List SameAsEdge

def BuiltAll (ctx : ResolveContext) (outcomes : List Outcome) (blocks : List (List String)) : Prop :=
  List.Forall₂ (fun o block => Built (block.filterMap ctx.byId.get?) o.1 o.2) outcomes blocks

structure Emitted (pass pass' : ResolvePass) (outcomes : List Outcome) : Prop where
  scorer : pass'.scorer = pass.scorer
  similarity : pass'.similarity = pass.similarity
  clusters : pass'.clusters = pass.clusters ++ outcomes.map Prod.fst
  merges : pass'.merges = pass.merges ++ outcomes.filterMap fun o => o.1.merge
  edges : pass'.edges = pass.edges ++ outcomes.flatMap Prod.snd

theorem Indexed.emit_ok (hctx : ctx.Indexed) (pass : ResolvePass) {refined : List (List String)}
    (hin : refined.flatten ⊆ ctx.byId.keys) (hempty : [] ∉ refined) (hnodup : refined.flatten.Nodup) :
    ∃ pass', refined.foldlM ctx.emitCluster pass = .ok pass' ∧
      ∃ outcomes, Emitted pass pass' outcomes ∧ ctx.BuiltAll outcomes refined := by
  refine foldlM_done (I := fun done pass' => ∃ outcomes, Emitted pass pass' outcomes ∧
    ctx.BuiltAll outcomes done) ⟨[], ⟨rfl, rfl, by simp, by simp, by simp⟩, .nil⟩
    fun done clusterIds hmem pass' hdone => ?_
  have hsub : clusterIds ⊆ refined.flatten := fun rid hrid => mem_flatten_of_mem hmem hrid
  obtain ⟨cluster, edges, hbuild, hbuilt⟩ := hctx.buildCluster_ok pass'
    (List.Subset.trans hsub hin) (fun h => hempty (h ▸ hmem)) ((nodup_flatten.mp hnodup).1 _ hmem)
  obtain ⟨outcomes, hemitted, hall⟩ := hdone
  let next : ResolvePass :=
    { pass' with
      clusters := pass'.clusters ++ [cluster]
      merges := pass'.merges ++ cluster.merge.toList
      edges := pass'.edges ++ edges }
  have hround : ctx.emitCluster pass' clusterIds = .ok next := by
    unfold emitCluster
    rw [hbuild]
    rfl
  refine ⟨next, hround, outcomes ++ [(cluster, edges)], ?_, rel_append hall (.cons hbuilt .nil)⟩
  refine ⟨hemitted.scorer, hemitted.similarity, ?_, ?_, ?_⟩
  · change pass'.clusters ++ _ = _
    rw [hemitted.clusters, map_append, append_assoc]
    rfl
  · change pass'.merges ++ _ = _
    rw [hemitted.merges, filterMap_append, append_assoc]
    cases hmerge : cluster.merge <;> simp [hmerge]
  · change pass'.edges ++ _ = _
    rw [hemitted.edges, flatMap_append, append_assoc]
    simp

structure SameOutput (pass pass' : ResolvePass) : Prop where
  clusters : pass'.clusters = pass.clusters
  merges : pass'.merges = pass.merges
  edges : pass'.edges = pass.edges

theorem SameOutput.trans {pass pass' pass'' : ResolvePass} (h : SameOutput pass pass')
    (h' : SameOutput pass' pass'') : SameOutput pass pass'' :=
  ⟨h'.clusters.trans h.clusters, h'.merges.trans h.merges, h'.edges.trans h.edges⟩

variable (pass : ResolvePass) {component : List String}

variable (ctx) in
theorem scoreCandidate_output (candidate : Pair) :
    SameOutput pass (ctx.scoreCandidate pass candidate) := by
  unfold scoreCandidate acceptScored
  simp only
  split
  · split_ifs <;> exact ⟨rfl, rfl, rfl⟩
  · exact ⟨rfl, rfl, rfl⟩

variable (ctx) in
theorem linkRequired_output (pair : Pair) : SameOutput pass (ctx.linkRequired pass pair) := by
  unfold linkRequired
  split_ifs <;> exact ⟨rfl, rfl, rfl⟩

variable (ctx) in
theorem scoreMissingPair_output (ids : Pair) : SameOutput pass (ctx.scoreMissingPair pass ids) := by
  unfold scoreMissingPair
  simp only
  split_ifs
  · exact ⟨rfl, rfl, rfl⟩
  · exact ⟨rfl, rfl, rfl⟩
  · split <;> exact ⟨rfl, rfl, rfl⟩

variable (ctx) in
theorem refine_output (component : List String) :
    SameOutput pass (ctx.refine pass component).2 := by
  unfold refine scoreMissingPairs
  split_ifs
  · exact ⟨rfl, rfl, rfl⟩
  · exact foldl_done (I := fun _ pass' => SameOutput pass pass') ⟨rfl, rfl, rfl⟩
      fun _ ids _ pass' h => h.trans (ctx.scoreMissingPair_output pass' ids)

variable (ctx) in
theorem collectPairs_output (scorer : MatchScorer) :
    SameOutput (.start scorer) (ctx.collectPairs scorer) := by
  have hscored := @foldl_done _ _ (fun _ pass' => SameOutput (.start scorer) pass')
    ctx.index.candidatePairs _ ctx.scoreCandidate ⟨rfl, rfl, rfl⟩
    fun _ candidate _ pass' h => h.trans (ctx.scoreCandidate_output pass' candidate)
  exact foldl_done (I := fun _ pass' => SameOutput (.start scorer) pass') hscored
    fun _ pair _ pass' h => h.trans (ctx.linkRequired_output pass' pair)

theorem refine_perm (hnodup : component.Nodup) :
    (ctx.refine pass component).1.flatten.Perm component := by
  unfold refine
  split_ifs
  · rw [flatten_singleton]
  · have hperm := refineComponent_perm (ctx.scoreMissingPairs pass component).similarity
      ctx.options.minWithinClusterLinkage component
    exact (applyRequiredLinks_perm (hperm.nodup_iff.mpr hnodup)).trans hperm

theorem refine_nonempty (hnodup : component.Nodup)
    (hne : component ≠ []) : [] ∉ (ctx.refine pass component).1 := by
  unfold refine
  split_ifs
  · exact fun hmem => hne (mem_singleton.mp hmem).symm
  · have hperm := refineComponent_perm (ctx.scoreMissingPairs pass component).similarity
      ctx.options.minWithinClusterLinkage component
    exact applyRequiredLinks_nonempty (hperm.nodup_iff.mpr hnodup) (refineComponent_nonempty _)

variable (ctx) in
theorem refine_required (hnodup : component.Nodup)
    {p : Pair} (hp : p ∈ ctx.options.required) (hl : p.1 ∈ component) (hr : p.2 ∈ component) :
    Together (ctx.refine pass component).1 p.1 p.2 := by
  unfold refine
  split_ifs
  · exact ⟨component, mem_singleton_self _, hl, hr⟩
  · have hperm := refineComponent_perm (ctx.scoreMissingPairs pass component).similarity
      ctx.options.minWithinClusterLinkage component
    exact together_required (hperm.nodup_iff.mpr hnodup) hp (hperm.mem_iff.mpr hl)
      (hperm.mem_iff.mpr hr)

theorem Indexed.resolveComponent_ok (hctx : ctx.Indexed) (pass : ResolvePass)
    (hin : component ⊆ ctx.byId.keys) (hne : component ≠ [])
    (hnodup : component.Nodup) :
    ∃ pass', ctx.resolveComponent pass component = .ok pass' ∧
      ∃ outcomes, Emitted (ctx.refine pass component).2 pass' outcomes ∧
        ctx.BuiltAll outcomes (ctx.refine pass component).1 := by
  have hperm := ctx.refine_perm pass hnodup
  obtain ⟨pass', hrun, outcomes, hemitted, hbuilt⟩ := hctx.emit_ok (ctx.refine pass component).2
    (List.Subset.trans hperm.subset hin) (ctx.refine_nonempty pass hnodup hne)
    (hperm.nodup_iff.mpr hnodup)
  have hqueue : ∀ refined, Emitted (ctx.refine pass component).2
      (queueSplit pass' component refined) outcomes := by
    intro refined
    unfold queueSplit
    split_ifs
    · exact { hemitted with }
    · exact hemitted
  refine ⟨queueSplit pass' component (ctx.refine pass component).1, ?_, outcomes, hqueue _, hbuilt⟩
  unfold resolveComponent
  simp only [hrun]
  rfl

/-! ## Whole passes -/

/-- What the components done so far have become. `Kept` are pairs that stay together. -/
structure Progress (ctx : ResolveContext) (Kept : Pair → Prop) (done : List (List String))
    (pass : ResolvePass) (outcomes : List Outcome) (blocks : List (List String)) : Prop where
  clusters : pass.clusters = outcomes.map Prod.fst
  merges : pass.merges = outcomes.filterMap fun o => o.1.merge
  edges : pass.edges = outcomes.flatMap Prod.snd
  built : ctx.BuiltAll outcomes blocks
  perm : blocks.flatten.Perm done.flatten
  within : ∀ block ∈ blocks, ∃ component ∈ done, block ⊆ component
  kept : ∀ p, Kept p → Together done p.1 p.2 → Together blocks p.1 p.2

theorem Indexed.components_ok (hctx : ctx.Indexed) {Kept : Pair → Prop}
    {J : MatchScorer → Dict Pair ℚ → Prop}
    (hkeep : ∀ pass component, J pass.scorer pass.similarity →
      J (ctx.refine pass component).2.scorer (ctx.refine pass component).2.similarity)
    (htogether : ∀ pass (component : List String), component.Nodup → J pass.scorer pass.similarity →
      ∀ p, Kept p → p.1 ∈ component → p.2 ∈ component →
        Together (ctx.refine pass component).1 p.1 p.2)
    {cs : List (List String)} (hin : cs.flatten ⊆ ctx.byId.keys) (hempty : [] ∉ cs)
    (hnodup : cs.flatten.Nodup) {scorer : MatchScorer} {pass : ResolvePass}
    (houtput : SameOutput (.start scorer) pass) (hpass : J pass.scorer pass.similarity) :
    ∃ pass', cs.foldlM ctx.resolveComponent pass = .ok pass' ∧
      ∃ outcomes blocks, Progress ctx Kept cs pass' outcomes blocks := by
  -- Every component becomes clusters of its own members. `J` speaks of the scorer and the
  -- similarities, and what it says makes the refinement keep pairs together.
  have hstart : Progress ctx Kept [] pass [] [] :=
    ⟨houtput.clusters, houtput.merges, houtput.edges, .nil, .refl _, by simp, fun p _ h => h⟩
  have hrun := @foldlM_done _ _ _ (fun done pass' => J pass'.scorer pass'.similarity ∧
      ∃ outcomes blocks, Progress ctx Kept done pass' outcomes blocks) cs _ ctx.resolveComponent
    ⟨hpass, [], [], hstart⟩
    fun done component hmem pass' hdone => ?_
  · obtain ⟨pass', hrun, -, hprogress⟩ := hrun
    exact ⟨pass', hrun, hprogress⟩
  obtain ⟨hJ, outcomes, blocks, hprogress⟩ := hdone
  have hsub : component ⊆ cs.flatten := fun rid hrid => mem_flatten_of_mem hmem hrid
  have hcomponent := (nodup_flatten.mp hnodup).1 _ hmem
  obtain ⟨pass'', hround, outcomes', hemitted, hbuilt⟩ := hctx.resolveComponent_ok pass'
    (List.Subset.trans hsub hin) (fun h => hempty (h ▸ hmem)) hcomponent
  have hperm := ctx.refine_perm pass' hcomponent
  refine ⟨pass'', hround, ?_, outcomes ++ outcomes', blocks ++ (ctx.refine pass' component).1, ?_⟩
  · rw [hemitted.scorer, hemitted.similarity]
    exact hkeep pass' component hJ
  have houtput := ctx.refine_output pass' component
  constructor
  · rw [hemitted.clusters, houtput.clusters, hprogress.clusters, map_append]
  · rw [hemitted.merges, houtput.merges, hprogress.merges, filterMap_append]
  · rw [hemitted.edges, houtput.edges, hprogress.edges, flatMap_append]
  · exact rel_append hprogress.built hbuilt
  · rw [flatten_append, flatten_append, flatten_singleton]
    exact hprogress.perm.append hperm
  · intro block hblock
    rcases mem_append.mp hblock with hold | hnew
    · obtain ⟨component', hmem', hsub'⟩ := hprogress.within block hold
      exact ⟨component', mem_append_left _ hmem', hsub'⟩
    · refine ⟨component, mem_append_right _ (mem_singleton_self _), fun x hx => ?_⟩
      exact hperm.mem_iff.mp (mem_flatten_of_mem hnew hx)
  · rintro p hp ⟨c, hc, hl, hr⟩
    rcases mem_append.mp hc with hold | hnew
    · obtain ⟨block, hblock, hl, hr⟩ := hprogress.kept p hp ⟨c, hold, hl, hr⟩
      exact ⟨block, mem_append_left _ hblock, hl, hr⟩
    · rw [mem_singleton.mp hnew] at hl hr
      obtain ⟨block, hblock, hl, hr⟩ := htogether pass' component hcomponent hJ p hp hl hr
      exact ⟨block, mem_append_right _ hblock, hl, hr⟩

theorem Indexed.accepted_mem (hctx : ctx.Indexed) (scorer : MatchScorer) :
    ∀ p ∈ (ctx.collectPairs scorer).accepted, p.1 ∈ ctx.byId.keys ∧ p.2 ∈ ctx.byId.keys := by
  intro p hp
  rw [Dict.mem_keys, Dict.mem_keys]
  rcases ((hctx.collectPairs_linking scorer).accepted p).mp hp with haccepts | hrequired
  · obtain ⟨-, l, r, hl, hr, -⟩ := haccepts
    exact ⟨Option.isSome_of_eq_some hl, Option.isSome_of_eq_some hr⟩
  · exact hrequired.2

structure Planned (ctx : ResolveContext) (Kept : Pair → Prop) (accepted : List Pair)
    (result : ResolutionResult) (outcomes : List Outcome) (blocks : List (List String)) : Prop where
  clusters : result.clusters.Perm (outcomes.map Prod.fst)
  merges : result.merges.Perm (outcomes.filterMap fun o => o.1.merge)
  edges : result.sameAsEdges.Perm (outcomes.flatMap Prod.snd)
  built : ctx.BuiltAll outcomes blocks
  perm : blocks.flatten.Perm ctx.byId.keys
  linked : ∀ x y, Together blocks x y → Linked accepted x y
  kept : ∀ p, Kept p → p ∈ accepted → Together blocks p.1 p.2

end ResolveContext

open ResolveContext in
/-- **A batch with distinct ids is resolved**, into blocks of records that accepted pairs connect. -/
theorem resolve_run {records : List ResolutionRecord}
    (hids : (records.map ResolutionRecord.id).Nodup) (options : ResolveOptions)
    (scorer : MatchScorer) (Kept : Pair → Prop) (J : MatchScorer → Dict Pair ℚ → Prop)
    (hstart : J ((options.contextOf records).collectPairs scorer).scorer
      ((options.contextOf records).collectPairs scorer).similarity)
    (hkeep : ∀ pass component, J pass.scorer pass.similarity →
      J ((options.contextOf records).refine pass component).2.scorer
        ((options.contextOf records).refine pass component).2.similarity)
    (htogether : ∀ pass (component : List String), component.Nodup → J pass.scorer pass.similarity →
      ∀ p, Kept p → p.1 ∈ component → p.2 ∈ component →
        Together ((options.contextOf records).refine pass component).1 p.1 p.2) :
    ∃ result, resolve options scorer records = .ok result ∧ ∃ outcomes blocks,
      Planned (options.contextOf records) Kept
        ((options.contextOf records).collectPairs scorer).accepted result outcomes blocks := by
  generalize hdef : options.contextOf records = ctx at *
  have hctx : ctx.Indexed := fun rid r hr => by
    rw [← hdef] at hr
    exact ((get?_contextOf hids options).mp hr).2
  have haccepted := hctx.accepted_mem scorer
  have hperm := components_perm haccepted
  have hempty : [] ∉ components ctx.byId.keys (ctx.collectPairs scorer).accepted :=
    components_nonempty haccepted
  obtain ⟨pass, hrun, outcomes, blocks, hprogress⟩ := hctx.components_ok hkeep htogether
    hperm.subset hempty (hperm.nodup_iff.mpr ctx.byId.nodup) (ctx.collectPairs_output scorer) hstart
  refine ⟨ctx.finish pass, ?_, outcomes, blocks, ?_⟩
  · rw [resolve_eq hids options scorer, hdef]
    simp only [hrun]
    rfl
  constructor
  · exact (sortedBy_perm _ _).trans (.of_eq hprogress.clusters)
  · exact (sortedBy_perm _ _).trans (.of_eq hprogress.merges)
  · exact (sortedBy_perm _ _).trans (.of_eq hprogress.edges)
  · exact hprogress.built
  · exact hprogress.perm.trans hperm
  · rintro x y ⟨block, hblock, hx, hy⟩
    obtain ⟨component, hmem, hsub⟩ := hprogress.within block hblock
    exact ((together_components haccepted).mp ⟨component, hmem, hsub hx, hsub hy⟩).2.2
  · intro p hkept hp
    obtain ⟨hl, hr⟩ := haccepted p hp
    exact hprogress.kept p hkept ((together_components haccepted).mpr ⟨hl, hr, .rel _ _ hp⟩)

end OmniSense.Resolution
