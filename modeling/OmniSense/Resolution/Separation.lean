import OmniSense.Resolution.Pass

/-! Which pairs end apart. A pair that chains of accepted pairs do not connect is apart whatever the
scores; a pair that they connect is together under some scores. -/

namespace OmniSense.Resolution

open Library UnionFind ResolveContext List Option

/-! ## Blocks and clusters -/

theorem together_cons {α : Type*} {c : List α} {cs : List (List α)} {x y : α} :
    Together (c :: cs) x y ↔ (x ∈ c ∧ y ∈ c) ∨ Together cs x y := by
  simp [Together]

theorem ResolveContext.BuiltAll.together {ctx : ResolveContext} {outcomes : List Outcome}
    {blocks : List (List String)} (h : ctx.BuiltAll outcomes blocks) (hctx : ctx.Indexed)
    (hin : blocks.flatten ⊆ ctx.byId.keys) {x y : String} :
    Together (outcomes.map fun o => o.1.memberIds) x y ↔ Together blocks x y := by
  induction h with
  | nil => rfl
  | @cons o block outcomes blocks hbuilt hrest ih =>
    rw [flatten_cons, append_subset] at hin
    have hmembers := hbuilt.memberIds
    rw [hctx.map_members hin.1] at hmembers
    rw [map_cons, together_cons, together_cons, ih hin.2, hmembers.mem_iff, hmembers.mem_iff]

section

variable {records : List ResolutionRecord} (hids : (records.map ResolutionRecord.id).Nodup)
  (options : ResolveOptions)

include hids in
theorem indexed_contextOf : (options.contextOf records).Indexed :=
  fun _ _ hr => ((get?_contextOf hids options).mp hr).2

variable {options}

include hids in
theorem ResolveContext.Planned.together {Kept : Pair → Prop} {accepted : List Pair}
    {result : ResolutionResult} {outcomes : List Outcome} {blocks : List (List String)}
    (h : Planned (options.contextOf records) Kept accepted result outcomes blocks) {x y : String} :
    (∃ cluster ∈ result.clusters, x ∈ cluster.memberIds ∧ y ∈ cluster.memberIds) ↔
      Together blocks x y := by
  rw [← h.built.together (indexed_contextOf hids options) h.perm.subset]
  constructor
  · rintro ⟨cluster, hmem, hxy⟩
    obtain ⟨o, ho, rfl⟩ := mem_map.mp (h.clusters.mem_iff.mp hmem)
    exact ⟨_, mem_map_of_mem ho, hxy⟩
  · rintro ⟨_, hmem, hxy⟩
    obtain ⟨o, ho, rfl⟩ := mem_map.mp hmem
    exact ⟨o.1, h.clusters.mem_iff.mpr (mem_map_of_mem ho), hxy⟩

end

/-! ## Accepted pairs of a batch -/

section

variable (options : ResolveOptions) (records : List ResolutionRecord)
  (decide : ResolutionRecord → ResolutionRecord → MatchDecision)

def MatchScorer.Decides (scorer : MatchScorer) : Prop :=
  ∀ l ∈ records, ∀ r ∈ records, l.id ≤ r.id →
    ((options.contextOf records).candidateVerdict scorer l r).decision = decide l r

/-- Both records are in the batch, the pair is not forbidden, and it is required, or proposed by
blocking and decided `MERGE`. -/
def Accepted (a b : String) : Prop :=
  (a, b) ∉ options.forbidden ∧ ∃ l ∈ records, ∃ r ∈ records, l.id = a ∧ r.id = b ∧
    ((a, b) ∈ options.required ∨
      (a, b) ∈ (options.contextOf records).proposed ∧ decide l r = .merge)

def Chained : String → String → Prop := Relation.EqvGen (Accepted options records decide)

variable {options records decide}

variable {scorer : MatchScorer} {pass : ResolvePass}

theorem mem_accepted_iff (hids : (records.map ResolutionRecord.id).Nodup)
    (hdecides : scorer.Decides options records decide) {a b : String} :
    (a, b) ∈ ((options.contextOf records).collectPairs scorer).accepted ↔
      Accepted options records decide a b := by
  have hget : ∀ {rid r}, (options.contextOf records).byId.get? rid = some r ↔
      r ∈ records ∧ r.id = rid := get?_contextOf hids options
  have hsorted : ∀ {p}, p ∈ sortedBy (toLex : Pair → String ×ₗ String) options.required ↔
      p ∈ options.required := (sortedBy_perm _ _).mem_iff
  have hlinking := (indexed_contextOf hids options).collectPairs_linking scorer
  rw [hlinking.accepted]
  constructor
  · rintro (⟨hallowed, l, r, hl, hr, hproposed, hdecided⟩ | ⟨hrequired, hl, hr⟩)
    · obtain ⟨hlmem, rfl⟩ := hget.mp hl
      obtain ⟨hrmem, rfl⟩ := hget.mp hr
      obtain ⟨q, -, hq⟩ := mem_map.mp hproposed
      have hle : l.id ≤ r.id := by
        have hle := pairKey_le q.1 q.2
        rwa [hq] at hle
      refine ⟨hallowed, l, hlmem, r, hrmem, rfl, rfl, hdecided.imp_right fun h => ⟨hproposed, ?_⟩⟩
      rwa [hdecides l hlmem r hrmem hle] at h
    · obtain ⟨l, hl⟩ := isSome_iff_exists.mp hl
      obtain ⟨r, hr⟩ := isSome_iff_exists.mp hr
      obtain ⟨hl, hla⟩ := hget.mp hl
      obtain ⟨hr, hrb⟩ := hget.mp hr
      have hrequired := hsorted.mp hrequired
      exact ⟨of_decide_eq_true (mem_filter.mp hrequired).2, l, hl, r, hr, hla, hrb,
        .inl hrequired⟩
  · rintro ⟨hallowed, l, hl, r, hr, rfl, rfl, hdecided⟩
    have hl' := hget.mpr ⟨hl, rfl⟩
    have hr' := hget.mpr ⟨hr, rfl⟩
    rcases hdecided with hrequired | ⟨hproposed, hmerge⟩
    · exact .inr ⟨hsorted.mpr hrequired, isSome_of_eq_some hl', isSome_of_eq_some hr'⟩
    · obtain ⟨q, -, hq⟩ := mem_map.mp hproposed
      have hle : l.id ≤ r.id := by
        have hle := pairKey_le q.1 q.2
        rwa [hq] at hle
      exact .inl ⟨hallowed, l, r, hl', hr', hproposed,
        .inr ((hdecides l hl r hr hle).trans hmerge)⟩

theorem chained_iff (hids : (records.map ResolutionRecord.id).Nodup)
    (hdecides : scorer.Decides options records decide) {a b : String} :
    Linked ((options.contextOf records).collectPairs scorer).accepted a b ↔
      Chained options records decide a b := by
  unfold Linked Chained
  simp only [mem_accepted_iff hids hdecides]

/-- **Whatever the scores, clusters stay inside the chains of accepted pairs.** -/
theorem clusters_chained (hids : (records.map ResolutionRecord.id).Nodup)
    (hdecides : scorer.Decides options records decide) :
    ∃ result, resolve options scorer records = .ok result ∧
      ∀ a b, (∃ cluster ∈ result.clusters, a ∈ cluster.memberIds ∧ b ∈ cluster.memberIds) →
        Chained options records decide a b := by
  obtain ⟨result, hrun, outcomes, blocks, hplan⟩ := resolve_run hids options scorer
    (fun _ => False) (fun _ _ => True) trivial (fun _ _ _ => trivial)
    fun _ _ _ _ _ h => h.elim
  refine ⟨result, hrun, fun a b h => ?_⟩
  exact (chained_iff hids hdecides).mp (hplan.linked a b ((hplan.together hids).mp h))

/-! ## Emphatic scores -/

structure Nonnegative (scorer : MatchScorer) (similarity : Dict Pair ℚ) : Prop where
  verdict_nonneg : ∀ l r keys, 0 ≤ (scorer.verdict l r keys).combined
  similarity_nonneg : ∀ p s, similarity.get? p = some s → 0 ≤ s

theorem Nonnegative.set {similarity : Dict Pair ℚ}
    (h : Nonnegative scorer similarity) {s : ℚ} (hs : 0 ≤ s) (p : Pair) :
    Nonnegative scorer (similarity.set p s) := by
  refine ⟨h.verdict_nonneg, fun q t ht => ?_⟩
  rw [Dict.get?_set] at ht
  split_ifs at ht
  · exact Option.some.inj ht ▸ hs
  · exact h.similarity_nonneg q t ht

theorem Nonnegative.score {similarity : Dict Pair ℚ}
    (h : Nonnegative scorer similarity) (l r : ResolutionRecord) (keys : List BlockingKey) (p : Pair) :
    Nonnegative (scorer.score l r keys).2
      (similarity.set p (scorer.verdict l r keys).combined) := by
  refine ⟨fun l' r' keys' => ?_, (h.set (h.verdict_nonneg l r keys) p).similarity_nonneg⟩
  rw [MatchScorer.verdict_score]
  split_ifs
  · exact h.verdict_nonneg l r keys
  · exact h.verdict_nonneg l' r' keys'

variable {ctx : ResolveContext}

theorem Nonnegative.scoreCandidate
    (h : Nonnegative pass.scorer pass.similarity) (candidate : Pair) :
    Nonnegative (ctx.scoreCandidate pass candidate).scorer
      (ctx.scoreCandidate pass candidate).similarity := by
  by_cases hin : (ctx.byId.get? (pairKey candidate.1 candidate.2).1).isSome ∧
      (ctx.byId.get? (pairKey candidate.1 candidate.2).2).isSome
  · obtain ⟨left, hl⟩ := isSome_iff_exists.mp hin.1
    obtain ⟨right, hr⟩ := isSome_iff_exists.mp hin.2
    rw [ctx.scoreCandidate_both pass hl hr]
    simp only
    split_ifs
    · exact h.set le_rfl _
    · rw [acceptScored_scorer, acceptScored_similarity]
      exact h.score left right _ _
  · rw [ctx.scoreCandidate_skip pass hin]
    exact h

theorem Nonnegative.linkRequired (h : Nonnegative pass.scorer pass.similarity) (pair : Pair) :
    Nonnegative (ctx.linkRequired pass pair).scorer (ctx.linkRequired pass pair).similarity := by
  unfold ResolveContext.linkRequired
  split_ifs
  · exact h
  · exact h.set zero_le_one pair

theorem Nonnegative.scoreMissingPair (h : Nonnegative pass.scorer pass.similarity) (ids : Pair) :
    Nonnegative (ctx.scoreMissingPair pass ids).scorer
      (ctx.scoreMissingPair pass ids).similarity := by
  unfold ResolveContext.scoreMissingPair
  simp only
  split_ifs
  · exact h
  · exact h.set le_rfl _
  · split
    · exact h.score _ _ _ _
    · exact h

theorem scoreMissingPair_get? {ids p : Pair} {s : ℚ} (h : pass.similarity.get? p = some s) :
    (ctx.scoreMissingPair pass ids).similarity.get? p = some s := by
  have hset : ∀ t, ¬(pass.similarity.get? (pairKey ids.1 ids.2)).isSome →
      (pass.similarity.set (pairKey ids.1 ids.2) t).get? p = some s := by
    intro t hnew
    rw [Dict.get?_set]
    split_ifs with hp
    · rw [← hp, h] at hnew
      exact absurd rfl hnew
    · exact h
  unfold ResolveContext.scoreMissingPair
  simp only
  split_ifs with hold
  · exact h
  · exact hset 0 hold
  · split
    · exact hset _ hold
    · exact h

variable (options) in
def emphasis : ℚ :=
  |options.minWithinClusterLinkage| * (maxRefinementComponent * maxRefinementComponent : ℕ)

/-- Similarities under which every accepted pair that is not required carries its component. -/
structure Emphatic (options : ResolveOptions) (accepted : List Pair) (scorer : MatchScorer)
    (similarity : Dict Pair ℚ) : Prop extends Nonnegative scorer similarity where
  strong : ∀ p ∈ accepted, p ∈ options.required ∨ similarity.get? p = some (emphasis options)

theorem emphasis_nonneg : 0 ≤ emphasis options :=
  mul_nonneg (abs_nonneg _) (Nat.cast_nonneg _)

theorem floor_le_emphasis {k : ℕ} (hpos : 0 < k)
    (hk : k ≤ maxRefinementComponent * maxRefinementComponent) :
    options.minWithinClusterLinkage ≤ emphasis options / k := by
  have hcast : (0 : ℚ) < k := Nat.cast_pos.mpr hpos
  have hle : (k : ℚ) ≤ (maxRefinementComponent * maxRefinementComponent : ℕ) := Nat.cast_le.mpr hk
  rw [le_div_iff₀ hcast]
  calc options.minWithinClusterLinkage * k
      ≤ |options.minWithinClusterLinkage| * k :=
        mul_le_mul_of_nonneg_right (le_abs_self _) hcast.le
    _ ≤ emphasis options := mul_le_mul_of_nonneg_left hle (abs_nonneg _)

variable (ctx) in
theorem Emphatic.refine {accepted : List Pair} (component : List String)
    (h : Emphatic ctx.options accepted pass.scorer pass.similarity) :
    Emphatic ctx.options accepted (ctx.refine pass component).2.scorer
      (ctx.refine pass component).2.similarity := by
  unfold ResolveContext.refine scoreMissingPairs
  split_ifs
  · exact h
  · exact foldl_done (I := fun _ (pass : ResolvePass) =>
        Emphatic ctx.options accepted pass.scorer pass.similarity) h
      fun _ ids _ pass h => ⟨h.toNonnegative.scoreMissingPair ids, fun p hp =>
        (h.strong p hp).imp_right scoreMissingPair_get?⟩

variable (ctx) in
theorem Emphatic.together {accepted : List Pair} {component : List String}
    (hnodup : component.Nodup) (h : Emphatic ctx.options accepted pass.scorer pass.similarity)
    {p : Pair} (hp : p ∈ accepted) (hle : p.1 ≤ p.2) (hl : p.1 ∈ component) (hr : p.2 ∈ component) :
    Together (ctx.refine pass component).1 p.1 p.2 := by
  -- Refinement keeps an accepted pair together.
  have hrefine := h.refine ctx component
  unfold ResolveContext.refine at hrefine ⊢
  split_ifs at hrefine ⊢ with hsize
  · exact ⟨component, mem_singleton_self _, hl, hr⟩
  generalize ctx.scoreMissingPairs pass component = pass' at hrefine ⊢
  have hperm := refineComponent_perm pass'.similarity ctx.options.minWithinClusterLinkage component
  have hflat := hperm.nodup_iff.mpr hnodup
  rcases hrefine.strong p hp with hrequired | hstrong
  · exact together_required hflat hrequired (hperm.mem_iff.mpr hl) (hperm.mem_iff.mpr hr)
  refine Together.applyRequiredLinks hflat ?_
  obtain ⟨c, hc, hlc⟩ := mem_flatten.mp (hperm.mem_iff.mpr hl)
  obtain ⟨c', hc', hrc⟩ := mem_flatten.mp (hperm.mem_iff.mpr hr)
  by_cases heq : c = c'
  · exact ⟨c, hc, hlc, heq ▸ hrc⟩
  -- two sub-clusters that the pair spans would have been joined
  exfalso
  have hlength : ∀ {d}, d ∈ refineComponent pass'.similarity ctx.options.minWithinClusterLinkage
      component → d.length ≤ maxRefinementComponent := by
    intro d hd
    have hsub := (sublist_flatten_of_mem hd).length_le
    rw [hperm.length_eq] at hsub
    exact hsub.trans (not_lt.mp hsize)
  have hnonneg : ∀ a b, 0 ≤ similarityOf pass'.similarity a b := by
    intro a b
    unfold similarityOf
    cases hget : pass'.similarity.get? (pairKey a b) with
    | none => exact le_rfl
    | some s => exact hrefine.similarity_nonneg _ s hget
  have hpair : similarityOf pass'.similarity p.1 p.2 = emphasis ctx.options := by
    unfold similarityOf
    rw [pairKey_of_le hle, hstrong]
    rfl
  have hpair' : similarityOf pass'.similarity p.2 p.1 = emphasis ctx.options := by
    rw [← hpair]
    unfold similarityOf
    rw [pairKey_comm]
  have hpos : ∀ {d : List String} {x}, x ∈ d → 0 < d.length := length_pos_of_mem
  have hreach : ∀ {d d' : List String} {x y}, x ∈ d → y ∈ d' →
      d.length ≤ maxRefinementComponent → d'.length ≤ maxRefinementComponent →
      similarityOf pass'.similarity x y = emphasis ctx.options →
      ctx.options.minWithinClusterLinkage ≤ averageLinkage pass'.similarity d d' := by
    intro d d' x y hx hy hd hd' hxy
    have hfloor : ctx.options.minWithinClusterLinkage ≤
        emphasis ctx.options / (d.length * d'.length : ℕ) :=
      floor_le_emphasis (Nat.mul_pos (hpos hx) (hpos hy)) (Nat.mul_le_mul hd hd')
    exact hfloor.trans (hxy ▸ le_averageLinkage hnonneg hx hy)
  rcases refineComponent_separates hc hc' heq with hlow | hlow
  · exact hlow.not_ge (hreach hlc hrc (hlength hc) (hlength hc') hpair)
  · exact hlow.not_ge (hreach hrc hlc (hlength hc') (hlength hc) hpair')

theorem ResolveContext.Indexed.accepted_le (hctx : ctx.Indexed) {p : Pair}
    (hp : p ∈ (ctx.collectPairs scorer).accepted) : p.1 ≤ p.2 := by
  rcases ((hctx.collectPairs_linking scorer).accepted p).mp hp with haccepts | hrequired
  · obtain ⟨-, -, -, -, -, hproposed, -⟩ := haccepts
    obtain ⟨q, -, rfl⟩ := mem_map.mp hproposed
    exact pairKey_le q.1 q.2
  · have hmem := (sortedBy_perm _ _).mem_iff.mp hrequired.1
    obtain ⟨q, -, rfl⟩ := mem_map.mp (mem_dedup.mp (mem_filter.mp hmem).1)
    exact pairKey_le q.1 q.2

variable (options decide) in
def emphaticScorer : MatchScorer where
  compute l r _ :=
    ⟨l.id, r.id, if decide l r = .distinct then 0 else emphasis options, decide l r, [], none⟩
  memo := .empty

theorem emphaticScorer_decides : (emphaticScorer options decide).Decides options records decide :=
  fun _ _ _ _ _ => rfl

theorem emphaticScorer_respectsRules (hdecide : ∀ l r, HardSeparated l r → decide l r = .distinct) :
    (emphaticScorer options decide).RespectsRules :=
  fun l r _ hsep => ⟨if_pos (hdecide l r hsep), hdecide l r hsep⟩

theorem emphatic_collectPairs (hids : (records.map ResolutionRecord.id).Nodup) :
    Emphatic options
      ((options.contextOf records).collectPairs (emphaticScorer options decide)).accepted
      ((options.contextOf records).collectPairs (emphaticScorer options decide)).scorer
      ((options.contextOf records).collectPairs (emphaticScorer options decide)).similarity := by
  have hstart : Nonnegative (emphaticScorer options decide) .empty := by
    refine ⟨fun l r keys => ?_, fun p s hs => ?_⟩
    · change 0 ≤ if decide l r = .distinct then 0 else emphasis options
      split_ifs
      · exact le_rfl
      · exact emphasis_nonneg
    · rw [Dict.get?_empty] at hs
      cases hs
  have hscored := @foldl_done _ _
    (fun _ (pass : ResolvePass) => Nonnegative pass.scorer pass.similarity)
    (options.contextOf records).index.candidatePairs (.start (emphaticScorer options decide))
    (options.contextOf records).scoreCandidate hstart
    fun _ candidate _ _ h => h.scoreCandidate candidate
  refine ⟨foldl_done (I := fun _ (pass : ResolvePass) => Nonnegative pass.scorer pass.similarity)
    hscored fun _ pair _ _ h => h.linkRequired pair, fun p hp => ?_⟩
  have hlinking := (indexed_contextOf hids options).collectPairs_linking
    (emphaticScorer options decide)
  refine (hlinking.scored p hp).imp_right ?_
  rintro ⟨l, r, -, -, hmerge, hscore⟩
  have hmerge : decide l r = .merge := hmerge
  have hcombined : ((options.contextOf records).candidateVerdict
      (emphaticScorer options decide) l r).combined = emphasis options := by
    change (if decide l r = .distinct then 0 else emphasis options) = _
    rw [hmerge]
    exact if_neg fun h => by cases h
  rw [hscore, hcombined]

/-- **Under emphatic scores, clusters are all of the chains of accepted pairs.** -/
theorem chained_together (hids : (records.map ResolutionRecord.id).Nodup) :
    ∃ result, resolve options (emphaticScorer options decide) records = .ok result ∧
      ∀ a b, a ∈ records.map ResolutionRecord.id → Chained options records decide a b →
        ∃ cluster ∈ result.clusters, a ∈ cluster.memberIds ∧ b ∈ cluster.memberIds := by
  have hctx := indexed_contextOf hids options
  obtain ⟨result, hrun, outcomes, blocks, hplan⟩ := resolve_run hids options
    (emphaticScorer options decide)
    (fun p => p ∈ ((options.contextOf records).collectPairs
      (emphaticScorer options decide)).accepted)
    (Emphatic options ((options.contextOf records).collectPairs
      (emphaticScorer options decide)).accepted)
    (emphatic_collectPairs hids)
    (fun _ component h => Emphatic.refine (options.contextOf records) component h)
    fun _ _ hnodup h _ hp hl hr => Emphatic.together (options.contextOf records) hnodup h hp
      (hctx.accepted_le hp) hl hr
  refine ⟨result, hrun, fun a b ha hchain => ?_⟩
  have hlinked := (chained_iff hids emphaticScorer_decides).mpr hchain
  have hmem : a ∈ blocks.flatten :=
    hplan.perm.mem_iff.mpr ((mem_keys_contextOf hids options).mpr ha)
  exact (hplan.together hids).mpr (hlinked.together
    (hplan.perm.nodup_iff.mpr (options.contextOf records).byId.nodup)
    (fun p hp => hplan.kept p hp hp) hmem)

end

variable {records : List ResolutionRecord}

theorem chained_distinct {options : ResolveOptions}
    (hlink : options.mustLink = []) {a b : String}
    (h : Chained options records (fun _ _ => .distinct) a b) : a = b := by
  induction h with
  | rel x y hp =>
    obtain ⟨-, l, -, r, -, -, -, hrequired | ⟨-, hmerge⟩⟩ := hp
    · unfold ResolveOptions.required at hrequired
      rw [hlink] at hrequired
      cases hrequired
    · cases hmerge
  | refl x => rfl
  | symm x y _ ih => exact ih.symm
  | trans x y z _ _ ih ih' => exact ih.trans ih'

/-! ## Four records named Acme -/

def acmeTools : TextTools where
  normalizeName _ := "acme"
  nameTokens _ := ["acme"]
  phoneticCode _ := "AKM"
  lshKeys _ := []
  ratio _ _ := 100
  tokenSetRatio _ _ := 100
  tokenSortRatio _ _ := 100
  jaroWinkler _ _ := 1
  cosineSimilarity _ _ := none

def acme (id : String) (type : EntityType) : ResolutionRecord where
  id := id
  type := type
  name := "Acme"
  aliases := []
  identifiers := .ofList [("domain", "acme.com")]
  embedding := none
  context := ∅
  firstSeen := none
  lastSeen := none
  mentionCount := 0
  mergedFrom := []

def acmeOptions (mustNotLink : List Pair) : ResolveOptions where
  index := none
  keysOf := acmeTools.blockingKeys
  mustLink := []
  mustNotLink := mustNotLink
  decidedAt := some 0
  utcnow := 0
  decidedBy := "graph.resolution/v1"
  minWithinClusterLinkage := minWithinClusterLinkage
  maxBlockSize := some defaultMaxBlockSize
  sha256 _ := "6a90c914b4af9e9d3e14b30e9332b4da260817208708b6f8d2d1706676b7cfd8"
  isoformat _ := "1970-01-01T00:00:00+00:00"

def acmeCompanies : List ResolutionRecord :=
  [acme "a" .company, acme "b" .company, acme "c" .company, acme "d" .company]

def acmeMixed : List ResolutionRecord :=
  [acme "a" .company, acme "b" .product, acme "c" .unknown, acme "d" .unknown]

theorem exists_cluster {run : Except ResolveError ResolutionResult} {members : List String}
    (h : (run.toOption.map fun result => result.clusters.map ResolvedCluster.memberIds) =
      some [members]) :
    ∃ result, run = .ok result ∧ ∃ cluster ∈ result.clusters, cluster.memberIds = members := by
  cases run with
  | error e => cases h
  | ok result =>
    have hclusters : result.clusters.map ResolvedCluster.memberIds = [members] :=
      Option.some.inj h
    have hmem : members ∈ result.clusters.map ResolvedCluster.memberIds :=
      hclusters ▸ mem_singleton_self members
    exact ⟨result, rfl, mem_map.mp hmem⟩

/-! ## `must_not_link` -/

/-- **A pair kept apart by hand is apart under all scores exactly when no chain of accepted pairs
connects it.** -/
theorem must_not_link_honoured_iff
    (hids : (records.map ResolutionRecord.id).Nodup) (options : ResolveOptions)
    (decide : ResolutionRecord → ResolutionRecord → MatchDecision) :
    (∀ scorer : MatchScorer, scorer.Decides options records decide →
      ∃ result, resolve options scorer records = .ok result ∧
        ∀ a b, (a, b) ∈ options.mustNotLink → a ∈ records.map ResolutionRecord.id →
          b ∈ records.map ResolutionRecord.id →
          ¬∃ cluster ∈ result.clusters, a ∈ cluster.memberIds ∧ b ∈ cluster.memberIds) ↔
      ∀ a b, (a, b) ∈ options.mustNotLink → a ∈ records.map ResolutionRecord.id →
        b ∈ records.map ResolutionRecord.id → ¬Chained options records decide a b := by
  constructor
  · intro h a b hpair ha hb hchain
    obtain ⟨result, hrun, hhonoured⟩ := h _ emphaticScorer_decides
    obtain ⟨result', hrun', htogether⟩ := chained_together hids
    obtain rfl := Except.ok.inj (hrun.symm.trans hrun')
    exact hhonoured a b hpair ha hb (htogether a b ha hchain)
  · intro h scorer hdecides
    obtain ⟨result, hrun, hchained⟩ := clusters_chained hids hdecides
    exact ⟨result, hrun, fun a b hpair ha hb htogether =>
      h a b hpair ha hb (hchained a b htogether)⟩

/-- No decision merges, so the two records stay apart whatever the scores. -/
theorem must_not_link_honoured_acme : (acmeCompanies.map ResolutionRecord.id).Nodup ∧
    ∀ scorer : MatchScorer,
      scorer.Decides (acmeOptions [("a", "b")]) acmeCompanies (fun _ _ => .distinct) →
      ∃ result, resolve (acmeOptions [("a", "b")]) scorer acmeCompanies = .ok result ∧
        ∀ a b, (a, b) ∈ (acmeOptions [("a", "b")]).mustNotLink →
          a ∈ acmeCompanies.map ResolutionRecord.id → b ∈ acmeCompanies.map ResolutionRecord.id →
          ¬∃ cluster ∈ result.clusters, a ∈ cluster.memberIds ∧ b ∈ cluster.memberIds := by
  have hids : (acmeCompanies.map ResolutionRecord.id).Nodup := by decide
  refine ⟨hids, (must_not_link_honoured_iff hids (acmeOptions [("a", "b")]) _).mpr ?_⟩
  intro a b hpair _ _ hchain
  obtain ⟨rfl, rfl⟩ := Prod.mk.inj (mem_singleton.mp hpair)
  exact absurd (chained_distinct rfl hchain) (by decide)

/-- Two records that share an identifier with both bring a forbidden pair together. -/
theorem bridged_pair_merges : (acmeCompanies.map ResolutionRecord.id).Nodup ∧
    ∃ result, resolve (acmeOptions [("a", "b")]) (MatchModel.standard acmeTools).scorer
        acmeCompanies = .ok result ∧
      ∃ cluster ∈ result.clusters, "a" ∈ cluster.memberIds ∧ "b" ∈ cluster.memberIds := by
  have hrun : ((resolve (acmeOptions [("a", "b")]) (MatchModel.standard acmeTools).scorer
      acmeCompanies).toOption.map fun result => result.clusters.map ResolvedCluster.memberIds) =
      some [["a", "b", "c", "d"]] := by decide +kernel
  obtain ⟨result, hok, cluster, hmem, hmembers⟩ := exists_cluster hrun
  exact ⟨by decide, result, hok, cluster, hmem, by rw [hmembers]; decide⟩

/-! ## Hard separations -/

/-- **Separated records are apart under all scores that respect the hard rules exactly when no
chain of accepted pairs connects them.** -/
theorem hard_separation_iff
    (hids : (records.map ResolutionRecord.id).Nodup) (options : ResolveOptions)
    {decide : ResolutionRecord → ResolutionRecord → MatchDecision}
    (hdecide : ∀ l r, HardSeparated l r → decide l r = .distinct) :
    (∀ scorer : MatchScorer, scorer.RespectsRules → scorer.Decides options records decide →
      ∃ result, resolve options scorer records = .ok result ∧
        ∀ l ∈ records, ∀ r ∈ records, HardSeparated l r →
          ¬∃ cluster ∈ result.clusters, l.id ∈ cluster.memberIds ∧ r.id ∈ cluster.memberIds) ↔
      ∀ l ∈ records, ∀ r ∈ records, HardSeparated l r →
        ¬Chained options records decide l.id r.id := by
  constructor
  · intro h l hl r hr hsep hchain
    obtain ⟨result, hrun, hapart⟩ := h _ (emphaticScorer_respectsRules hdecide)
      emphaticScorer_decides
    obtain ⟨result', hrun', htogether⟩ := chained_together hids
    obtain rfl := Except.ok.inj (hrun.symm.trans hrun')
    exact hapart l hl r hr hsep (htogether l.id r.id (mem_map_of_mem hl) hchain)
  · intro h scorer _ hdecides
    obtain ⟨result, hrun, hchained⟩ := clusters_chained hids hdecides
    exact ⟨result, hrun, fun l hl r hr hsep htogether =>
      h l hl r hr hsep (hchained l.id r.id htogether)⟩

/-- No decision merges, so the company and the product stay apart whatever the scores. -/
theorem hard_separation_acme : (acmeMixed.map ResolutionRecord.id).Nodup ∧
    ∀ scorer : MatchScorer, scorer.RespectsRules →
      scorer.Decides (acmeOptions []) acmeMixed (fun _ _ => .distinct) →
      ∃ result, resolve (acmeOptions []) scorer acmeMixed = .ok result ∧
        ∀ l ∈ acmeMixed, ∀ r ∈ acmeMixed, HardSeparated l r →
          ¬∃ cluster ∈ result.clusters, l.id ∈ cluster.memberIds ∧ r.id ∈ cluster.memberIds := by
  have hids : (acmeMixed.map ResolutionRecord.id).Nodup := by decide
  refine ⟨hids, (hard_separation_iff hids (acmeOptions []) fun _ _ _ => rfl).mpr ?_⟩
  intro l hl r hr hsep hchain
  have hid : l.id = r.id := chained_distinct rfl hchain
  have hlr : l = r := inj_on_of_nodup_map hids hl hr hid
  subst hlr
  rcases hsep with ⟨htype, -⟩ | ⟨key, a, b, -, ha, hb, hab⟩
  · exact htype rfl
  · exact hab (Option.some.inj (ha.symm.trans hb))

/-- Two records of unknown type bring a company and a product together, under the real scorer. -/
theorem bridged_types_merge : (acmeMixed.map ResolutionRecord.id).Nodup ∧
    (MatchModel.standard acmeTools).scorer.RespectsRules ∧
    HardSeparated (acme "a" .company) (acme "b" .product) ∧
    ∃ result, resolve (acmeOptions []) (MatchModel.standard acmeTools).scorer acmeMixed =
        .ok result ∧
      ∃ cluster ∈ result.clusters, "a" ∈ cluster.memberIds ∧ "b" ∈ cluster.memberIds := by
  have hrun : ((resolve (acmeOptions []) (MatchModel.standard acmeTools).scorer
      acmeMixed).toOption.map fun result => result.clusters.map ResolvedCluster.memberIds) =
      some [["a", "b", "c", "d"]] := by decide +kernel
  obtain ⟨result, hok, cluster, hmem, hmembers⟩ := exists_cluster hrun
  exact ⟨by decide, (MatchModel.standard acmeTools).scorer_respectsRules, .inl (by decide),
    result, hok, cluster, hmem, by rw [hmembers]; decide⟩

end OmniSense.Resolution
