import OmniSense.Resolution.Partition

/-! Repeated passes. The canonical records of one pass and fresh records are the batch of the next;
ids, mentions and surfaces are kept, and redirects lead from every id to its live record. -/

namespace OmniSense.Resolution

open Library UnionFind ResolveContext List

/-! ## Walks that cannot branch -/

section

variable {α : Type*} {E : α → α → Prop}

def Functional (E : α → α → Prop) : Prop := ∀ ⦃x y z⦄, E x y → E x z → y = z

theorem Functional.end_unique (h : Functional E) {x t u : α} (ht : Relation.ReflTransGen E x t)
    (hend : ∀ y, ¬E t y) (hu : Relation.ReflTransGen E x u) (huend : ∀ y, ¬E u y) : u = t := by
  induction ht using Relation.ReflTransGen.head_induction_on with
  | refl =>
    rcases Relation.ReflTransGen.cases_head hu with rfl | ⟨y, hy, -⟩
    · rfl
    · exact absurd hy (hend y)
  | head hxy _ ih =>
    rcases Relation.ReflTransGen.cases_head hu with rfl | ⟨z, hz, hzu⟩
    · exact absurd hxy (huend _)
    · obtain rfl := h hxy hz
      exact ih hzu

theorem Functional.no_cycle (h : Functional E) {x t : α} (ht : Relation.ReflTransGen E x t)
    (hend : ∀ y, ¬E t y) : ¬Relation.TransGen E x x := by
  induction ht using Relation.ReflTransGen.head_induction_on with
  | refl =>
    intro hcycle
    obtain ⟨y, hy, -⟩ := Relation.TransGen.head'_iff.mp hcycle
    exact hend y hy
  | head hxy _ ih =>
    intro hcycle
    obtain ⟨z, hz, hback⟩ := Relation.TransGen.head'_iff.mp hcycle
    obtain rfl := h hxy hz
    exact ih (Relation.TransGen.tail' hback hxy)

end

/-! ## Groups -/

abbrev Group := ResolutionRecord × List ResolutionRecord

namespace Group

def members (g : Group) : List ResolutionRecord := g.1 :: g.2

def canonical (g : Group) : ResolutionRecord := if g.2 = [] then g.1 else mergeInto g.1 g.2

def redirects (g : Group) : List Pair := g.2.map fun r => (r.id, g.1.id)

end Group

def ResolutionRecord.owned (r : ResolutionRecord) : List String := r.id :: r.mergedFrom

def ResolutionRecord.surfaces (r : ResolutionRecord) : List String := r.name :: r.aliases

def SameAsEdge.ends (e : SameAsEdge) : Pair := (e.fromId, e.toId)

theorem ResolveContext.BuiltAll.exists_groups {ctx : ResolveContext} {outcomes : List Outcome}
    {blocks : List (List String)} (h : ctx.BuiltAll outcomes blocks) :
    ∃ groups : List Group,
      (groups.flatMap Group.members).Perm (blocks.flatten.filterMap ctx.byId.get?) ∧
      outcomes.map (fun o => o.1.canonical) = groups.map Group.canonical ∧
      (outcomes.flatMap Prod.snd).map SameAsEdge.ends = groups.flatMap Group.redirects := by
  induction h with
  | nil => exact ⟨[], .refl _, rfl, rfl⟩
  | @cons o block outcomes blocks hbuilt _ ih =>
    obtain ⟨groups, hmembers, hcanonical, hredirects⟩ := ih
    obtain ⟨survivor, absorbed, hperm, -, hedges, hmerge⟩ := hbuilt.elected
    have hhead : o.1.canonical = Group.canonical (survivor, absorbed) := by
      unfold Group.canonical
      cases hcase : o.1.merge with
      | none =>
        rw [hcase] at hmerge
        rw [if_pos hmerge.1, hmerge.2]
      | some merge =>
        rw [hcase] at hmerge
        rw [if_neg hmerge.1, hmerge.2.1]
    refine ⟨(survivor, absorbed) :: groups, ?_, ?_, ?_⟩
    · rw [flatten_cons, filterMap_append]
      exact hperm.append hmembers
    · rw [map_cons, map_cons, hhead, hcanonical]
    · rw [flatMap_cons, flatMap_cons, map_append, hredirects]
      congr 1

theorem resolve_groups {records : List ResolutionRecord}
    (hids : (records.map ResolutionRecord.id).Nodup) (options : ResolveOptions)
    (scorer : MatchScorer) :
    ∃ result, resolve options scorer records = .ok result ∧ ∃ groups : List Group,
      (groups.flatMap Group.members).Perm records ∧
      (result.clusters.map ResolvedCluster.canonical).Perm (groups.map Group.canonical) ∧
      (result.sameAsEdges.map SameAsEdge.ends).Perm (groups.flatMap Group.redirects) := by
  -- A pass splits its batch into groups and emits their canonical records and redirects.
  obtain ⟨result, hrun, outcomes, blocks, hplan⟩ := resolve_run hids options scorer
    (fun _ => False) (fun _ _ => True) trivial (fun _ _ _ => trivial)
    fun _ _ _ _ _ h => h.elim
  obtain ⟨groups, hmembers, hcanonical, hredirects⟩ := hplan.built.exists_groups
  have hctx := indexed_contextOf hids options
  have hkeys := hctx.map_members (List.Subset.refl (options.contextOf records).byId.keys)
  have hrecords : ((options.contextOf records).byId.keys.filterMap
      (options.contextOf records).byId.get?).Perm records := by
    rw [perm_ext_iff_of_nodup
      (List.Nodup.of_map ResolutionRecord.id (hkeys.symm ▸ (options.contextOf records).byId.nodup))
      (List.Nodup.of_map ResolutionRecord.id hids)]
    intro r
    rw [mem_filterMap]
    constructor
    · rintro ⟨rid, -, hr⟩
      exact ((get?_contextOf hids options).mp hr).1
    · intro hr
      have hget := (get?_contextOf hids options).mpr ⟨hr, rfl⟩
      exact ⟨r.id, Dict.mem_keys.mpr (Option.isSome_of_eq_some hget), hget⟩
  refine ⟨result, hrun, groups, hmembers.trans ((hplan.perm.filterMap _).trans hrecords), ?_, ?_⟩
  · have hclusters := hplan.clusters.map ResolvedCluster.canonical
    rw [map_map] at hclusters
    exact hclusters.trans (.of_eq hcanonical)
  · exact (hplan.edges.map _).trans (.of_eq hredirects)

/-! ## Merging keeps ids, mentions and surfaces -/

namespace Group

variable {g : Group}

theorem canonical_id (g : Group) : g.canonical.id = g.1.id := by
  unfold canonical
  split_ifs <;> rfl

theorem canonical_owned (hnodup : (g.members.flatMap ResolutionRecord.owned).Nodup) :
    g.canonical.owned.Perm (g.members.flatMap ResolutionRecord.owned) := by
  unfold canonical
  split_ifs with hempty
  · unfold members
    rw [hempty, flatMap_singleton]
  have hsplit : (g.1.id :: (g.2.map ResolutionRecord.id ++
      (g.1 :: g.2).flatMap ResolutionRecord.mergedFrom)).Perm
      (g.members.flatMap ResolutionRecord.owned) :=
    map_append_flatMap_perm (g.1 :: g.2) ResolutionRecord.id ResolutionRecord.mergedFrom
  have hcons := hsplit.nodup_iff.mpr hnodup
  obtain ⟨hfresh, hrest⟩ := nodup_cons.mp hcons
  refine .trans (.cons _ ?_) hsplit
  refine (sorted_perm _).trans (.of_eq ?_)
  rw [hrest.dedup]
  exact filter_eq_self.mpr fun rid hrid => decide_eq_true fun h => hfresh (h ▸ hrid)

theorem canonical_mentionCount (g : Group) :
    g.canonical.mentionCount = (g.members.map ResolutionRecord.mentionCount).sum := by
  unfold canonical
  split_ifs with hempty
  · unfold members
    rw [hempty, map_singleton, sum_singleton]
  · rfl

theorem canonical_surface {r : ResolutionRecord} (hr : r ∈ g.members) {s : String}
    (hs : s ∈ r.surfaces) (hblank : strip s ≠ "") :
    ∃ t ∈ g.canonical.surfaces, strip t = strip s := by
  -- A surface that is not blank is kept, perhaps as the survivor's name.
  unfold canonical
  split_ifs with hempty
  · unfold members at hr
    rw [hempty, mem_singleton] at hr
    exact ⟨s, hr ▸ hs, rfl⟩
  · by_cases hname : strip s = strip g.1.name
    · exact ⟨g.1.name, mem_cons_self .., hname.symm⟩
    · refine ⟨s, mem_cons_of_mem _ ?_, rfl⟩
      have hmem : s ∈ g.members.flatMap fun m => m.name :: m.aliases :=
        mem_flatMap.mpr ⟨r, hr, hs⟩
      change s ∈ sorted _
      rw [mem_sorted, mem_dedup, mem_filter]
      exact ⟨hmem, decide_eq_true ⟨hblank, hname⟩⟩

end Group

/-! ## The ledger of all passes -/

structure Ledger (introduced : List ResolutionRecord) (redirects : List Pair)
    (live : List ResolutionRecord) : Prop where
  owned : (live.flatMap ResolutionRecord.owned).Perm (introduced.map ResolutionRecord.id)
  count : (live.map ResolutionRecord.mentionCount).sum =
    (introduced.map ResolutionRecord.mentionCount).sum
  surface : ∀ q ∈ introduced, ∀ s ∈ q.surfaces, strip s ≠ "" →
    ∃ r ∈ live, q.id ∈ r.owned ∧ ∃ t ∈ r.surfaces, strip t = strip s
  reach : ∀ r ∈ live, ∀ x ∈ r.owned,
    Relation.ReflTransGen (fun x y => (x, y) ∈ redirects) x r.id
  terminal : ∀ r ∈ live, ∀ y, (r.id, y) ∉ redirects
  functional : Functional fun x y => (x, y) ∈ redirects
  known : ∀ x y, (x, y) ∈ redirects → x ∈ introduced.map ResolutionRecord.id

namespace Ledger

variable {introduced live fresh : List ResolutionRecord} {redirects : List Pair}

theorem start : Ledger [] [] [] where
  owned := .refl _
  count := rfl
  surface _ hq := by cases hq
  reach _ hr := by cases hr
  terminal _ hr := by cases hr
  functional _ _ _ h := by cases h
  known _ _ h := by cases h

theorem perm (h : Ledger introduced redirects live) {live' : List ResolutionRecord}
    {redirects' : List Pair} (hlive : live'.Perm live) (hredirects : redirects'.Perm redirects) :
    Ledger introduced redirects' live' where
  owned := (hlive.flatMap_right _).trans h.owned
  count := ((hlive.map _).sum_eq).trans h.count
  surface q hq s hs hblank := by
    obtain ⟨r, hr, hsurface⟩ := h.surface q hq s hs hblank
    exact ⟨r, hlive.mem_iff.mpr hr, hsurface⟩
  reach r hr x hx :=
    Relation.ReflTransGen.mono (fun _ _ => hredirects.mem_iff.mpr) _ _
      (h.reach r (hlive.mem_iff.mp hr) x hx)
  terminal r hr y hy := h.terminal r (hlive.mem_iff.mp hr) y (hredirects.mem_iff.mp hy)
  functional _ _ _ hy hz := h.functional (hredirects.mem_iff.mp hy) (hredirects.mem_iff.mp hz)
  known x y hxy := h.known x y (hredirects.mem_iff.mp hxy)

theorem live_ids (h : Ledger introduced redirects live)
    (hids : (introduced.map ResolutionRecord.id).Nodup) :
    (live.map ResolutionRecord.id).Nodup := by
  have howned := h.owned.nodup_iff.mpr hids
  have hsplit := map_append_flatMap_perm live ResolutionRecord.id ResolutionRecord.mergedFrom
  exact (nodup_append.mp (hsplit.nodup_iff.mpr howned)).1

theorem extend (h : Ledger introduced redirects live)
    (hids : ((introduced ++ fresh).map ResolutionRecord.id).Nodup)
    (hfresh : ∀ r ∈ fresh, r.mergedFrom = []) :
    Ledger (introduced ++ fresh) redirects (live ++ fresh) := by
  have hown : ∀ r ∈ fresh, r.owned = [r.id] := fun r hr => by
    unfold ResolutionRecord.owned
    rw [hfresh r hr]
  have hnew : ∀ r ∈ fresh, r.id ∉ introduced.map ResolutionRecord.id := by
    intro r hr hold
    rw [map_append, nodup_append] at hids
    exact hids.2.2 r.id hold r.id (mem_map_of_mem hr) rfl
  refine ⟨?_, ?_, ?_, ?_, ?_, h.functional, ?_⟩
  · have hflat : fresh.flatMap ResolutionRecord.owned = fresh.map ResolutionRecord.id := by
      rw [map_eq_flatMap]
      exact flatMap_congr hown
    rw [flatMap_append, map_append, hflat]
    exact h.owned.append_right _
  · rw [map_append, map_append, sum_append, sum_append, h.count]
  · intro q hq s hs hblank
    rcases mem_append.mp hq with hold | hq
    · obtain ⟨r, hr, hsurface⟩ := h.surface q hold s hs hblank
      exact ⟨r, mem_append_left _ hr, hsurface⟩
    · exact ⟨q, mem_append_right _ hq, mem_cons_self .., s, hs, rfl⟩
  · intro r hr x hx
    rcases mem_append.mp hr with hold | hr
    · exact h.reach r hold x hx
    · rw [hown r hr] at hx
      exact mem_singleton.mp hx ▸ .refl
  · intro r hr y hy
    rcases mem_append.mp hr with hold | hr
    · exact h.terminal r hold y hy
    · exact hnew r hr (h.known _ y hy)
  · intro x y hxy
    rw [map_append]
    exact mem_append_left _ (h.known x y hxy)

theorem merge {groups : List Group}
    (h : Ledger introduced redirects (groups.flatMap Group.members))
    (hids : (introduced.map ResolutionRecord.id).Nodup) :
    Ledger introduced (redirects ++ groups.flatMap Group.redirects)
      (groups.map Group.canonical) := by
  -- Merging the groups of a batch keeps the ledger.
  have howned : ((groups.flatMap Group.members).flatMap ResolutionRecord.owned).Nodup :=
    h.owned.nodup_iff.mpr hids
  rw [flatMap_assoc] at howned
  have hgroup : ∀ g ∈ groups, g.canonical.owned.Perm (g.members.flatMap ResolutionRecord.owned) :=
    fun g hg => Group.canonical_owned ((nodup_flatMap.mp howned).1 g hg)
  have hmember : ∀ {g r}, g ∈ groups → r ∈ g.members → r ∈ groups.flatMap Group.members :=
    fun hg hr => mem_flatMap.mpr ⟨_, hg, hr⟩
  have hsurvivor : ∀ g : Group, g.1 ∈ g.members := fun g => mem_cons_self ..
  have habsorbed : ∀ {g : Group} {r}, r ∈ g.2 → r ∈ g.members := fun hr => mem_cons_of_mem _ hr
  -- survivors first, then who they absorb
  have hsplit : (groups.map (fun g => g.1.id) ++
      (groups.flatMap Prod.snd).map ResolutionRecord.id).Nodup := by
    have hperm := (map_append_flatMap_perm groups Prod.fst Prod.snd).map ResolutionRecord.id
    rw [map_append, map_map] at hperm
    exact hperm.nodup_iff.mpr (h.live_ids hids)
  have hsource : ∀ {x y}, (x, y) ∈ groups.flatMap Group.redirects →
      ∃ g ∈ groups, ∃ r ∈ g.2, r.id = x ∧ g.1.id = y := by
    intro x y hxy
    obtain ⟨g, hg, hmem⟩ := mem_flatMap.mp hxy
    obtain ⟨r, hr, heq⟩ := mem_map.mp hmem
    exact ⟨g, hg, r, hr, (Prod.mk.inj heq).1, (Prod.mk.inj heq).2⟩
  have hsources : ((groups.flatMap Group.redirects).map Prod.fst).Nodup := by
    have hfst : (groups.flatMap Group.redirects).map Prod.fst =
        (groups.flatMap Prod.snd).map ResolutionRecord.id := by
      rw [map_flatMap, map_flatMap]
      refine flatMap_congr fun g _ => ?_
      unfold Group.redirects
      rw [map_map]
      rfl
    exact hfst ▸ (nodup_append.mp hsplit).2.1
  refine ⟨?_, ?_, ?_, ?_, ?_, ?_, ?_⟩
  · rw [flatMap_map]
    refine (List.Perm.flatMap_left groups hgroup).trans ?_
    rw [← flatMap_assoc]
    exact h.owned
  · rw [← h.count, map_map, map_flatMap, flatMap_def, sum_flatten, map_map]
    exact congrArg List.sum (map_congr_left fun g _ => g.canonical_mentionCount)
  · intro q hq s hs hblank
    obtain ⟨r, hr, hqr, t, ht, hts⟩ := h.surface q hq s hs hblank
    obtain ⟨g, hg, hr⟩ := mem_flatMap.mp hr
    obtain ⟨u, hu, hut⟩ := Group.canonical_surface hr ht (hts ▸ hblank)
    exact ⟨g.canonical, mem_map_of_mem hg,
      (hgroup g hg).mem_iff.mpr (mem_flatMap.mpr ⟨r, hr, hqr⟩), u, hu, hut.trans hts⟩
  · intro r hr x hx
    obtain ⟨g, hg, rfl⟩ := mem_map.mp hr
    obtain ⟨m, hm, hxm⟩ := mem_flatMap.mp ((hgroup g hg).mem_iff.mp hx)
    have hold := Relation.ReflTransGen.mono (fun _ _ hxy =>
      mem_append_left (groups.flatMap Group.redirects) hxy) _ _
      (h.reach m (hmember hg hm) x hxm)
    rw [g.canonical_id]
    rcases mem_cons.mp hm with rfl | hm
    · exact hold
    · refine hold.tail (mem_append_right _ ?_)
      exact mem_flatMap.mpr ⟨g, hg, mem_map.mpr ⟨m, hm, rfl⟩⟩
  · intro r hr y hy
    obtain ⟨g, hg, rfl⟩ := mem_map.mp hr
    rw [g.canonical_id] at hy
    rcases mem_append.mp hy with hold | hnew
    · exact h.terminal g.1 (hmember hg (hsurvivor g)) y hold
    · obtain ⟨g', hg', m, hm, hid, -⟩ := hsource hnew
      refine (nodup_append.mp hsplit).2.2 g.1.id (mem_map.mpr ⟨g, hg, rfl⟩) m.id ?_ hid.symm
      exact mem_map_of_mem (mem_flatMap.mpr ⟨g', hg', hm⟩)
  · intro x y z hy hz
    have hmixed : ∀ {y z}, (x, y) ∈ redirects → (x, z) ∉ groups.flatMap Group.redirects := by
      intro y z hy hz
      obtain ⟨g, hg, m, hm, rfl, -⟩ := hsource hz
      exact h.terminal m (hmember hg (habsorbed hm)) y hy
    rcases mem_append.mp hy with hy | hy <;> rcases mem_append.mp hz with hz | hz
    · exact h.functional hy hz
    · exact absurd hz (hmixed hy)
    · exact absurd hy (hmixed hz)
    · exact (Prod.mk.inj (inj_on_of_nodup_map hsources hy hz rfl)).2
  · intro x y hxy
    rcases mem_append.mp hxy with hold | hnew
    · exact h.known x y hold
    · obtain ⟨g, hg, m, hm, rfl, -⟩ := hsource hnew
      refine h.owned.mem_iff.mp (mem_flatMap.mpr ⟨m, hmember hg (habsorbed hm), ?_⟩)
      exact mem_cons_self ..

end Ledger

/-! ## Passes -/

/-- Any number of passes: the records introduced, the edges emitted and the live records. Fresh
records have new ids and have absorbed nothing. -/
inductive Passes : List ResolutionRecord → List SameAsEdge → List ResolutionRecord → Prop
  | start : Passes [] [] []
  | pass {introduced emitted live fresh batch options scorer result}
      (before : Passes introduced emitted live)
      (hids : ((introduced ++ fresh).map ResolutionRecord.id).Nodup)
      (hfresh : ∀ r ∈ fresh, r.mergedFrom = []) (hbatch : batch.Perm (live ++ fresh))
      (hrun : resolve options scorer batch = .ok result) :
      Passes (introduced ++ fresh) (emitted ++ result.sameAsEdges)
        (result.clusters.map ResolvedCluster.canonical)

theorem Passes.ledger {introduced : List ResolutionRecord} {emitted : List SameAsEdge}
    {live : List ResolutionRecord} (h : Passes introduced emitted live) :
    (introduced.map ResolutionRecord.id).Nodup ∧
      Ledger introduced (emitted.map SameAsEdge.ends) live := by
  induction h with
  | start => exact ⟨nodup_nil, .start⟩
  | @pass introduced emitted live fresh batch options scorer result _ hids hfresh hbatch hrun ih =>
    have hledger := (ih.2.extend hids hfresh).perm hbatch (.refl _)
    obtain ⟨result', hrun', groups, hmembers, hcanonical, hredirects⟩ :=
      resolve_groups (hledger.live_ids hids) options scorer
    obtain rfl := Except.ok.inj (hrun.symm.trans hrun')
    refine ⟨hids, ((hledger.perm hmembers (.refl _)).merge hids).perm hcanonical ?_⟩
    rw [map_append]
    exact hredirects.append_left _

/-- **Over any number of passes no id, surface or count is lost**, and the redirects lead from every
id to its live record. -/
theorem passes_keep {introduced : List ResolutionRecord} {emitted : List SameAsEdge}
    {live : List ResolutionRecord} (h : Passes introduced emitted live) :
    (live.flatMap fun r => r.id :: r.mergedFrom).Perm (introduced.map ResolutionRecord.id) ∧
      (introduced.map ResolutionRecord.id).Nodup ∧
      (∀ r ∈ live, ∀ x ∈ r.id :: r.mergedFrom,
        Relation.ReflTransGen (fun x y => (x, y) ∈ emitted.map SameAsEdge.ends) x r.id ∧
        (∀ t, Relation.ReflTransGen (fun x y => (x, y) ∈ emitted.map SameAsEdge.ends) x t →
          (∀ y, (t, y) ∉ emitted.map SameAsEdge.ends) → t = r.id) ∧
        ¬Relation.TransGen (fun x y => (x, y) ∈ emitted.map SameAsEdge.ends) x x) ∧
      (∀ r ∈ live, ∀ y, (r.id, y) ∉ emitted.map SameAsEdge.ends) ∧
      (live.map ResolutionRecord.mentionCount).sum =
        (introduced.map ResolutionRecord.mentionCount).sum ∧
      (∀ q ∈ introduced, ∀ s ∈ q.name :: q.aliases, strip s ≠ "" →
        ∃ r ∈ live, q.id ∈ r.id :: r.mergedFrom ∧
          ∃ t ∈ r.name :: r.aliases, strip t = strip s) ∧
      ∀ fresh batch : List ResolutionRecord,
        ((introduced ++ fresh).map ResolutionRecord.id).Nodup → (∀ r ∈ fresh, r.mergedFrom = []) →
        batch.Perm (live ++ fresh) → ∀ options scorer,
        ∃ result, resolve options scorer batch = .ok result := by
  obtain ⟨hids, hledger⟩ := h.ledger
  refine ⟨hledger.owned, hids, fun r hr x hx => ?_, hledger.terminal, hledger.count,
    hledger.surface, fun fresh batch hids' hfresh hbatch options scorer => ?_⟩
  · have hreach := hledger.reach r hr x hx
    exact ⟨hreach, fun t ht hend =>
      hledger.functional.end_unique hreach (hledger.terminal r hr) ht hend,
      hledger.functional.no_cycle hreach (hledger.terminal r hr)⟩
  · have hbatch' := (hledger.extend hids' hfresh).perm hbatch (.refl _)
    obtain ⟨result, hrun, -⟩ := resolve_groups (hbatch'.live_ids hids') options scorer
    exact ⟨result, hrun⟩

theorem passes_keep_acme : ∃ result,
    resolve (acmeOptions []) (MatchModel.standard acmeTools).scorer acmeMixed = .ok result ∧
      ((result.clusters.map ResolvedCluster.canonical).flatMap fun r => r.id :: r.mergedFrom).Perm
        (acmeMixed.map ResolutionRecord.id) := by
  obtain ⟨result, hrun, -⟩ := resolve_groups acmeMixed_ids (acmeOptions [])
    (MatchModel.standard acmeTools).scorer
  have hfresh : ∀ r ∈ acmeMixed, r.mergedFrom = [] := by
    intro r hr
    simp only [acmeMixed, mem_cons, not_mem_nil, or_false] at hr
    rcases hr with rfl | rfl | rfl | rfl <;> rfl
  exact ⟨result, hrun, (passes_keep (.pass .start acmeMixed_ids hfresh (.refl _) hrun)).1⟩

end OmniSense.Resolution
