import Mathlib.Data.Finset.Card
import OmniSense.Ingest.Evidence
import OmniSense.Library.Runs
import OmniSense.Workers.Mentions

/-! Enriched events delivered to the graph worker again and again: when every entity still counts
each of its Signals once. -/

namespace OmniSense.Workers

open Ingest Library List

namespace Named

def entityId (named : Named) : String := named.resolved.entityId

def ref (named : Named) : NodeRef := (named.entityType, named.entityId)

end Named

structure Feed where
  store : Store
  delivered : List (String × ℤ)

def Feed.start : Feed := ⟨.empty, []⟩

/-- The key of a `MENTIONS` edge. -/
def mentionRef (dg : Digest) (signalId : String) (observedAt : ℤ) (entity : NodeRef) : EdgeRef where
  group := ⟨.mentions, .signal, .entity entity.1⟩
  fromId := signalId
  toId := entity.2
  key := dg.sha256 ("\x1f".intercalate
    ["MENTIONS", signalId, entity.2, dg.isoformat observedAt, signalId ++ ":" ++ entity.2])

namespace GraphWorker

variable (w : GraphWorker) (gw : Writer) (rows : List SignalRow)

/-- The mentions of a Signal that `_resolve` finds an entity for. -/
def named (signalId : String) : List Named :=
  (rows.find? fun row => row.id = signalId).elim [] fun row =>
    (salient row.view).filterMap w.resolve

def mentioned (signalId : String) : List NodeRef := (w.named rows signalId).map Named.ref

def written (signalId : String) (observedAt : ℤ) : List GraphWrite :=
  ((w.named rows signalId).map (w.nodeWrite observedAt)).map .node ++
    ((rows.find? fun row => row.id = signalId).toList.map
      fun row => w.stub row.view observedAt).map .signal ++
    ((w.named rows signalId).map (w.edgeWrite signalId observedAt)).map .edge

def batchId (event : String × ℤ) : String :=
  batchIdFor gw.digest (.of (w.written rows event.1 event.2))

def deliver (s : Feed) (event : String × ℤ) : Option Feed :=
  let row := rows.find? fun row => row.id = event.1
  match (w.handle gw row event.2 .answered s.store).2 with
  | .ok _ => some
      ⟨(w.handle gw row event.2 .answered s.store).1, s.delivered ++ [event]⟩
  | .error _ => none

/-- No Signal names an entity twice; an event comes again only at the time it came before and while
each of its entities was last written by the same batch; hashes do not collide. -/
def Recognised (s : Feed) (event : String × ℤ) : Prop :=
  ((w.named rows event.1).map Named.entityId).Nodup ∧
  ((w.mentioned rows event.1).map fun r => (mentionRef gw.digest event.1 event.2 r).key).Nodup ∧
  ∀ r ∈ w.mentioned rows event.1,
    if event.1 ∈ s.delivered.map Prod.fst then
      (∀ earlier ∈ s.delivered, earlier.1 = event.1 → earlier.2 = event.2) ∧
        s.store.lastBatch (.node r) = some (w.batchId gw rows event)
    else s.store.lastBatch (.node r) ≠ some (w.batchId gw rows event)

instance (s : Feed) (event : String × ℤ) : Decidable (w.Recognised gw rows s event) :=
  inferInstanceAs (Decidable (_ ∧ _ ∧ ∀ r ∈ w.mentioned rows event.1, _))

/-- A `MENTIONS` edge from the Signal to the entity. -/
def IsMention (s : Feed) (signalId : String) (entity : NodeRef) (r : EdgeRef) : Prop :=
  r.group = ⟨.mentions, .signal, .entity entity.1⟩ ∧ r.fromId = signalId ∧ r.toId = entity.2 ∧
    (s.store.edges r).isSome

/-- Every entity counts the delivered Signals that mention it, and each of these has one edge to it
with a count of one. -/
structure CountedOnce (s : Feed) : Prop where
  sources : ∀ r, s.store.count (.node r) =
    ((s.delivered.map Prod.fst).toFinset.filter fun g => r ∈ w.mentioned rows g).card
  edges : ∀ g r, g ∈ s.delivered.map Prod.fst → r ∈ w.mentioned rows g →
    ∃ edge, IsMention s g r edge ∧ s.store.count (.edge edge) = 1 ∧
      ∀ other, IsMention s g r other → other = edge
  noOthers : ∀ g r edge, IsMention s g r edge →
    g ∈ s.delivered.map Prod.fst ∧ r ∈ w.mentioned rows g

variable {w gw rows} {s s' : Feed} {event : String × ℤ} {signalId : String} {observedAt : ℤ}

/-! ## What a Signal's batch does to each counter -/

theorem of_parts (nodes : List NodeWrite) (signals : List SignalStub) (edges : List EdgeWrite) :
    GraphBatch.of (nodes.map .node ++ signals.map .signal ++ edges.map .edge) =
      ⟨nodes, signals, edges⟩ := by
  unfold GraphBatch.of
  simp [filterMap_append, filterMap_map, Function.comp_def, GraphWrite.asNode,
    GraphWrite.asSignal, GraphWrite.asEdge]

def targetId : CountKey → String
  | .node r => r.2
  | .edge edge => edge.toId

variable {k : CountKey}

theorem totalDelta_map {f : Named → GraphWrite} {key : Named → CountKey}
    {ns : List Named} (hkey : ∀ n, (f n).countKey gw.digest = some (key n))
    (hdelta : ∀ n, (f n).delta = 1) (hnodup : (ns.map key).Nodup) :
    totalDelta gw.digest k (ns.map f) = if k ∈ ns.map key then 1 else 0 := by
  induction ns with
  | nil => rfl
  | cons n ns ih =>
    rw [map_cons, nodup_cons] at hnodup
    rw [map_cons, totalDelta_cons, ih hnodup.2, hkey, hdelta, map_cons]
    by_cases hk : key n = k
    · subst hk
      rw [if_pos rfl, if_neg hnodup.1, if_pos mem_cons_self]
    · rw [if_neg (fun h => hk (Option.some.inj h)), zero_add]
      simp only [mem_cons, Ne.symm hk, false_or]

theorem touches_append {xs ys : List GraphWrite} :
    Touches gw.digest (xs ++ ys) k ↔ Touches gw.digest xs k ∨ Touches gw.digest ys k := by
  unfold Touches
  simp only [mem_append, or_and_right, exists_or]

theorem touches_map {f : Named → GraphWrite} {key : Named → CountKey}
    {ns : List Named} (hkey : ∀ n, (f n).countKey gw.digest = some (key n)) :
    Touches gw.digest (ns.map f) k ↔ k ∈ ns.map key := by
  unfold Touches
  simp only [mem_map, exists_exists_and_eq_and, hkey, Option.some.injEq]

theorem not_touches_signals {stubs : List SignalStub} :
    ¬Touches gw.digest (stubs.map .signal) k := by
  rintro ⟨x, hx, hk⟩
  obtain ⟨stub, -, rfl⟩ := mem_map.mp hx
  cases hk

theorem written_sources (hnodup : ((w.named rows signalId).map Named.entityId).Nodup)
    (r : NodeRef) :
    (Touches gw.digest (w.written rows signalId observedAt) (.node r) ↔
      r ∈ w.mentioned rows signalId) ∧
    totalDelta gw.digest (.node r) (w.written rows signalId observedAt) =
      if r ∈ w.mentioned rows signalId then 1 else 0 := by
  have hkey : ∀ n, ((GraphWrite.node ∘ w.nodeWrite observedAt) n).countKey gw.digest =
      some (.node n.ref) := fun _ => rfl
  have hmem : (CountKey.node r ∈ (w.named rows signalId).map fun n => CountKey.node n.ref) ↔
      r ∈ w.mentioned rows signalId := by
    unfold mentioned
    simp only [mem_map, CountKey.node.injEq]
  have hdistinct : ((w.named rows signalId).map fun n => CountKey.node n.ref).Nodup := by
    refine List.Nodup.of_map targetId ?_
    rw [map_map]
    exact hnodup
  have hedges : ¬Touches gw.digest
      (((w.named rows signalId).map (w.edgeWrite signalId observedAt)).map .edge) (.node r) := by
    rintro ⟨x, hx, hk⟩
    obtain ⟨e, -, rfl⟩ := mem_map.mp hx
    cases hk
  unfold written
  rw [touches_append, touches_append, totalDelta_append, totalDelta_append, map_map,
    touches_map hkey, totalDelta_map hkey (fun _ => rfl) hdistinct,
    totalDelta_of_not_touches not_touches_signals, totalDelta_of_not_touches hedges]
  simp only [hmem, not_touches_signals, hedges, or_false, add_zero, and_self]

theorem written_evidence (hnodup : ((w.named rows signalId).map Named.entityId).Nodup)
    (edge : EdgeRef) :
    (Touches gw.digest (w.written rows signalId observedAt) (.edge edge) ↔
      edge ∈ (w.mentioned rows signalId).map (mentionRef gw.digest signalId observedAt)) ∧
    totalDelta gw.digest (.edge edge) (w.written rows signalId observedAt) =
      if edge ∈ (w.mentioned rows signalId).map (mentionRef gw.digest signalId observedAt) then 1
      else 0 := by
  have hkey : ∀ n,
      ((GraphWrite.edge ∘ w.edgeWrite signalId observedAt) n).countKey gw.digest =
        some (.edge (mentionRef gw.digest signalId observedAt n.ref)) := fun _ => rfl
  have hmem : (CountKey.edge edge ∈ (w.named rows signalId).map fun n =>
      CountKey.edge (mentionRef gw.digest signalId observedAt n.ref)) ↔
        edge ∈ (w.mentioned rows signalId).map (mentionRef gw.digest signalId observedAt) := by
    unfold mentioned
    simp only [mem_map, CountKey.edge.injEq, exists_exists_and_eq_and]
  have hdistinct : ((w.named rows signalId).map fun n =>
      CountKey.edge (mentionRef gw.digest signalId observedAt n.ref)).Nodup := by
    refine List.Nodup.of_map targetId ?_
    rw [map_map]
    exact hnodup
  have hnodes : ¬Touches gw.digest
      (((w.named rows signalId).map (w.nodeWrite observedAt)).map .node) (.edge edge) := by
    rintro ⟨x, hx, hk⟩
    obtain ⟨n, -, rfl⟩ := mem_map.mp hx
    cases hk
  unfold written
  rw [touches_append, touches_append, totalDelta_append, totalDelta_append,
    map_map (f := w.edgeWrite signalId observedAt),
    touches_map hkey, totalDelta_map hkey (fun _ => rfl) hdistinct,
    totalDelta_of_not_touches not_touches_signals, totalDelta_of_not_touches hnodes]
  simp only [hmem, not_touches_signals, hnodes, false_or, zero_add, and_self]

/-! ## One delivery -/

theorem foldl_addMention {mentions : List (List (String × Json))} {built : Built}
    (hnew : ∀ n ∈ mentions.filterMap w.resolve, n.entityId ∉ built.seenIds)
    (hnodup : ((mentions.filterMap w.resolve).map Named.entityId).Nodup) :
    mentions.foldl (w.addMention signalId observedAt) built =
      ⟨built.seenIds ++ (mentions.filterMap w.resolve).map Named.entityId,
        built.nodes ++ (mentions.filterMap w.resolve).map (w.nodeWrite observedAt),
        built.edges ++ (mentions.filterMap w.resolve).map (w.edgeWrite signalId observedAt)⟩ := by
  induction mentions generalizing built with
  | nil => simp
  | cons mention mentions ih =>
    rw [foldl_cons]
    cases hresolve : w.resolve mention with
    | none =>
      have hadd : w.addMention signalId observedAt built mention = built := by
        unfold addMention
        rw [hresolve]
      rw [filterMap_cons_none hresolve] at hnew hnodup ⊢
      rw [hadd, ih hnew hnodup]
    | some n =>
      rw [filterMap_cons_some hresolve] at hnew hnodup ⊢
      obtain ⟨hn, hnew⟩ := forall_mem_cons.mp hnew
      rw [map_cons, nodup_cons] at hnodup
      have hadd : w.addMention signalId observedAt built mention =
          ⟨built.seenIds ++ [n.entityId], built.nodes ++ [w.nodeWrite observedAt n],
            built.edges ++ [w.edgeWrite signalId observedAt n]⟩ := by
        unfold addMention
        rw [hresolve]
        have hunseen : n.resolved.entityId ∉ built.seenIds := hn
        dsimp only
        rw [if_neg hunseen, if_neg hunseen]
        rfl
      rw [hadd, ih ?_ hnodup.2]
      · simp only [map_cons, append_assoc, singleton_append]
      · intro other hother hmem
        rcases mem_append.mp hmem with hmem | hmem
        · exact hnew other hother hmem
        · refine hnodup.1 ?_
          rw [← mem_singleton.mp hmem]
          exact mem_map_of_mem hother

theorem find_row {row : SignalRow} (hrow : (rows.find? fun row => row.id = signalId) = some row) :
    row.id = signalId := by
  have hid := List.find?_some hrow
  exact of_decide_eq_true hid

theorem buildBatch_written {row : SignalRow}
    (hrow : (rows.find? fun row => row.id = signalId) = some row)
    (hnodup : ((w.named rows signalId).map Named.entityId).Nodup) :
    w.buildBatch row.view observedAt =
      if w.named rows signalId = [] then none
      else some (.of (w.written rows signalId observedAt)) := by
  have hpublished : row.view.publishedAt = none := by
    simp [SignalRow.view, SignalRow.getattr]
  have hid : row.view.id = signalId := find_row hrow
  have hnamed : w.named rows signalId = (salient row.view).filterMap w.resolve := by
    unfold named
    rw [hrow]
    rfl
  have hbuilt := @foldl_addMention w signalId observedAt (salient row.view) ⟨[], [], []⟩
    (fun _ _ => not_mem_nil) (hnamed ▸ hnodup)
  unfold buildBatch written
  dsimp only
  rw [hpublished, hid, Option.getD_none, hbuilt, of_parts, hrow, ← hnamed]
  simp only [nil_append, isEmpty_map, Option.toList_some, map_cons, map_nil]
  cases w.named rows signalId <;> rfl

theorem deliver_cases (hsink : w.sink = .writer)
    (hnodup : ((w.named rows event.1).map Named.entityId).Nodup)
    (hstep : w.deliver gw rows s event = some s') :
    s'.delivered = s.delivered ++ [event] ∧
      ((w.named rows event.1 = [] ∧ s'.store = s.store) ∨
        (s'.store = committed gw (w.written rows event.1 event.2) s.store ∧
          ((GraphBatch.of (w.written rows event.1 event.2)).plan gw.digest).verify
            (.of (w.written rows event.1 event.2)) s'.store = .ok ())) := by
  unfold deliver at hstep
  cases hrow : rows.find? fun row => row.id = event.1 with
  | none =>
    rw [hrow] at hstep
    cases hstep
    refine ⟨rfl, .inl ⟨?_, rfl⟩⟩
    unfold named
    rw [hrow]
    rfl
  | some row =>
    have hcanonical : row.view.isCanonical = true := by
      simp [SignalRow.view, SignalRow.getattr]
    have hbatch := @buildBatch_written w rows event.1 event.2 row hrow hnodup
    rw [hrow] at hstep
    unfold handle at hstep
    dsimp only at hstep
    rw [hcanonical, hbatch, hsink] at hstep
    by_cases hnone : w.named rows event.1 = []
    · rw [if_pos hnone] at hstep
      cases hstep
      exact ⟨rfl, .inl ⟨hnone, rfl⟩⟩
    · obtain ⟨n, hn⟩ := exists_mem_of_ne_nil _ hnone
      have htouch : Touches gw.digest (w.written rows event.1 event.2) (.node n.ref) :=
        (written_sources hnodup n.ref).1.mpr (mem_map_of_mem hn)
      rw [if_neg hnone] at hstep
      rcases apply_cases gw (w.written rows event.1 event.2) .answered s.store with
        ⟨hempty, -⟩ | ⟨hcommits, -⟩ | ⟨-, hstore, hverified⟩
      · exact absurd htouch (hempty _)
      · cases hcommits
      · cases hresult : (gw.apply (.of (w.written rows event.1 event.2)) .answered s.store).2 with
        | error err =>
          simp [hresult, Except.map, Except.mapError] at hstep
        | ok outcome =>
          simp only [hresult, Except.map, Except.mapError, Bool.not_true, Bool.false_eq_true,
            if_false, Option.some.injEq] at hstep
          subst hstep
          exact ⟨rfl, .inr ⟨hstore, hstore ▸ hverified outcome hresult⟩⟩

theorem written_separate
    (hkeys : ((w.mentioned rows signalId).map fun r =>
      (mentionRef gw.digest signalId observedAt r).key).Nodup) :
    KeysSeparate gw.digest (w.written rows signalId observedAt) := by
  have hsource : ∀ e, GraphWrite.edge e ∈ w.written rows signalId observedAt →
      ∃ r ∈ w.mentioned rows signalId, e.ref gw.digest = mentionRef gw.digest signalId observedAt r := by
    intro e he
    have hedge := mem_asEdge_iff.mpr he
    have hparts : (w.written rows signalId observedAt).filterMap GraphWrite.asEdge =
        (w.named rows signalId).map (w.edgeWrite signalId observedAt) :=
      congrArg GraphBatch.edges (of_parts _ _ _)
    rw [hparts] at hedge
    obtain ⟨n, hn, rfl⟩ := mem_map.mp hedge
    exact ⟨n.ref, mem_map_of_mem hn, rfl⟩
  intro e e' he he' _ hkey
  obtain ⟨r, hr, href⟩ := hsource e he
  obtain ⟨r', hr', href'⟩ := hsource e' he'
  have hsame : r = r' := by
    refine inj_on_of_nodup_map hkeys hr hr' ?_
    rw [← href, ← href']
    exact hkey
  rw [href, href', hsame]

/-! ## Every delivery -/

structure Sound (w : GraphWorker) (gw : Writer) (rows : List SignalRow) (s : Feed) : Prop where
  sources : ∀ r, s.store.count (.node r) =
    ((s.delivered.map Prod.fst).toFinset.filter fun g => r ∈ w.mentioned rows g).card
  evidence : ∀ event ∈ s.delivered, ∀ r ∈ w.mentioned rows event.1,
    s.store.count (.edge (mentionRef gw.digest event.1 event.2 r)) = 1 ∧
      s.store.lastBatch (.edge (mentionRef gw.digest event.1 event.2 r)) =
        some (w.batchId gw rows event)
  origin : ∀ edge, (s.store.edges edge).isSome → ∃ event ∈ s.delivered,
    ∃ r ∈ w.mentioned rows event.1, edge = mentionRef gw.digest event.1 event.2 r
  times : ∀ event ∈ s.delivered, ∀ other ∈ s.delivered, other.1 = event.1 →
    w.mentioned rows event.1 ≠ [] → other.2 = event.2

theorem isSome_of_lastBatch {store : Store} {edge : EdgeRef} {batch : String}
    (h : store.lastBatch (.edge edge) = some batch) : (store.edges edge).isSome := by
  obtain ⟨record, hrecord, -⟩ := Option.bind_eq_some_iff.mp h
  exact Option.isSome_of_eq_some hrecord

theorem Sound.countedOnce (h : Sound w gw rows s) : w.CountedOnce rows s := by
  -- An edge from a Signal to an entity comes from one of the Signal's deliveries.
  have hfrom : ∀ g r edge, IsMention s g r edge → ∃ event ∈ s.delivered, event.1 = g ∧
      r ∈ w.mentioned rows g ∧ edge = mentionRef gw.digest g event.2 r := by
    rintro g r edge ⟨hgroup, hsource, htarget, hsome⟩
    obtain ⟨event, hevent, r', hr', rfl⟩ := h.origin edge hsome
    obtain rfl : event.1 = g := hsource
    have hr : r' = r := by
      refine Prod.ext ?_ htarget
      exact Label.entity.inj (congrArg EdgeGroup.toLabel hgroup)
    subst hr
    exact ⟨event, hevent, rfl, hr', rfl⟩
  refine ⟨h.sources, fun g r hg hr => ?_, fun g r edge hedge => ?_⟩
  · obtain ⟨event, hevent, rfl⟩ := mem_map.mp hg
    obtain ⟨hcount, hlast⟩ := h.evidence event hevent r hr
    refine ⟨_, ⟨rfl, rfl, rfl, isSome_of_lastBatch hlast⟩, hcount, fun other hother => ?_⟩
    obtain ⟨event', hevent', hsame, -, rfl⟩ := hfrom _ _ _ hother
    rw [h.times event hevent event' hevent' hsame (ne_nil_of_mem hr)]
  · obtain ⟨event, hevent, rfl, hr, -⟩ := hfrom _ _ _ hedge
    exact ⟨mem_map_of_mem hevent, hr⟩

theorem sources_card (delivered : List (String × ℤ)) (event : String × ℤ) (r : NodeRef) :
    (((delivered ++ [event]).map Prod.fst).toFinset.filter fun g => r ∈ w.mentioned rows g).card =
      ((delivered.map Prod.fst).toFinset.filter fun g => r ∈ w.mentioned rows g).card +
        if r ∈ w.mentioned rows event.1 ∧ event.1 ∉ delivered.map Prod.fst then 1 else 0 := by
  have hinsert : ((delivered ++ [event]).map Prod.fst).toFinset =
      insert event.1 (delivered.map Prod.fst).toFinset := by
    ext g
    simp only [mem_toFinset, map_append, mem_append, map_cons, map_nil,
      mem_singleton, Finset.mem_insert, or_comm]
  rw [hinsert, Finset.filter_insert]
  by_cases hr : r ∈ w.mentioned rows event.1
  · rw [if_pos hr]
    by_cases hold : event.1 ∈ delivered.map Prod.fst
    · rw [Finset.insert_eq_of_mem, if_neg fun h => h.2 hold, add_zero]
      exact Finset.mem_filter.mpr ⟨mem_toFinset.mpr hold, hr⟩
    · rw [Finset.card_insert_of_notMem, if_pos ⟨hr, hold⟩]
      exact fun h => hold (mem_toFinset.mp (Finset.mem_filter.mp h).1)
  · rw [if_neg hr, if_neg fun h => hr h.1, add_zero]

theorem Sound.before (h : Sound w gw rows s) (hmeets : w.Recognised gw rows s event)
    {r : NodeRef} (hr : r ∈ w.mentioned rows event.1) :
    (event.1 ∉ s.delivered.map Prod.fst ∧
      s.store.edges (mentionRef gw.digest event.1 event.2 r) = none ∧
      s.store.lastBatch (.node r) ≠ some (w.batchId gw rows event)) ∨
    (event ∈ s.delivered ∧ event.1 ∈ s.delivered.map Prod.fst ∧
      s.store.lastBatch (.node r) = some (w.batchId gw rows event)) := by
  have hguard := hmeets.2.2 r hr
  by_cases hold : event.1 ∈ s.delivered.map Prod.fst
  · rw [if_pos hold] at hguard
    obtain ⟨earlier, hearlier, hsame⟩ := mem_map.mp hold
    have htime := hguard.1 earlier hearlier hsame
    have hevent : earlier = event := Prod.ext hsame htime
    exact .inr ⟨hevent ▸ hearlier, hold, hguard.2⟩
  · rw [if_neg hold] at hguard
    refine .inl ⟨hold, ?_, hguard⟩
    by_contra hsome
    obtain ⟨other, hother, _, _, heq⟩ := h.origin _ (Option.isSome_iff_ne_none.mpr hsome)
    have hid : event.1 = other.1 := congrArg EdgeRef.fromId heq
    exact hold (hid ▸ mem_map_of_mem hother)

theorem Sound.deliver_nothing (h : Sound w gw rows s) (hnone : w.named rows event.1 = [])
    (hdelivered : s'.delivered = s.delivered ++ [event]) (hstore : s'.store = s.store) :
    Sound w gw rows s' := by
  have hmentioned : w.mentioned rows event.1 = [] := by
    unfold mentioned
    rw [hnone]
    rfl
  have hold : ∀ d ∈ s'.delivered, w.mentioned rows d.1 ≠ [] → d ∈ s.delivered := by
    intro d hd hne
    rw [hdelivered] at hd
    rcases mem_append.mp hd with hd | hd
    · exact hd
    · exact absurd (mem_singleton.mp hd ▸ hmentioned) hne
  constructor
  · intro r
    rw [hdelivered, hstore, sources_card, h.sources, hmentioned,
      if_neg fun hr => not_mem_nil hr.1, add_zero]
  · intro d hd r hr
    rw [hstore]
    exact h.evidence d (hold d hd (ne_nil_of_mem hr)) r hr
  · intro edge hedge
    rw [hstore] at hedge
    obtain ⟨d, hd, r, hr, heq⟩ := h.origin edge hedge
    exact ⟨d, hdelivered ▸ mem_append_left _ hd, r, hr, heq⟩
  · intro d hd other hother hsame hne
    exact h.times d (hold d hd hne) other (hold other hother (hsame ▸ hne)) hsame hne

theorem Sound.deliver_batch (h : Sound w gw rows s) (hmeets : w.Recognised gw rows s event)
    (hdelivered : s'.delivered = s.delivered ++ [event])
    (hstore : s'.store = committed gw (w.written rows event.1 event.2) s.store)
    (hverified : ((GraphBatch.of (w.written rows event.1 event.2)).plan gw.digest).verify
      (.of (w.written rows event.1 event.2)) s'.store = .ok ()) : Sound w gw rows s' := by
  have hnodup := hmeets.1
  have hsep := @written_separate w gw rows event.1 event.2 hmeets.2.1
  -- What the transaction does to a counter that it touches.
  have hcounted : ∀ k, Touches gw.digest (w.written rows event.1 event.2) k →
      Counted gw.digest (w.written rows event.1 event.2) s.store s'.store k := by
    intro k hk
    rw [hstore] at hverified ⊢
    exact ((committed_spec s.store hsep k).1 hk).resolve_right fun hkept => hkept.2 hverified
  have hkept : ∀ k, ¬Touches gw.digest (w.written rows event.1 event.2) k →
      Kept s.store s'.store k := by
    intro k hk
    rw [hstore]
    exact (committed_spec s.store hsep k).2 hk
  have hevidence : ∀ r ∈ w.mentioned rows event.1,
      s'.store.count (.edge (mentionRef gw.digest event.1 event.2 r)) = 1 ∧
        s'.store.lastBatch (.edge (mentionRef gw.digest event.1 event.2 r)) =
          some (w.batchId gw rows event) := by
    intro r hr
    obtain ⟨htouches, hdelta⟩ := @written_evidence w gw rows event.1 event.2 hnodup
      (mentionRef gw.digest event.1 event.2 r)
    have hmem := mem_map_of_mem (f := mentionRef gw.digest event.1 event.2) hr
    obtain ⟨hbatch, hcount⟩ := hcounted _ (htouches.mpr hmem)
    refine ⟨?_, hbatch⟩
    rw [if_pos hmem] at hdelta
    rw [hcount, hdelta]
    rcases h.before hmeets hr with ⟨-, hnone, -⟩ | ⟨hevent, -, -⟩
    · have hzero : s.store.count (.edge (mentionRef gw.digest event.1 event.2 r)) = 0 :=
        congrArg (fun o => o.elim 0 EdgeRecord.evidenceCount) hnone
      have hlast : s.store.lastBatch (.edge (mentionRef gw.digest event.1 event.2 r)) = none :=
        congrArg (fun o => o.bind EdgeRecord.lastBatchId) hnone
      rw [hzero, hlast, if_neg (Option.some_ne_none _).symm]
    · obtain ⟨hone, hlast⟩ := h.evidence event hevent r hr
      rw [hone, hlast]
      exact congrArg (1 + ·) (if_pos rfl)
  have hsame : ∀ d ∈ s'.delivered, d.1 = event.1 → w.mentioned rows event.1 ≠ [] → d = event := by
    intro d hd hid hne
    rw [hdelivered] at hd
    rcases mem_append.mp hd with hd | hd
    · obtain ⟨r, hr⟩ := exists_mem_of_ne_nil _ hne
      rcases h.before hmeets hr with ⟨hold, -, -⟩ | ⟨hevent, -, -⟩
      · exact absurd (hid ▸ mem_map_of_mem hd) hold
      · exact Prod.ext hid (h.times event hevent d hd hid hne)
    · exact mem_singleton.mp hd
  have holder : ∀ d ∈ s'.delivered, d.1 ≠ event.1 → d ∈ s.delivered := by
    intro d hd hne
    rw [hdelivered] at hd
    rcases mem_append.mp hd with hd | hd
    · exact hd
    · exact absurd (congrArg Prod.fst (mem_singleton.mp hd)) hne
  constructor
  · intro r
    obtain ⟨htouches, hdelta⟩ := @written_sources w gw rows event.1 event.2 hnodup r
    rw [hdelivered, sources_card, ← h.sources]
    by_cases hr : r ∈ w.mentioned rows event.1
    · rw [if_pos hr] at hdelta
      rw [(hcounted _ (htouches.mpr hr)).count, hdelta]
      rcases h.before hmeets hr with ⟨hnew, -, hlast⟩ | ⟨-, hold, hlast⟩
      · have hother : s.store.lastBatch (.node r) ≠
            some (batchIdFor gw.digest (.of (w.written rows event.1 event.2))) := hlast
        rw [if_neg hother, if_pos ⟨hr, hnew⟩]
      · have hagain : s.store.lastBatch (.node r) =
            some (batchIdFor gw.digest (.of (w.written rows event.1 event.2))) := hlast
        rw [if_pos hagain, if_neg fun hnew => hnew.2 hold]
    · rw [(hkept _ fun htouch => hr (htouches.mp htouch)).count, if_neg fun hnew => hr hnew.1]
      rfl
  · intro d hd r hr
    by_cases hid : d.1 = event.1
    · have hne : w.mentioned rows event.1 ≠ [] := by
        rw [← hid]
        exact ne_nil_of_mem hr
      rw [hsame d hd hid hne] at hr ⊢
      exact hevidence r hr
    · obtain ⟨hone, hlast⟩ := h.evidence d (holder d hd hid) r hr
      have hother : ¬Touches gw.digest (w.written rows event.1 event.2)
          (.edge (mentionRef gw.digest d.1 d.2 r)) := by
        rw [(written_evidence hnodup _).1]
        intro hmem
        obtain ⟨r', -, heq⟩ := mem_map.mp hmem
        exact hid (congrArg EdgeRef.fromId heq).symm
      obtain ⟨hbatch, hcount⟩ := hkept _ hother
      exact ⟨hcount.trans hone, hbatch.trans hlast⟩
  · intro edge hedge
    by_cases htouch : Touches gw.digest (w.written rows event.1 event.2) (.edge edge)
    · obtain ⟨r, hr, heq⟩ := mem_map.mp ((written_evidence hnodup edge).1.mp htouch)
      exact ⟨event, hdelivered ▸ mem_append_right _ mem_cons_self, r, hr, heq.symm⟩
    · rw [hstore, committed_edges htouch] at hedge
      obtain ⟨d, hd, r, hr, heq⟩ := h.origin edge hedge
      exact ⟨d, hdelivered ▸ mem_append_left _ hd, r, hr, heq⟩
  · intro d hd other hother hid hne
    by_cases hev : d.1 = event.1
    · rw [hsame d hd hev (hev ▸ hne), hsame other hother (hid.trans hev) (hev ▸ hne)]
    · exact h.times d (holder d hd hev) other (holder other hother (hid ▸ hev)) hid hne

theorem start_sound : Sound w gw rows .start := by
  constructor
  · intro r
    rfl
  · intro d hd
    exact absurd hd not_mem_nil
  · intro edge hedge
    cases hedge
  · intro d hd
    exact absurd hd not_mem_nil

/-- As long as every delivery is recognised for what it is, every Signal is counted once. -/
theorem counted_once (w : GraphWorker) (gw : Writer) (rows : List SignalRow)
    (hsink : w.sink = .writer) (events : List (String × ℤ)) (s : Feed)
    (hmeets : Along (w.deliver gw rows) (w.Recognised gw rows) .start events)
    (hrun : runs (w.deliver gw rows) .start events = some s) : w.CountedOnce rows s := by
  have hsound : Sound w gw rows s := by
    refine runs_keeps (fun s event s' h hmeets hstep => ?_) start_sound hmeets hrun
    obtain ⟨hdelivered, hcases⟩ := deliver_cases hsink hmeets.1 hstep
    rcases hcases with ⟨hnone, hstore⟩ | ⟨hstore, hverified⟩
    · exact h.deliver_nothing hnone hdelivered hstore
    · exact h.deliver_batch hmeets hdelivered hstore hverified
  exact hsound.countedOnce

def acme : String := "ent_8c727271-9bb6-5fd0-99fb-2e71dc7914bb"
def globex : String := "ent_adf74511-f260-56c9-af86-a6a5eef88968"

def sampleHashes : List (List String × String × String) :=
  [(["sig_1", acme, "1970-01-01T00:00:00.000000+00:00"],
      "586a918d5cbf1da017ab8dba7e5ed29b", "6bd048590374bc462e3b54b763cbdf90"),
    (["sig_2", globex, "1970-01-01T00:00:00.000000+00:00"],
      "a39398967ef655ad92e6f7d25a24eb87", "6ebbab2df906e99168c287a9b9b5a504"),
    (["sig_1", acme, "1970-01-01T00:00:00.000001+00:00"],
      "c6a35479c2a5f13ddfa2f626bb86c47c", "74d2df570f4101d9b3f569766b9bed04")]

def sampleSha256 (s : String) : String :=
  let known := sampleHashes.flatMap fun h =>
    let signalId := h.1.headD ""
    let entityId := (h.1.tail).headD ""
    [("\x1f".intercalate (["MENTIONS"] ++ h.1 ++ [signalId ++ ":" ++ entityId]), h.2.1),
      ("\x1e".intercalate ["e\x1f" ++ h.2.1 ++ "\x1f1", "n\x1fCompany\x1f" ++ entityId ++ "\x1f1",
        "s\x1f" ++ signalId], h.2.2)]
  ((known.find? fun h => h.1 = s).map Prod.snd).getD s

def sampleGraphWriter : Writer where
  schema := nodeSchema fun _ => []
  digest :=
    { sha256 := sampleSha256
      isoformat := fun t =>
        if t = 0 then "1970-01-01T00:00:00.000000+00:00" else "1970-01-01T00:00:00.000001+00:00" }
  schemaVersion := 1

/-- Two Signals with a mention each in the shape that `_resolve` reads. -/
def sampleRows : List SignalRow :=
  [⟨"sig_1", "news", "rss", 0, [.object [("name", .str "Acme"), ("type", .str "Company")]],
      "enriched", none⟩,
    ⟨"sig_2", "news", "rss", 0, [.object [("name", .str "Globex Inc."), ("type", .str "company")]],
      "enriched", none⟩]

/-- The first event comes again at the same reading of the clock, after one about another company. -/
theorem counted_once_again : ∃ s, runs (sampleWorker.deliver sampleGraphWriter sampleRows) .start
    [("sig_1", 0), ("sig_2", 0), ("sig_1", 0)] = some s ∧
      sampleWorker.CountedOnce sampleRows s := by
  have hsome : (runs (sampleWorker.deliver sampleGraphWriter sampleRows) .start
      [("sig_1", 0), ("sig_2", 0), ("sig_1", 0)]).isSome = true := by decide +kernel
  obtain ⟨s, hs⟩ := Option.isSome_iff_exists.mp hsome
  exact ⟨s, hs, counted_once sampleWorker sampleGraphWriter sampleRows rfl _ s
    (by decide +kernel) hs⟩

/-- The event comes again a microsecond later, and the company counts the Signal twice. -/
theorem redelivery_counted_twice : ∃ s,
    runs (sampleWorker.deliver sampleGraphWriter sampleRows) .start
      [("sig_1", 0), ("sig_1", 1)] = some s ∧ ¬ sampleWorker.CountedOnce sampleRows s := by
  have hsome : (runs (sampleWorker.deliver sampleGraphWriter sampleRows) .start
      [("sig_1", 0), ("sig_1", 1)]).isSome = true := by decide +kernel
  have hcount : ∀ s ∈ runs (sampleWorker.deliver sampleGraphWriter sampleRows) .start
      [("sig_1", 0), ("sig_1", 1)], s.store.count (.node (.company, acme)) = 2 ∧
        s.delivered.map Prod.fst = ["sig_1", "sig_1"] := by decide +kernel
  obtain ⟨s, hs⟩ := Option.isSome_iff_exists.mp hsome
  refine ⟨s, hs, fun h => ?_⟩
  obtain ⟨htwo, hdelivered⟩ := hcount s hs
  have hsources := h.sources (.company, acme)
  rw [htwo, hdelivered] at hsources
  have hle := hsources.le.trans (Finset.card_filter_le _ _)
  exact absurd hle (by decide)

end GraphWorker

end OmniSense.Workers
