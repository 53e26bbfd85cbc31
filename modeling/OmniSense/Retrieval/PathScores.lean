import OmniSense.Library.Walks
import OmniSense.Retrieval.Traversal

/-! Path scores: hop-wise they are sums over the rows of each hop, and the fold over the rows gives
these sums in every order unless a row starts where another one of the same hop ends. -/

namespace OmniSense.Retrieval

open Library List

/-! ## One row -/

namespace EdgeRow

variable (row : EdgeRow)

def source : String := textOf row.fromId

def target : String := textOf row.toId

def usable : Bool := row.source ≠ "" ∧ row.target ≠ ""

def strength : ℚ := row.confidence.getD DEFAULT_EDGE_CONFIDENCE

def arc (decay : ℚ) (row : EdgeRow) : Arc String ℚ := ⟨row.source, row.target, row.strength * decay⟩

end EdgeRow

variable (n : Neighbour)

def Neighbour.labelled (row : EdgeRow) : Neighbour :=
  if n.label = "" then { n with label := textOf row.fromLabel } else n

def EdgeRow.neighbour (row : EdgeRow) (hop : ℕ) (score : ℚ) : Neighbour where
  entityId := row.target
  name := textOf row.toName
  label := textOf row.toLabel
  hop := hop
  pathScore := score
  viaEdge := textOf row.edgeType

section

variable {decay : ℚ} {hop : ℕ} {s : Absorption} {row : EdgeRow} {parent : Neighbour}

theorem absorbRow_skips (h : row.usable = false) : absorbRow decay hop s row = s := by
  have hblank : textOf row.fromId = "" ∨ textOf row.toId = "" := by
    by_contra hboth
    rw [not_or] at hboth
    have husable : row.usable = true := decide_eq_true hboth
    rw [h] at husable
    cases husable
  exact if_pos hblank

def Absorption.relabelled (s : Absorption) (row : EdgeRow) (parent : Neighbour) :
    Dict String Neighbour :=
  if parent.label = "" then s.nodes.set row.source { parent with label := textOf row.fromLabel }
  else s.nodes

theorem get?_relabelled (hparent : s.nodes.get? row.source = some parent) (v : String) :
    (s.relabelled row parent).get? v =
      if v = row.source then some (parent.labelled row) else s.nodes.get? v := by
  unfold Absorption.relabelled Neighbour.labelled
  split_ifs with hlabel hv hv
  · rw [Dict.get?_set, if_pos hv]
  · rw [Dict.get?_set, if_neg hv]
  · rw [hv, hparent]
  · rfl

def Neighbour.raised (contribution : ℚ) : Neighbour :=
  { n with pathScore := n.pathScore + contribution }

def EdgeRow.reached (row : EdgeRow) (hop : ℕ) (before : Option Neighbour) (contribution : ℚ) :
    Neighbour :=
  before.elim (row.neighbour hop contribution) fun existing => existing.raised contribution

theorem absorbRow_eq (husable : row.usable = true)
    (hparent : s.nodes.get? row.source = some parent) :
    (absorbRow decay hop s row).nodes = (s.relabelled row parent).set row.target
        (row.reached hop ((s.relabelled row parent).get? row.target)
          (parent.pathScore * row.strength * decay)) ∧
      (absorbRow decay hop s row).discovered =
        if ((s.relabelled row parent).get? row.target).isSome then s.discovered
        else s.discovered ++ [row.neighbour hop (parent.pathScore * row.strength * decay)] := by
  have hids : ¬(textOf row.fromId = "" ∨ textOf row.toId = "") :=
    not_or.mpr (of_decide_eq_true husable)
  have hget : s.nodes.get? (textOf row.fromId) = some parent := hparent
  unfold absorbRow
  rw [if_neg hids, hget]
  cases hfound : (s.relabelled row parent).get? row.target with
  | none | some =>
    unfold Absorption.relabelled EdgeRow.source EdgeRow.target at hfound
    dsimp only
    rw [hfound]
    exact ⟨rfl, rfl⟩

theorem get?_absorbRow (husable : row.usable = true)
    (hparent : s.nodes.get? row.source = some parent) (v : String) :
    (absorbRow decay hop s row).nodes.get? v =
      if v = row.target then some (row.reached hop ((s.relabelled row parent).get? row.target)
        (parent.pathScore * row.strength * decay))
      else (s.relabelled row parent).get? v := by
  rw [(absorbRow_eq husable hparent).1, Dict.get?_set]

/-! ## What stays of a node -/

def scoreIn (nodes : Dict String Neighbour) (v : String) : ℚ :=
  ((nodes.get? v).map Neighbour.pathScore).getD 0

theorem pathScore_labelled (row : EdgeRow) :
    (n.labelled row).pathScore = n.pathScore := by
  unfold Neighbour.labelled
  split_ifs <;> rfl

theorem scoreIn_relabelled (hparent : s.nodes.get? row.source = some parent) (v : String) :
    ((s.relabelled row parent).get? v).map Neighbour.pathScore =
      (s.nodes.get? v).map Neighbour.pathScore := by
  rw [get?_relabelled hparent]
  split_ifs with hv
  · rw [hv, hparent, Option.map_some, Option.map_some, pathScore_labelled]
  · rfl

theorem scoreIn_absorbRow (husable : row.usable = true)
    (hparent : s.nodes.get? row.source = some parent) :
    scoreIn (absorbRow decay hop s row).nodes = push (scoreIn s.nodes) (row.arc decay) := by
  have hread : scoreIn s.nodes row.source = parent.pathScore := by
    unfold scoreIn
    rw [hparent]
    rfl
  have hbefore := scoreIn_relabelled hparent
  funext v
  rw [push_apply]
  change _ = scoreIn s.nodes v + if row.target = v then
    scoreIn s.nodes row.source * (row.strength * decay) else 0
  rw [hread, ← mul_assoc]
  unfold scoreIn
  rw [get?_absorbRow husable hparent]
  by_cases hv : v = row.target
  · subst hv
    rw [if_pos rfl, if_pos rfl, ← hbefore]
    cases (s.relabelled row parent).get? row.target with
    | none => exact (zero_add _).symm
    | some existing => rfl
  · rw [if_neg hv, if_neg (Ne.symm hv), add_zero, hbefore]

end

/-! ## One hop -/

variable (rows : List EdgeRow)

def usableRows : List EdgeRow := rows.filter EdgeRow.usable

def arcsOf (decay : ℚ) (rows : List EdgeRow) : List (Arc String ℚ) :=
  (usableRows rows).map (EdgeRow.arc decay)

def Targets (v : String) : Prop := ∃ row ∈ usableRows rows, row.target = v

def Sources (v : String) : Prop := ∃ row ∈ usableRows rows, row.source = v

def LabelledBy (label : String → String) (rows : List EdgeRow) : Prop :=
  ∀ row ∈ usableRows rows, textOf row.toLabel = label row.target ∧
    textOf row.fromLabel = label row.source

structure Absorbed (label : String → String) (decay : ℚ) (hop : ℕ) (before : Dict String Neighbour)
    (rows : List EdgeRow) (s : Absorption) : Prop where
  score : scoreIn s.nodes = pushAll (scoreIn before) (arcsOf decay rows)
  mem : ∀ v, (s.nodes.get? v).isSome ↔ (before.get? v).isSome ∨ Targets rows v
  old : ∀ v n, before.get? v = some n → ∃ n', s.nodes.get? v = some n' ∧
    n'.entityId = n.entityId ∧ n'.hop = n.hop ∧
    (Sources rows v → n'.label = label v) ∧ (¬Sources rows v → n'.label = n.label)
  new : ∀ v n, before.get? v = none → s.nodes.get? v = some n →
    n.entityId = v ∧ n.hop = hop ∧ n.label = label v
  discovered : s.discovered = [] ↔ ∀ v, Targets rows v → (before.get? v).isSome

section

variable {label : String → String} {decay : ℚ} {hop : ℕ} {before : Dict String Neighbour}
  {rows : List EdgeRow} {s : Absorption} {row : EdgeRow}

theorem usableRows_concat (rows : List EdgeRow) (row : EdgeRow) :
    usableRows (rows ++ [row]) = usableRows rows ++ if row.usable then [row] else [] := by
  unfold usableRows
  rw [filter_append, filter_cons, filter_nil]

theorem targets_concat (husable : row.usable = true) (v : String) :
    Targets (rows ++ [row]) v ↔ Targets rows v ∨ v = row.target := by
  unfold Targets
  rw [usableRows_concat, if_pos husable]
  simp only [mem_append, mem_singleton, or_and_right, exists_or, exists_eq_left]
  rw [eq_comm (a := v)]

theorem sources_concat (husable : row.usable = true) (v : String) :
    Sources (rows ++ [row]) v ↔ Sources rows v ∨ v = row.source := by
  unfold Sources
  rw [usableRows_concat, if_pos husable]
  simp only [mem_append, mem_singleton, or_and_right, exists_or, exists_eq_left]
  rw [eq_comm (a := v)]

theorem absorbed_nil (before : Dict String Neighbour) :
    Absorbed label decay hop before [] ⟨before, [], .empty⟩ where
  score := rfl
  mem v := by simp [Targets, usableRows]
  old v n h := by
    refine ⟨n, h, rfl, rfl, fun hsource => ?_, fun _ => rfl⟩
    obtain ⟨_, hnone, _⟩ := hsource
    cases hnone
  new v n hnone hsome := by
    rw [hnone] at hsome
    cases hsome
  discovered := by simp [Targets, usableRows]

def Sound (label : String → String) (nodes : Dict String Neighbour) : Prop :=
  ∀ v n, nodes.get? v = some n → n.label = "" ∨ n.label = label v

theorem label_labelled {n : Neighbour} (hsound : n.label = "" ∨ n.label = label row.source)
    (hfrom : textOf row.fromLabel = label row.source) :
    (n.labelled row).label = label row.source := by
  unfold Neighbour.labelled
  split_ifs with hblank
  · exact hfrom
  · exact hsound.resolve_left hblank

theorem hop_labelled (n : Neighbour) : (n.labelled row).hop = n.hop := by
  unfold Neighbour.labelled
  split_ifs <;> rfl

theorem entityId_labelled (n : Neighbour) : (n.labelled row).entityId = n.entityId := by
  unfold Neighbour.labelled
  split_ifs <;> rfl

theorem absorbRow_old (decay : ℚ) (hop : ℕ) {parent n : Neighbour} (husable : row.usable = true)
    (hparent : s.nodes.get? row.source = some parent)
    (hsound : parent.label = "" ∨ parent.label = label row.source)
    (hfrom : textOf row.fromLabel = label row.source) {v : String}
    (hget : s.nodes.get? v = some n) :
    ∃ n', (absorbRow decay hop s row).nodes.get? v = some n' ∧ n'.entityId = n.entityId ∧
      n'.hop = n.hop ∧ (v = row.source → n'.label = label v) ∧
      (v ≠ row.source → n'.label = n.label) := by
  have hrelabelled : ∃ n', (s.relabelled row parent).get? v = some n' ∧
      n'.entityId = n.entityId ∧ n'.hop = n.hop ∧ (v = row.source → n'.label = label v) ∧
        (v ≠ row.source → n'.label = n.label) := by
    rw [get?_relabelled hparent]
    by_cases hv : v = row.source
    · subst hv
      obtain rfl : parent = n := Option.some.inj (hparent.symm.trans hget)
      rw [if_pos rfl]
      exact ⟨_, rfl, entityId_labelled _, hop_labelled _, fun _ => label_labelled hsound hfrom,
        fun h => absurd rfl h⟩
    · rw [if_neg hv]
      exact ⟨n, hget, rfl, rfl, fun h => absurd h hv, fun _ => rfl⟩
  obtain ⟨n', hn', hid, hhop, hsource, hother⟩ := hrelabelled
  rw [get?_absorbRow husable hparent]
  by_cases hv : v = row.target
  · subst hv
    rw [if_pos rfl, hn']
    exact ⟨_, rfl, hid, hhop, hsource, hother⟩
  · rw [if_neg hv]
    exact ⟨n', hn', hid, hhop, hsource, hother⟩

theorem absorbRow_new {parent n : Neighbour} (husable : row.usable = true)
    (hparent : s.nodes.get? row.source = some parent) {v : String} (hnone : s.nodes.get? v = none)
    (hget : (absorbRow decay hop s row).nodes.get? v = some n) :
    v = row.target ∧ n = row.neighbour hop (parent.pathScore * row.strength * decay) := by
  have hsource : v ≠ row.source := by
    rintro rfl
    rw [hparent] at hnone
    cases hnone
  have hrelabelled : (s.relabelled row parent).get? v = none := by
    rw [get?_relabelled hparent, if_neg hsource, hnone]
  rw [get?_absorbRow husable hparent] at hget
  by_cases hv : v = row.target
  · subst hv
    rw [if_pos rfl, hrelabelled] at hget
    exact ⟨rfl, (Option.some.inj hget).symm⟩
  · rw [if_neg hv, hrelabelled] at hget
    cases hget

theorem isSome_relabelled {parent : Neighbour} (hparent : s.nodes.get? row.source = some parent)
    (v : String) : ((s.relabelled row parent).get? v).isSome ↔ (s.nodes.get? v).isSome := by
  rw [get?_relabelled hparent]
  split_ifs with hv
  · rw [hv, hparent]
    exact Iff.rfl
  · exact Iff.rfl

theorem isSome_absorbRow {parent : Neighbour} (husable : row.usable = true)
    (hparent : s.nodes.get? row.source = some parent) (v : String) :
    ((absorbRow decay hop s row).nodes.get? v).isSome ↔
      v = row.target ∨ (s.nodes.get? v).isSome := by
  rw [get?_absorbRow husable hparent]
  split_ifs with hv
  · exact iff_of_true rfl (Or.inl hv)
  · rw [isSome_relabelled hparent, or_iff_right hv]

theorem Absorbed.step (h : Absorbed label decay hop before rows s) (husable : row.usable = true)
    (hsound : Sound label before) (hknown : (before.get? row.source).isSome)
    (hlabels : textOf row.toLabel = label row.target ∧ textOf row.fromLabel = label row.source) :
    Absorbed label decay hop before (rows ++ [row]) (absorbRow decay hop s row) := by
  obtain ⟨first, hfirst⟩ := Option.isSome_iff_exists.mp hknown
  obtain ⟨parent, hparent, -, -, hlearnt, hkept⟩ := h.old _ _ hfirst
  have hparentSound : parent.label = "" ∨ parent.label = label row.source := by
    by_cases hsource : Sources rows row.source
    · exact Or.inr (hlearnt hsource)
    · rw [hkept hsource]
      exact hsound _ _ hfirst
  refine ⟨?_, fun v => ?_, fun v n hn => ?_, fun v n hnone hsome => ?_, ?_⟩
  · rw [scoreIn_absorbRow husable hparent, h.score]
    unfold arcsOf pushAll
    rw [usableRows_concat, if_pos husable, map_append, foldl_append]
    rfl
  · rw [isSome_absorbRow husable hparent, h.mem, targets_concat husable]
    tauto
  · obtain ⟨n', hn', hid, hhop, hsources, hothers⟩ := h.old v n hn
    obtain ⟨n'', hn'', hid', hhop', hsource, hother⟩ :=
      absorbRow_old decay hop husable hparent hparentSound hlabels.2 hn'
    refine ⟨n'', hn'', hid'.trans hid, hhop'.trans hhop, fun hmem => ?_, fun hmem => ?_⟩
    · by_cases hv : v = row.source
      · exact hsource hv
      · rw [hother hv]
        exact hsources (((sources_concat husable v).mp hmem).resolve_right hv)
    · rw [sources_concat husable, not_or] at hmem
      rw [hother hmem.2]
      exact hothers hmem.1
  · cases hbefore : s.nodes.get? v with
    | none =>
      obtain ⟨rfl, rfl⟩ := absorbRow_new husable hparent hbefore hsome
      exact ⟨rfl, rfl, hlabels.1⟩
    | some n' =>
      obtain ⟨hid, hhop, hlabel⟩ := h.new v n' hnone hbefore
      obtain ⟨n'', hn'', hid', hhop', hsource, hother⟩ :=
        absorbRow_old decay hop husable hparent hparentSound hlabels.2 hbefore
      obtain rfl : n'' = n := Option.some.inj (hn''.symm.trans hsome)
      refine ⟨hid'.trans hid, hhop'.trans hhop, ?_⟩
      by_cases hv : v = row.source
      · exact hsource hv
      · rw [hother hv, hlabel]
  · have hiff := (isSome_relabelled hparent row.target).trans (h.mem row.target)
    rw [(absorbRow_eq husable hparent).2]
    simp only [targets_concat husable]
    by_cases hseen : (before.get? row.target).isSome ∨ Targets rows row.target
    · rw [if_pos (hiff.mpr hseen), h.discovered]
      constructor
      · intro hall v hv
        rcases hv with hv | rfl
        · exact hall v hv
        · exact hseen.elim id (hall _)
      · exact fun hall v hv => hall v (Or.inl hv)
    · rw [if_neg (mt hiff.mp hseen)]
      refine iff_of_false (by simp) fun hall => hseen (Or.inl (hall _ (Or.inr rfl)))

theorem absorbed_rows (hsound : Sound label before)
    (hknown : ∀ v, Sources rows v → (before.get? v).isSome) (hlabels : LabelledBy label rows) :
    Absorbed label decay hop before rows
      (rows.foldl (absorbRow decay hop) ⟨before, [], .empty⟩) := by
  induction rows using List.reverseRecOn with
  | nil => exact absorbed_nil before
  | append_singleton rows row ih =>
    rw [foldl_append, foldl_cons, foldl_nil]
    have hsub : ∀ r ∈ usableRows rows, r ∈ usableRows (rows ++ [row]) := by
      intro r hr
      rw [usableRows_concat]
      exact mem_append_left _ hr
    have hbefore := ih (fun v hv => hknown v (hv.imp fun r hr => ⟨hsub r hr.1, hr.2⟩))
      fun r hr => hlabels r (hsub r hr)
    cases husable : row.usable with
    | true =>
      have hmem : row ∈ usableRows (rows ++ [row]) := by
        rw [usableRows_concat, if_pos husable]
        exact mem_append_right _ (mem_singleton.mpr rfl)
      exact hbefore.step husable hsound (hknown _ ⟨row, hmem, rfl⟩) (hlabels row hmem)
    | false =>
      have hsame : usableRows (rows ++ [row]) = usableRows rows := by
        rw [usableRows_concat, husable]
        exact append_nil _
      have htargets : Targets (rows ++ [row]) = Targets rows := by
        unfold Targets
        rw [hsame]
      have hsources : Sources (rows ++ [row]) = Sources rows := by
        unfold Sources
        rw [hsame]
      rw [absorbRow_skips husable]
      refine ⟨?_, ?_, ?_, hbefore.new, ?_⟩
      · rw [hbefore.score]
        unfold arcsOf
        rw [hsame]
      · rw [htargets]
        exact hbefore.mem
      · rw [hsources]
        exact hbefore.old
      · rw [htargets]
        exact hbefore.discovered

end

/-! ## Layers -/

section

variable (seeds : List String) (hops : ℕ → List EdgeRow)

def Known : ℕ → String → Prop
  | 0, v => v ∈ seeds
  | h + 1, v => Known h v ∨ Targets (hops (h + 1)) v

def Layer : ℕ → String → Prop
  | 0, v => v ∈ seeds
  | h + 1, v => Targets (hops (h + 1)) v ∧ ¬Known seeds hops h v

/-- What the query of a hop returns: rows that start in the frontier, of edges that are confident
enough, and each node with its label. -/
structure Answered (minConfidence : ℚ) (label : String → String) : Prop where
  start : ∀ h v, Sources (hops (h + 1)) v → Layer seeds hops h v
  confident : ∀ h, ∀ row ∈ usableRows (hops h), minConfidence ≤ row.strength
  labelled : ∀ h, LabelledBy label (hops h)

inductive Reach (depth : ℕ) : ℕ → String → Prop
  | seed {v : String} (hv : v ∈ seeds) : Reach depth 0 v
  | edge {n h : ℕ} {row : EdgeRow} (hh : h < depth) (hrow : row ∈ usableRows (hops (h + 1)))
    (hreach : Reach depth n row.source) : Reach depth (n + 1) row.target

variable {seeds hops} {minConfidence : ℚ} {label : String → String}

theorem known_iff (h : ℕ) (v : String) :
    Known seeds hops h v ↔ ∃ k ≤ h, Layer seeds hops k v := by
  induction h with
  | zero => simp [Known, Layer]
  | succ h ih =>
    constructor
    · intro hknown
      by_cases hbefore : Known seeds hops h v
      · obtain ⟨k, hk, hlayer⟩ := ih.mp hbefore
        exact ⟨k, Nat.le_succ_of_le hk, hlayer⟩
      · exact ⟨h + 1, le_rfl, hknown.resolve_left hbefore, hbefore⟩
    · rintro ⟨k, hk, hlayer⟩
      rcases Nat.le_succ_iff.mp hk with hk | rfl
      · exact Or.inl (ih.mpr ⟨k, hk, hlayer⟩)
      · exact Or.inr hlayer.1

variable {v : String}

theorem known_mono {h k : ℕ} (hle : h ≤ k) (hknown : Known seeds hops h v) :
    Known seeds hops k v := by
  obtain ⟨j, hj, hlayer⟩ := (known_iff h v).mp hknown
  exact (known_iff k v).mpr ⟨j, hj.trans hle, hlayer⟩

theorem layer_unique {h k : ℕ} (hh : Layer seeds hops h v) (hk : Layer seeds hops k v) : h = k := by
  have hless : ∀ {i j : ℕ}, Layer seeds hops i v → Layer seeds hops j v → ¬i < j := by
    intro i j hi hj hlt
    obtain ⟨m, rfl⟩ := Nat.exists_eq_add_of_lt hlt
    exact hj.2 ((known_iff _ v).mpr ⟨i, Nat.le_add_right i m, hi⟩)
  exact le_antisymm (not_lt.mp (hless hk hh)) (not_lt.mp (hless hh hk))

theorem layer_isLeast (hanswered : Answered seeds hops minConfidence label) {depth k : ℕ}
    (hk : k ≤ depth) (hlayer : Layer seeds hops k v) :
    IsLeast { n | Reach seeds hops depth n v } k := by
  constructor
  · induction k generalizing v with
    | zero => exact .seed hlayer
    | succ k ih =>
      obtain ⟨row, hrow, rfl⟩ := hlayer.1
      exact .edge hk hrow (ih (Nat.le_of_succ_le hk) (hanswered.start k _ ⟨row, hrow, rfl⟩))
  · intro n hreach
    have hearly : ∀ {n : ℕ} {w : String}, Reach seeds hops depth n w →
        ∃ j ≤ n, Layer seeds hops j w := by
      intro n w hw
      induction hw with
      | seed hv => exact ⟨0, le_rfl, hv⟩
      | @edge n h row hh hrow _ ih =>
        obtain ⟨j, hj, hsource⟩ := ih
        obtain rfl := layer_unique hsource (hanswered.start h _ ⟨row, hrow, rfl⟩)
        obtain ⟨m, hm, htarget⟩ := (known_iff (j + 1) _).mp (Or.inr ⟨row, hrow, rfl⟩)
        exact ⟨m, hm.trans (Nat.succ_le_succ hj), htarget⟩
    obtain ⟨j, hj, hother⟩ := hearly hreach
    rwa [layer_unique hlayer hother]

/-! ## The hops -/

variable (seeds hops)

def Learned (h : ℕ) (v : String) : Prop := v ∉ seeds ∨ ∃ k < h, Sources (hops (k + 1)) v

def stages (hopDecay : ℚ) (k : ℕ) : List (Arc String ℚ) :=
  arcsOf (hopDecay ^ (k + 1)) (hops (k + 1))

def seedScore (v : String) : ℚ := if v ∈ seeds then 1 else 0

structure Walked (hopDecay : ℚ) (label : String → String) (h : ℕ) (nodes : Dict String Neighbour) :
    Prop where
  score : scoreIn nodes = pushTo (seedScore seeds) (stages hops hopDecay) h
  mem : ∀ v, (nodes.get? v).isSome ↔ Known seeds hops h v
  facts : ∀ v n, nodes.get? v = some n → n.entityId = v ∧ Layer seeds hops n.hop v ∧ n.hop ≤ h ∧
    (Learned seeds hops h v → n.label = label v) ∧ (¬Learned seeds hops h v → n.label = "")

variable {seeds hops} {hopDecay : ℚ} {h : ℕ} {nodes : Dict String Neighbour}

theorem get?_seeded (hnodup : seeds.Nodup) (v : String) :
    (seeded seeds).get? v = if v ∈ seeds then some ⟨v, "", "", 0, 1, ""⟩ else none := by
  have hkeys : (seeds.map fun seed => ((seed, ⟨seed, "", "", 0, 1, ""⟩) : String × Neighbour)).map
      Prod.fst = seeds := by
    rw [map_map]
    exact map_id seeds
  have hget : ∀ n, (seeded seeds).get? v = some n ↔
      v ∈ seeds ∧ (⟨v, "", "", 0, 1, ""⟩ : Neighbour) = n := by
    intro n
    unfold seeded
    rw [Dict.get?_ofList (by rwa [hkeys]), mem_map]
    constructor
    · rintro ⟨seed, hseed, heq⟩
      cases heq
      exact ⟨hseed, rfl⟩
    · rintro ⟨hseed, rfl⟩
      exact ⟨v, hseed, rfl⟩
  split_ifs with hv
  · exact (hget _).mpr ⟨hv, rfl⟩
  · exact Option.eq_none_iff_forall_not_mem.mpr fun n hn => hv ((hget n).mp hn).1

theorem walked_seeded (hnodup : seeds.Nodup) :
    Walked seeds hops hopDecay label 0 (seeded seeds) where
  score := by
    funext v
    change scoreIn (seeded seeds) v = seedScore seeds v
    unfold scoreIn seedScore
    rw [get?_seeded hnodup]
    split_ifs <;> rfl
  mem v := by
    rw [get?_seeded hnodup]
    split_ifs with hv
    · exact iff_of_true rfl hv
    · exact iff_of_false (by simp) hv
  facts v n hn := by
    rw [get?_seeded hnodup] at hn
    split_ifs at hn with hv
    cases hn
    refine ⟨rfl, hv, le_rfl, fun hlearned => ?_, fun _ => rfl⟩
    rcases hlearned with hnew | ⟨k, hk, -⟩
    · exact absurd hv hnew
    · exact absurd hk (Nat.not_lt_zero k)

theorem learned_succ (v : String) :
    Learned seeds hops (h + 1) v ↔ Learned seeds hops h v ∨ Sources (hops (h + 1)) v := by
  constructor
  · rintro (hnew | ⟨k, hk, hsource⟩)
    · exact Or.inl (Or.inl hnew)
    · rcases Nat.lt_succ_iff_lt_or_eq.mp hk with hk | rfl
      · exact Or.inl (Or.inr ⟨k, hk, hsource⟩)
      · exact Or.inr hsource
  · rintro ((hnew | ⟨k, hk, hsource⟩) | hsource)
    · exact Or.inl hnew
    · exact Or.inr ⟨k, hk.trans (Nat.lt_succ_self h), hsource⟩
    · exact Or.inr ⟨h, Nat.lt_succ_self h, hsource⟩

theorem Walked.sound (hwalked : Walked seeds hops hopDecay label h nodes) : Sound label nodes := by
  intro v n hn
  obtain ⟨-, -, -, hlearned, hblank⟩ := hwalked.facts v n hn
  by_cases hv : Learned seeds hops h v
  · exact Or.inr (hlearned hv)
  · exact Or.inl (hblank hv)

theorem Walked.step (hwalked : Walked seeds hops hopDecay label h nodes)
    (hanswered : Answered seeds hops minConfidence label) :
    Walked seeds hops hopDecay label (h + 1)
        (absorbRows hopDecay (hops (h + 1)) nodes (h + 1)).nodes ∧
      ((absorbRows hopDecay (hops (h + 1)) nodes (h + 1)).discovered = [] ↔
        ∀ v, ¬Layer seeds hops (h + 1) v) := by
  have hknown : ∀ v, Sources (hops (h + 1)) v → (nodes.get? v).isSome := fun v hv =>
    (hwalked.mem v).mpr ((known_iff h v).mpr ⟨h, le_rfl, hanswered.start h v hv⟩)
  have habsorbed : Absorbed label (hopDecay ^ (h + 1)) (h + 1) nodes (hops (h + 1))
      (absorbRows hopDecay (hops (h + 1)) nodes (h + 1)) :=
    absorbed_rows hwalked.sound hknown (hanswered.labelled (h + 1))
  refine ⟨⟨?_, fun v => ?_, fun v n hn => ?_⟩, ?_⟩
  · rw [habsorbed.score, hwalked.score]
    rfl
  · rw [habsorbed.mem, hwalked.mem]
    exact Iff.rfl
  · rw [learned_succ]
    cases hbefore : nodes.get? v with
    | none =>
      obtain ⟨hid, hhop, hlabel⟩ := habsorbed.new v n hbefore hn
      have hunknown : ¬Known seeds hops h v := by
        rw [← hwalked.mem, hbefore]
        simp
      have htarget : Targets (hops (h + 1)) v := by
        have hmem := (habsorbed.mem v).mp (by rw [hn]; rfl)
        rw [hbefore] at hmem
        exact hmem.resolve_left (by simp)
      have hlearned : Learned seeds hops h v := Or.inl fun hseed =>
        hunknown (known_mono (Nat.zero_le h) hseed)
      refine ⟨hid, ?_, hhop.le, fun _ => hlabel, fun hnot => absurd (Or.inl hlearned) hnot⟩
      rw [hhop]
      exact ⟨htarget, hunknown⟩
    | some first =>
      obtain ⟨n', hn', hid, hhop, hsource, hother⟩ := habsorbed.old v first hbefore
      obtain rfl : n' = n := Option.some.inj (hn'.symm.trans hn)
      obtain ⟨hid', hlayer, hle, hlearned, hblank⟩ := hwalked.facts v first hbefore
      refine ⟨hid.trans hid', hhop ▸ hlayer, (hhop.le.trans hle).trans (Nat.le_succ h),
        fun hmem => ?_, fun hmem => ?_⟩
      · by_cases hv : Sources (hops (h + 1)) v
        · exact hsource hv
        · rw [hother hv]
          exact hlearned (hmem.resolve_right hv)
      · rw [not_or] at hmem
        rw [hother hmem.2]
        exact hblank hmem.1
  · rw [habsorbed.discovered]
    refine forall_congr' fun v => ?_
    change _ ↔ ¬(Targets (hops (h + 1)) v ∧ ¬Known seeds hops h v)
    rw [hwalked.mem, not_and, not_not]

theorem walked_later (hwalked : Walked seeds hops hopDecay label h nodes)
    (hanswered : Answered seeds hops minConfidence label) (hdone : ∀ v, ¬Layer seeds hops h v)
    (more : ℕ) : Walked seeds hops hopDecay label (h + more) nodes ∧
      ∀ v, ¬Layer seeds hops (h + more) v := by
  induction more with
  | zero => exact ⟨hwalked, hdone⟩
  | succ more ih =>
    obtain ⟨hlater, hnone⟩ := ih
    have hrows : usableRows (hops (h + more + 1)) = [] := by
      refine eq_nil_iff_forall_not_mem.mpr fun row hrow => ?_
      exact hnone _ (hanswered.start (h + more) _ ⟨row, hrow, rfl⟩)
    have hsources : ∀ v, ¬Sources (hops (h + more + 1)) v := by
      rintro v ⟨row, hrow, -⟩
      rw [hrows] at hrow
      cases hrow
    have htargets : ∀ v, ¬Targets (hops (h + more + 1)) v := by
      rintro v ⟨row, hrow, -⟩
      rw [hrows] at hrow
      cases hrow
    refine ⟨⟨?_, fun v => ?_, fun v n hn => ?_⟩, fun v hlayer => htargets v hlayer.1⟩
    · have harcs : stages hops hopDecay (h + more) = [] := by
        unfold stages arcsOf
        rw [hrows]
        rfl
      rw [hlater.score]
      change _ = pushAll _ (stages hops hopDecay (h + more))
      rw [harcs]
      rfl
    · rw [hlater.mem]
      exact (or_iff_left (htargets v)).symm
    · obtain ⟨hid, hlayer, hle, hlearned, hblank⟩ := hlater.facts v n hn
      have hsame : Learned seeds hops (h + more + 1) v ↔ Learned seeds hops (h + more) v :=
        (learned_succ v).trans (or_iff_left (hsources v))
      exact ⟨hid, hlayer, hle.trans (Nat.le_succ _), fun hl => hlearned (hsame.mp hl),
        fun hl => hblank fun hb => hl (hsame.mpr hb)⟩

theorem expand_walked (backend : GraphTraversal)
    (hanswered : Answered seeds hops minConfidence label) (fanoutCap remaining : ℕ)
    (hood : Neighbourhood)
    (hwalked : Walked seeds hops backend.hopDecay label h hood.nodes) :
    Walked seeds hops backend.hopDecay label (h + remaining)
      (backend.expand fanoutCap seeds hops remaining (h + 1) hood).nodes := by
  induction remaining generalizing h hood with
  | zero => exact hwalked
  | succ remaining ih =>
    obtain ⟨hstep, hdiscovered⟩ := hwalked.step hanswered
    unfold GraphTraversal.expand
    rw [Nat.add_comm remaining, ← Nat.add_assoc]
    by_cases hnone : (absorbRows backend.hopDecay (hops (h + 1)) hood.nodes (h + 1)).discovered = []
    · rw [if_pos hnone]
      exact (walked_later hstep hanswered (hdiscovered.mp hnone) remaining).1
    · rw [if_neg hnone]
      exact ih _ hstep

theorem walk_walked (backend : GraphTraversal) (hnodup : seeds.Nodup)
    (hanswered : Answered seeds hops minConfidence label) (depth fanoutCap : ℕ) :
    Walked seeds hops backend.hopDecay label depth
      (backend.walk depth fanoutCap seeds hops).nodes := by
  have hwalk := expand_walked backend hanswered fanoutCap depth ⟨seeded seeds, 0, false, 0⟩
    (walked_seeded hnodup)
  rwa [Nat.zero_add] at hwalk

end

end OmniSense.Retrieval
