import OmniSense.Library.Blocks
import OmniSense.Library.Greedy
import OmniSense.Retrieval.Types
import Mathlib.Algebra.Field.Rat
import Mathlib.Algebra.Order.Field.Rat
import Mathlib.Algebra.Order.Field.Basic
import Mathlib.Algebra.Order.Ring.Cast
import Mathlib.Data.Prod.Lex
import Mathlib.Data.Rat.Floor
import Mathlib.Data.List.FinRange
import Mathlib.Tactic.Linarith

/-! `ContextBuilder.build`: facts, then one passage of each Signal, then more of them, into the
shares of one token budget. -/

namespace OmniSense.Retrieval

open Library List

-- The shares are taken as the exact numbers.
def PASSAGE_SHARE : ℚ := 13 / 20
def FACT_SHARE : ℚ := 3 / 20
def RESERVE_SHARE : ℚ := 1 / 20
def UNCLAIMED_SHARE : ℚ := 3 / 20

/-- `int(x)`. -/
def truncated (x : ℚ) : ℤ := if 0 ≤ x then ⌊x⌋ else ⌈x⌉

inductive PackError
  | tokenBudget (tokenBudget : ℤ)
  | miscounted (counts texts : ℕ)
  | negative (counts : List ℤ)
  deriving DecidableEq

structure BudgetAllocation where
  passages : ℤ
  facts : ℤ
  reserve : ℤ

def BudgetAllocation.forBudget (tokenBudget : ℤ) : Except PackError BudgetAllocation :=
  if tokenBudget ≤ 0 then .error (.tokenBudget tokenBudget)
  else .ok
    { facts := truncated (tokenBudget * FACT_SHARE)
      reserve := truncated (tokenBudget * RESERVE_SHARE)
      passages := truncated (tokenBudget * (PASSAGE_SHARE + UNCLAIMED_SHARE)) }

/-! ## Selection -/

structure Breadth (ι : Type) extends Fill ι where
  seenSignals : Finset String

def Breadth.visit {ι : Type} [DecidableEq ι] (signal : ι → String) (cost : ι → ℤ) (s : Breadth ι)
    (i : ι) : Breadth ι :=
  if signal i ∈ s.seenSignals then s
  else if s.remaining < cost i then s
  else { s.toFill.put cost i with seenSignals := insert (signal i) s.seenSignals }

section

variable (passages : List Passage) (cost : Fin passages.length → ℤ) (limit : ℤ)

def passageOrder : List (Fin passages.length) :=
  sortedBy (fun i => toLex (-(passages.get i).finalScore, i)) (List.finRange passages.length)

def breadthPhase : Breadth (Fin passages.length) :=
  (passageOrder passages).foldl (Breadth.visit (fun i => (passages.get i).signalId) cost)
    ⟨⟨∅, limit⟩, ∅⟩

def depthPhase : Fill (Fin passages.length) :=
  (passageOrder passages).foldl (Fill.visit (fun kept i => i ∉ kept) cost)
    (breadthPhase passages cost limit).toFill

def selectPassages : List Passage × ℤ :=
  let s := depthPhase passages cost limit
  (((passageOrder passages).filter fun i => i ∈ s.kept).map passages.get, limit - s.remaining)

end

section

variable (facts : List GraphFact) (cost : Fin facts.length → ℤ) (limit : ℤ)

def factOrder : List (Fin facts.length) :=
  sortedBy (fun i => toLex (-(facts.get i).confidence, toLex (!(facts.get i).isCurrent, i)))
    (List.finRange facts.length)

def factPhase : Fill (Fin facts.length) :=
  (factOrder facts).foldl (Fill.visit (fun _ _ => True) cost) ⟨∅, limit⟩

def selectFacts : List GraphFact × ℤ :=
  let s := factPhase facts cost limit
  (((factOrder facts).filter fun i => i ∈ s.kept).map facts.get, limit - s.remaining)

end

/-! ## The builder -/

structure ContextBuilder where
  countTokens : List String → List ℤ
  renderPassage : Passage → String
  renderFact : GraphFact → String

namespace ContextBuilder

variable (builder : ContextBuilder) (passages : List Passage) (graphFacts : List GraphFact)

def count (texts : List String) : Except PackError (List ℤ) :=
  if texts.isEmpty then .ok []
  else
    let counts := builder.countTokens texts
    if counts.length ≠ texts.length then .error (.miscounted counts.length texts.length)
    else if counts.any (· < 0) then .error (.negative counts)
    else .ok counts

def citable : List Passage := passages.filter Passage.isCitable

def rendered : List String :=
  (citable passages).map builder.renderPassage ++ graphFacts.map builder.renderFact

/-- `counts[: len(rendered_passages)]` and the rest, by index. -/
def passageCost (counts : List ℤ) (i : Fin (citable passages).length) : ℤ := counts.getD i 0

def factCost (counts : List ℤ) (i : Fin graphFacts.length) : ℤ :=
  counts.getD ((citable passages).length + i) 0

def packed (tokenBudget : ℤ) (allocation : BudgetAllocation) (counts : List ℤ) : EvidencePack :=
  let uncitable := passages.length - (citable passages).length
  let facts := selectFacts graphFacts (factCost passages graphFacts counts) allocation.facts
  let passageLimit := allocation.passages + (allocation.facts - facts.2)
  let chosen := selectPassages (citable passages) (passageCost passages counts) passageLimit
  { passages := chosen.1
    graphFacts := facts.1
    tokenCount := chosen.2 + facts.2
    tokenBudget := tokenBudget
    droppedPassages := (citable passages).length - chosen.1.length + uncitable
    droppedFacts := graphFacts.length - facts.1.length }

def build (tokenBudget : ℤ) : Except PackError EvidencePack := do
  let allocation ← BudgetAllocation.forBudget tokenBudget
  let counts ← builder.count (builder.rendered passages graphFacts)
  return packed passages graphFacts tokenBudget allocation counts

end ContextBuilder

/-! ## The shares -/

theorem truncated_nonneg {x : ℚ} (h : 0 ≤ x) : 0 ≤ truncated x := by
  unfold truncated
  rw [if_pos h]
  exact Int.floor_nonneg.mpr h

theorem truncated_le {x : ℚ} (h : 0 ≤ x) : (truncated x : ℚ) ≤ x := by
  unfold truncated
  rw [if_pos h]
  exact Int.floor_le x

structure BudgetAllocation.Fits (allocation : BudgetAllocation) (tokenBudget : ℤ) : Prop where
  passages : 0 ≤ allocation.passages
  facts : 0 ≤ allocation.facts
  share : ((allocation.passages + allocation.facts : ℤ) : ℚ) ≤
    tokenBudget - tokenBudget * RESERVE_SHARE
  sum : allocation.passages + allocation.facts ≤ tokenBudget - allocation.reserve

theorem forBudget_fits {tokenBudget : ℤ} (h : 0 < tokenBudget) :
    ∃ allocation, BudgetAllocation.forBudget tokenBudget = .ok allocation ∧
      allocation.Fits tokenBudget := by
  refine ⟨_, if_neg (not_le.mpr h), ?_⟩
  have hb : (0 : ℚ) ≤ tokenBudget := (Int.cast_pos.mpr h).le
  have hshare : ∀ share : ℚ, 0 ≤ share → 0 ≤ (tokenBudget : ℚ) * share :=
    fun share hs => mul_nonneg hb hs
  have hfacts := hshare FACT_SHARE (by norm_num [FACT_SHARE])
  have hreserve := hshare RESERVE_SHARE (by norm_num [RESERVE_SHARE])
  have hpassages := hshare (PASSAGE_SHARE + UNCLAIMED_SHARE)
    (by norm_num [PASSAGE_SHARE, UNCLAIMED_SHARE])
  -- The shares make up the whole, and each is rounded down.
  have hwhole : (tokenBudget : ℚ) * (PASSAGE_SHARE + UNCLAIMED_SHARE) + tokenBudget * FACT_SHARE =
      tokenBudget - tokenBudget * RESERVE_SHARE := by
    unfold PASSAGE_SHARE UNCLAIMED_SHARE FACT_SHARE RESERVE_SHARE
    ring
  have hle := add_le_add (truncated_le hpassages) (truncated_le hfacts)
  rw [hwhole] at hle
  refine ⟨truncated_nonneg hpassages, truncated_nonneg hfacts, ?_, ?_⟩
  · rw [Int.cast_add]
    exact hle
  · dsimp only
    have hkept := truncated_le hreserve
    have hint : ((truncated (tokenBudget * (PASSAGE_SHARE + UNCLAIMED_SHARE)) +
        truncated (tokenBudget * FACT_SHARE) : ℤ) : ℚ) ≤
          ((tokenBudget - truncated (tokenBudget * RESERVE_SHARE) : ℤ) : ℚ) := by
      rw [Int.cast_add, Int.cast_sub]
      linarith
    exact Int.cast_le.mp hint

/-! ## The two phases -/

section

variable {passages : List Passage} {cost : Fin passages.length → ℤ} {limit : ℤ}

theorem passageOrder_perm (passages : List Passage) :
    (passageOrder passages).Perm (List.finRange passages.length) := sortedBy_perm _ _

theorem factOrder_perm (facts : List GraphFact) :
    (factOrder facts).Perm (List.finRange facts.length) := sortedBy_perm _ _

theorem mem_passageOrder (i : Fin passages.length) : i ∈ passageOrder passages :=
  (passageOrder_perm _).mem_iff.mpr (mem_finRange i)

def Unrepresented {ι : Type} (signal : ι → String) (kept : Finset ι) (i : ι) : Prop :=
  ∀ j ∈ kept, signal j ≠ signal i

instance {ι : Type} (signal : ι → String) (kept : Finset ι) (i : ι) :
    Decidable (Unrepresented signal kept i) :=
  inferInstanceAs (Decidable (∀ j ∈ kept, signal j ≠ signal i))

variable {ι : Type}

theorem unrepresented_fresh {signal : ι → String} :
    Fill.Fresh (Unrepresented signal) := fun _ i h hi => h i hi rfl

theorem unrepresented_narrowing {signal : ι → String} :
    Fill.Narrowing (Unrepresented signal) := fun _ _ _ hsub h j hj => h j (hsub hj)

theorem absent_fresh : Fill.Fresh fun (kept : Finset ι) i => i ∉ kept :=
  fun _ _ h => h

theorem absent_narrowing : Fill.Narrowing fun (kept : Finset ι) i => i ∉ kept :=
  fun _ _ _ hsub h hi => h (hsub hi)

def Breadth.Tracks {ι : Type} (signal : ι → String) (s : Breadth ι) : Prop :=
  s.seenSignals = s.kept.image signal

theorem Breadth.Tracks.visit [DecidableEq ι] {signal : ι → String} {s : Breadth ι}
    (h : s.Tracks signal) (cost : ι → ℤ) (i : ι) :
    (s.visit signal cost i).toFill = s.toFill.visit (Unrepresented signal) cost i ∧
      (s.visit signal cost i).Tracks signal := by
  have hseen : signal i ∈ s.seenSignals ↔ ¬Unrepresented signal s.kept i := by
    rw [h, Finset.mem_image]
    unfold Unrepresented
    push Not
    rfl
  unfold Breadth.visit Fill.visit
  by_cases hin : signal i ∈ s.seenSignals
  · rw [if_pos hin, if_neg fun hvisit => hseen.mp hin hvisit.1]
    exact ⟨rfl, h⟩
  · have hopen := not_not.mp fun hclosed => hin (hseen.mpr hclosed)
    rw [if_neg hin]
    split_ifs with hover hvisit hvisit
    · exact absurd hvisit.2 (not_le.mpr hover)
    · exact ⟨rfl, h⟩
    · refine ⟨rfl, ?_⟩
      change insert (signal i) s.seenSignals = (insert i s.kept).image signal
      rw [Finset.image_insert, h]
    · exact absurd ⟨hopen, not_lt.mp hover⟩ hvisit

theorem breadth_eq [DecidableEq ι] (signal : ι → String) (cost : ι → ℤ) (limit : ℤ) (l : List ι) :
    (l.foldl (Breadth.visit signal cost) ⟨⟨∅, limit⟩, ∅⟩).toFill =
        l.foldl (Fill.visit (Unrepresented signal) cost) ⟨∅, limit⟩ ∧
      (l.foldl (Breadth.visit signal cost) ⟨⟨∅, limit⟩, ∅⟩).Tracks signal := by
  induction l using List.reverseRecOn with
  | nil => exact ⟨rfl, (Finset.image_empty _).symm⟩
  | append_singleton l i ih =>
    obtain ⟨heq, htracks⟩ := ih
    obtain ⟨hvisit, htracks'⟩ := htracks.visit cost i
    rw [foldl_concat, foldl_concat, hvisit, heq]
    exact ⟨rfl, htracks'⟩

theorem start_spends (cost : ι → ℤ) (hlimit : 0 ≤ limit) : Fill.Spends cost limit ⟨∅, limit⟩ :=
  ⟨by rw [Finset.sum_empty, sub_self], hlimit⟩

theorem visit_single [DecidableEq ι] {signal : ι → String} {s : Fill ι}
    (h : Set.InjOn signal s.kept) (cost : ι → ℤ) (i : ι) :
    Set.InjOn signal (s.visit (Unrepresented signal) cost i).kept := by
  unfold Fill.visit
  split_ifs with hvisit
  · change Set.InjOn signal (insert i s.kept : Finset ι)
    rw [Finset.coe_insert, Set.injOn_insert (unrepresented_fresh _ _ hvisit.1)]
    refine ⟨h, ?_⟩
    rintro ⟨j, hj, hsame⟩
    exact hvisit.1 j hj hsame
  · exact h

structure Selects (passages : List Passage) (cost : Fin passages.length → ℤ) (limit : ℤ)
    (kept : Finset (Fin passages.length)) : Prop where
  single : Set.InjOn (fun i => (passages.get i).signalId) (breadthPhase passages cost limit).kept
  sub : (breadthPhase passages cost limit).kept ⊆ kept
  spent : ∑ i ∈ kept, cost i ≤ limit
  maximal : ∀ i, i ∉ kept → limit - ∑ j ∈ kept, cost j < cost i
  breadth : ∀ i, (∀ j ∈ kept, (passages.get j).signalId ≠ (passages.get i).signalId) →
    limit - ∑ j ∈ (breadthPhase passages cost limit).kept, cost j < cost i

theorem selectPassages_keeps (hcost : ∀ i, 0 ≤ cost i) (hlimit : 0 ≤ limit) :
    ∃ kept, selectPassages passages cost limit =
        (((passageOrder passages).filter fun i => i ∈ kept).map passages.get,
          ∑ i ∈ kept, cost i) ∧
      Selects passages cost limit kept := by
  have hfirst : (breadthPhase passages cost limit).toFill = _ := (breadth_eq _ cost limit _).1
  have hspends : (breadthPhase passages cost limit).toFill.Spends cost limit := by
    rw [hfirst]
    exact (start_spends cost hlimit).foldl unrepresented_fresh _
  have hspends' : (depthPhase passages cost limit).Spends cost limit :=
    hspends.foldl absent_fresh _
  have hsub : (breadthPhase passages cost limit).kept ⊆ (depthPhase passages cost limit).kept :=
    Fill.kept_foldl _ _
  refine ⟨_, congrArg _ hspends'.1.symm, ?_, hsub, ?_, fun i hi => ?_, fun i hi => ?_⟩
  · rw [hfirst]
    refine foldl_done (I := fun _ (t : Fill (Fin passages.length)) =>
      Set.InjOn (fun i => (passages.get i).signalId) t.kept) ?_ fun _ i _ _ ht => ?_
    · exact fun i hi => absurd hi (Finset.notMem_empty i)
    · exact visit_single ht cost i
  · have hleft := hspends'.2
    rw [hspends'.1]
    omega
  · rw [hspends'.1, sub_sub_cancel]
    exact Fill.foldl_full absent_fresh absent_narrowing hcost _ (mem_passageOrder i) hi
  · -- A Signal without passage in the end had none after the first phase.
    have hopen : Unrepresented (fun j => (passages.get j).signalId)
        (breadthPhase passages cost limit).kept i := fun j hj => hi j (hsub hj)
    rw [hspends.1, sub_sub_cancel]
    rw [hfirst] at hopen ⊢
    exact Fill.foldl_full unrepresented_fresh unrepresented_narrowing hcost _ (mem_passageOrder i)
      hopen

theorem selectFacts_keeps {facts : List GraphFact} {cost : Fin facts.length → ℤ}
    (hlimit : 0 ≤ limit) : ∃ kept, selectFacts facts cost limit =
        (((factOrder facts).filter fun i => i ∈ kept).map facts.get, ∑ i ∈ kept, cost i) ∧
      ∑ i ∈ kept, cost i ≤ limit := by
  have hdistinct : (factOrder facts).Nodup :=
    (factOrder_perm _).nodup_iff.mpr (nodup_finRange _)
  have hspends : (factPhase facts cost limit).Spends cost limit := by
    unfold factPhase
    rw [Fill.foldl_distinct hdistinct fun _ _ => Finset.notMem_empty _]
    exact (start_spends cost hlimit).foldl absent_fresh _
  obtain ⟨hsum, hleft⟩ := hspends
  exact ⟨_, congrArg _ hsum.symm, by omega⟩

end

/-! ## The pack -/

section

variable {builder : ContextBuilder} {counts : List ℤ}

theorem count_ok_iff {texts : List String} : builder.count texts = .ok counts ↔
    counts = (if texts.isEmpty then [] else builder.countTokens texts) ∧
      counts.length = texts.length ∧ ∀ c ∈ counts, 0 ≤ c := by
  cases texts with
  | nil =>
    constructor
    · rintro ⟨⟩
      exact ⟨rfl, rfl, fun c hc => nomatch hc⟩
    · rintro ⟨rfl, -⟩
      rfl
  | cons text rest =>
    change (if (builder.countTokens (text :: rest)).length ≠ (text :: rest).length then _
      else if (builder.countTokens (text :: rest)).any (· < 0) then _ else _) = _ ↔
        counts = builder.countTokens (text :: rest) ∧ _
    have hany : (builder.countTokens (text :: rest)).any (· < 0) = true ↔
        ¬∀ c ∈ builder.countTokens (text :: rest), 0 ≤ c := by
      rw [any_eq_true]
      push Not
      simp only [decide_eq_true_iff]
    split_ifs with hlength hnegative
    · refine iff_of_false (fun h => nomatch h) ?_
      rintro ⟨rfl, hsame, -⟩
      exact hlength hsame
    · refine iff_of_false (fun h => nomatch h) ?_
      rintro ⟨rfl, -, hnonneg⟩
      exact hany.mp hnegative hnonneg
    · rw [Except.ok.injEq]
      constructor
      · rintro rfl
        exact ⟨rfl, not_not.mp hlength, not_not.mp fun h => hnegative (hany.mpr h)⟩
      · exact fun h => h.1.symm

theorem count_nonneg {texts : List String} (h : builder.count texts = .ok counts) (i : ℕ) :
    0 ≤ counts.getD i 0 := by
  obtain ⟨-, -, hnonneg⟩ := count_ok_iff.mp h
  rw [getD_eq_getElem?_getD]
  cases hget : counts[i]? with
  | none => exact le_rfl
  | some c => exact hnonneg c (mem_of_getElem? hget)

structure Packs (passages : List Passage) (graphFacts : List GraphFact)
    (allocation : BudgetAllocation)
    (passageCost : Fin (ContextBuilder.citable passages).length → ℤ)
    (factCost : Fin graphFacts.length → ℤ) (pack : EvidencePack)
    (kept : Finset (Fin (ContextBuilder.citable passages).length))
    (keptFacts : Finset (Fin graphFacts.length)) : Prop where
  inOrder : pack.passages = ((passageOrder (ContextBuilder.citable passages)).filter
    fun i => i ∈ kept).map (ContextBuilder.citable passages).get
  factsInOrder : pack.graphFacts =
    ((factOrder graphFacts).filter fun i => i ∈ keptFacts).map graphFacts.get
  tokenCount : pack.tokenCount = ∑ i ∈ kept, passageCost i + ∑ i ∈ keptFacts, factCost i
  within : pack.tokenCount ≤ pack.tokenBudget - allocation.reserve
  withinShare : (pack.tokenCount : ℚ) ≤ pack.tokenBudget - pack.tokenBudget * RESERVE_SHARE
  -- What facts leave of their share goes to passages.
  selects : Selects (ContextBuilder.citable passages) passageCost
    (allocation.passages + (allocation.facts - ∑ i ∈ keptFacts, factCost i)) kept
  dropped : pack.passages.length + pack.droppedPassages = passages.length
  factsDropped : pack.graphFacts.length + pack.droppedFacts = graphFacts.length

theorem kept_length {α : Type} {n : ℕ} {l : List (Fin n)} (hl : l.Perm (List.finRange n))
    (kept : Finset (Fin n)) (f : Fin n → α) :
    ((l.filter fun i => i ∈ kept).map f).length ≤ n := by
  have hlength : l.length = n := hl.length_eq.trans length_finRange
  rw [length_map]
  exact (length_filter_le _ _).trans hlength.le

variable {passages : List Passage} {graphFacts : List GraphFact} {tokenBudget : ℤ}
  {allocation : BudgetAllocation}

theorem packed_packs (hfits : allocation.Fits tokenBudget) (hcost : ∀ i, 0 ≤ counts.getD i 0) :
    ∃ kept keptFacts, Packs passages graphFacts allocation
      (ContextBuilder.passageCost passages counts)
      (ContextBuilder.factCost passages graphFacts counts)
      (ContextBuilder.packed passages graphFacts tokenBudget allocation counts) kept keptFacts := by
  have hpassages := hfits.passages
  have hsum := hfits.sum
  obtain ⟨keptFacts, hfacts, hspent⟩ := @selectFacts_keeps _ graphFacts
    (ContextBuilder.factCost passages graphFacts counts) hfits.facts
  obtain ⟨kept, hchosen, hselects⟩ := @selectPassages_keeps _
    (ContextBuilder.passageCost passages counts)
    (allocation.passages + (allocation.facts - ∑ i ∈ keptFacts,
      ContextBuilder.factCost passages graphFacts counts i)) (fun i => hcost i) (by omega)
  have hlimit := hselects.spent
  have hcitable : (ContextBuilder.citable passages).length ≤ passages.length :=
    length_filter_le _ _
  have hkept := kept_length (passageOrder_perm _) kept
    (ContextBuilder.citable passages).get
  have hkeptFacts := kept_length (factOrder_perm _) keptFacts graphFacts.get
  refine ⟨kept, keptFacts, ?_⟩
  unfold ContextBuilder.packed
  rw [hfacts]
  dsimp only
  rw [hchosen]
  refine ⟨rfl, rfl, rfl, ?_, ?_, hselects, ?_, ?_⟩
  · dsimp only
    omega
  · refine (Int.cast_le.mpr ?_).trans hfits.share
    dsimp only
    omega
  · dsimp only
    omega
  · exact Nat.add_sub_cancel' hkeptFacts

def charBuilder : ContextBuilder where
  countTokens texts := texts.map fun text => (text.toList.length : ℤ)
  renderPassage := Passage.text
  renderFact := GraphFact.predicate

def passageFrom (signalId text : String) : Passage :=
  ⟨signalId, signalId, text, 0, 1, 0, none, {.keyword}, 0, []⟩

theorem twenty_pos : (0 : ℤ) < 20 := by decide

end

end OmniSense.Retrieval
