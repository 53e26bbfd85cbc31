import Mathlib.Analysis.SpecialFunctions.Pow.Real
import Mathlib.Data.List.Dedup
import OmniSense.Evidence.Quotes
import OmniSense.Library.Sorting
import OmniSense.Retrieval.Filters

/-! The confidence of a set of citations, and what another copy of one of them does to it. -/

namespace OmniSense.Evidence

open Library List Option
open Retrieval (Platform)

structure SignalView (K : Type*) where
  platform : Platform
  confidence : K
  timestamp : ℤ

structure ResolvedCitation (K : Type*) where
  citation : Citation
  verification : QuoteVerification
  signal : Option (SignalView K)

@[ext] structure Components (K : Type*) where
  verification : K
  corroboration : K
  independence : K
  sourceQuality : K
  recency : K

structure EvidenceConfidence (K : Type*) where
  score : K
  components : Components K
  verifiedCount : ℕ
  totalCount : ℕ
  distinctSignals : ℕ
  distinctPlatforms : ℕ
  degraded : Bool

/-- `math.log1p`, `base ** exponent` and `round(value, 4)`. -/
structure Floats (K : Type*) where
  log1p : ℕ → K
  pow : K → K → K
  round4 : K → K

def VerificationOutcome.isVerified : VerificationOutcome → Bool
  | .verified | .relocated => true
  | .misquoted | .signalMissing | .emptyQuote => false

variable {K : Type*}

def ResolvedCitation.verified (item : ResolvedCitation K) : Bool :=
  item.verification.outcome.isVerified

def ResolvedCitation.signalId (item : ResolvedCitation K) : String := item.citation.signalId

namespace Components

/-- `dict.fromkeys(CONFIDENCE_WEIGHTS, value)`. -/
def all (value : K) : Components K := ⟨value, value, value, value, value⟩

def map (f : K → K) (c : Components K) : Components K :=
  ⟨f c.verification, f c.corroboration, f c.independence, f c.sourceQuality, f c.recency⟩

end Components

def CORROBORATION_TARGET : ℕ := 6

def INDEPENDENCE_TARGET : ℕ := 3

variable (verified : List (ResolvedCitation K))

def bySignal : Dict String K :=
  .ofList (verified.filterMap fun item =>
    item.signal.map fun signal => (item.signalId, signal.confidence))

section

variable [Field K]

def RECENCY_HALF_LIFE_DAYS : K := 90

def DEGRADED_CEILING : K := 6 / 10

def COMPONENT_FLOOR : K := 5 / 100

def CONFIDENCE_WEIGHTS : Components K := ⟨30 / 100, 20 / 100, 20 / 100, 20 / 100, 10 / 100⟩

def meanSignalConfidence (verified : List (ResolvedCitation K)) : K :=
  let values := (bySignal verified).values
  if values.isEmpty then 0 else values.sum / values.length

variable [LinearOrder K]

variable (m : Floats K)

def logScaled (count target : ℕ) : K :=
  if count = 0 then 0 else min 1 (m.log1p count / m.log1p target)

variable (asOf : ℤ)

def ageDays (signal : SignalView K) : K :=
  max 0 (((asOf - signal.timestamp : ℤ) : K) / 1000000 / 86400)

def ages (verified : List (ResolvedCitation K)) : List K :=
  verified.filterMap fun item => item.signal.map (ageDays asOf)

def medianAge (verified : List (ResolvedCitation K)) : Option K :=
  if (ages asOf verified).isEmpty then none else some (median (ages asOf verified))

def recency (verified : List (ResolvedCitation K)) : K :=
  match medianAge asOf verified with
  | none => 0
  | some age => m.pow (1 / (2 : ℕ)) (age / RECENCY_HALF_LIFE_DAYS)

def signalIds : List String :=
  (verified.map ResolvedCitation.signalId).dedup

def platforms : List Platform :=
  (verified.filterMap fun item => item.signal.map SignalView.platform).dedup

variable (resolved : List (ResolvedCitation K))

def components : Components K :=
  let verified := resolved.filter ResolvedCitation.verified
  { verification := verified.length / resolved.length
    corroboration := logScaled m (signalIds verified).length CORROBORATION_TARGET
    independence := logScaled m (platforms verified).length INDEPENDENCE_TARGET
    sourceQuality := meanSignalConfidence verified
    recency := recency m asOf verified }

def aggregateConfidence (asOf : Option ℤ)
    (utcnow : ℤ) (retrievalDegraded : Bool) : EvidenceConfidence K :=
  let total := resolved.length
  let verified := resolved.filter ResolvedCitation.verified
  if total = 0 ∨ verified = [] then
    { score := 0
      components := .all 0
      verifiedCount := 0
      totalCount := total
      distinctSignals := 0
      distinctPlatforms := 0
      degraded := retrievalDegraded }
  else
    let found := components m (asOf.getD utcnow) resolved
    let power (component weight : K) := m.pow (max component COMPONENT_FLOOR) weight
    let score := power found.verification CONFIDENCE_WEIGHTS.verification *
      power found.corroboration CONFIDENCE_WEIGHTS.corroboration *
      power found.independence CONFIDENCE_WEIGHTS.independence *
      power found.sourceQuality CONFIDENCE_WEIGHTS.sourceQuality *
      power found.recency CONFIDENCE_WEIGHTS.recency
    let score := if retrievalDegraded then min score DEGRADED_CEILING else score
    { score := m.round4 (min 1 (max 0 score))
      components := found.map m.round4
      verifiedCount := verified.length
      totalCount := total
      distinctSignals := (signalIds verified).length
      distinctPlatforms := (platforms verified).length
      degraded := retrievalDegraded }

end

/-! ## Another copy of a citation -/

section

variable {resolved : List (ResolvedCitation K)} {c : ResolvedCitation K}

def lastSignal (resolved : List (ResolvedCitation K)) (signalId : String) :
    Option (SignalView K) :=
  resolved.reverse.findSome? fun item => if item.signalId = signalId then item.signal else none

theorem bySignal_concat_none (hnone : c.signal = none) :
    bySignal (resolved ++ [c]) = bySignal resolved := by
  unfold bySignal
  rw [filterMap_append, filterMap_cons, hnone, map_none, filterMap_nil,
    append_nil]

variable {view : SignalView K}

theorem bySignal_concat_some (hview : c.signal = some view) :
    bySignal (resolved ++ [c]) = (bySignal resolved).set c.signalId view.confidence := by
  unfold bySignal
  rw [filterMap_append, filterMap_cons, hview, map_some, filterMap_nil,
    Dict.ofList_snoc]

theorem get?_bySignal (signalId : String) : (bySignal resolved).get? signalId =
    (lastSignal resolved signalId).map SignalView.confidence := by
  induction resolved using List.reverseRecOn with
  | nil => rfl
  | append_singleton resolved item ih =>
    have hlast : lastSignal (resolved ++ [item]) signalId =
        (if item.signalId = signalId then item.signal else none).or
          (lastSignal resolved signalId) := by
      unfold lastSignal
      rw [reverse_append, reverse_singleton, singleton_append,
        List.findSome?_cons]
      cases (if item.signalId = signalId then item.signal else none) <;> rfl
    rw [hlast]
    cases hview : item.signal with
    | none => rw [bySignal_concat_none hview, ih, ite_self, none_or]
    | some view =>
      rw [bySignal_concat_some hview, Dict.get?_set, ih]
      by_cases hid : signalId = item.signalId
      · rw [if_pos hid, if_pos hid.symm, some_or, map_some]
      · rw [if_neg hid, if_neg (Ne.symm hid), none_or]

theorem exists_lastSignal (hc : c ∈ resolved)
    (hview : c.signal = some view) : ∃ last, lastSignal resolved c.signalId = some last := by
  rw [← isSome_iff_exists]
  unfold lastSignal
  rw [List.findSome?_isSome_iff]
  refine ⟨c, mem_reverse.mpr hc, ?_⟩
  rw [if_pos rfl, hview, isSome_some]

variable [Field K] [LinearOrder K]

theorem ages_concat (asOf : ℤ) : ages asOf (resolved ++ [c]) =
    ages asOf resolved ++ (c.signal.map (ageDays asOf)).toList := by
  unfold ages
  rw [filterMap_append, filterMap_cons, filterMap_nil]
  cases c.signal <;> rfl

theorem medianAge_concat_none (asOf : ℤ) (hnone : c.signal = none) :
    medianAge asOf (resolved ++ [c]) = medianAge asOf resolved := by
  unfold medianAge
  rw [ages_concat, hnone, map_none, toList_none, append_nil]

/-- Whether another copy of an age in the list leaves the median at least what it is: at most half
of the ages are above it, or the two in the middle are the same. -/
def KeepsMedian (ages : List K) (age : K) : Prop :=
  ages.length < 2 * ages.countP (· ≤ age) ∨
    ∃ middle, 2 * (ages.countP (· < middle) + 1) ≤ ages.length ∧
      ages.length < 2 * ages.countP (· ≤ middle)

/-- No component is higher than before, and the median age is not lower. Evidence without an age
counts for nothing. -/
structure NoBetter (m : Floats K) (asOf : ℤ) (before after : List (ResolvedCitation K)) :
    Prop where
  verification : (components m asOf after).verification ≤ (components m asOf before).verification
  corroboration :
    (components m asOf after).corroboration ≤ (components m asOf before).corroboration
  independence : (components m asOf after).independence ≤ (components m asOf before).independence
  sourceQuality :
    (components m asOf after).sourceQuality ≤ (components m asOf before).sourceQuality
  age : ∀ a ∈ medianAge asOf (after.filter ResolvedCitation.verified),
    ∃ b ∈ medianAge asOf (before.filter ResolvedCitation.verified), b ≤ a

theorem logScaled_dedup {α : Type*} [DecidableEq α] {l added : List α} (m : Floats K) (target : ℕ)
    (hsub : added ⊆ l) :
    logScaled m (l ++ added).dedup.length target = logScaled m l.dedup.length target := by
  have hperm : (l ++ added).dedup.Perm l.dedup := by
    rw [perm_ext_iff_of_nodup (nodup_dedup _) (nodup_dedup _)]
    intro x
    rw [mem_dedup, mem_dedup, mem_append, or_iff_left_of_imp (@hsub x)]
  rw [hperm.length_eq]

variable [IsStrictOrderedRing K]

theorem meanSignalConfidence_concat {view last : SignalView K} (hview : c.signal = some view)
    (hlast : lastSignal resolved c.signalId = some last) :
    meanSignalConfidence (resolved ++ [c]) ≤ meanSignalConfidence resolved ↔
      view.confidence ≤ last.confidence := by
  have hget : (bySignal resolved).get? c.signalId = some last.confidence := by
    rw [get?_bySignal, hlast, map_some]
  unfold meanSignalConfidence
  rw [bySignal_concat_some hview]
  obtain ⟨hnone, -⟩ | ⟨old, before, after, hold, hbefore, hafter⟩ :=
    (bySignal resolved).values_set c.signalId view.confidence
  · exact absurd (hnone.symm.trans hget) (by simp)
  · obtain rfl : old = last.confidence := Option.some.inj (hold.symm.trans hget)
    have hpos : (0 : K) < ((before ++ last.confidence :: after).length : K) := by
      rw [Nat.cast_pos, length_append, length_cons]
      omega
    have hlength : (before ++ view.confidence :: after).length =
        (before ++ last.confidence :: after).length := by
      simp only [length_append, length_cons]
    rw [hbefore, hafter]
    rw [if_neg (by simp), if_neg (by simp), hlength, div_le_div_iff_of_pos_right hpos,
      sum_append, sum_append, sum_cons, sum_cons, add_le_add_iff_left,
      add_le_add_iff_right]

theorem medianAge_concat_some {asOf : ℤ} (hc : c ∈ resolved) (hview : c.signal = some view) :
    (∀ after ∈ medianAge asOf (resolved ++ [c]), ∃ before ∈ medianAge asOf resolved,
      before ≤ after) ↔ KeepsMedian (ages asOf resolved) (ageDays asOf view) := by
  have hmem : ageDays asOf view ∈ ages asOf resolved :=
    mem_filterMap.mpr ⟨c, hc, by rw [hview, map_some]⟩
  have hne : (ages asOf resolved).isEmpty = false :=
    isEmpty_eq_false_iff.mpr (ne_nil_of_mem hmem)
  unfold medianAge KeepsMedian
  rw [ages_concat, hview, map_some, toList_some, if_neg (by simp),
    if_neg (by rw [hne]; exact Bool.false_ne_true), ← median_concat hmem]
  simp only [mem_some_iff, forall_eq', exists_eq_left']

/-- Another copy of a citation makes a verified set look no better exactly when the Signal it was
resolved to has no more confidence than what the last citation of that Signal was resolved to, and
its age leaves the median age at least what it is. -/
theorem repeating_citation (m : Floats K) (asOf : ℤ)
    (hverified : ∀ item ∈ resolved, item.verified = true) (hc : c ∈ resolved) :
    NoBetter m asOf resolved (resolved ++ [c]) ↔
      ∀ view, c.signal = some view →
        (∀ last, lastSignal resolved c.signalId = some last → view.confidence ≤ last.confidence) ∧
          KeepsMedian (ages asOf resolved) (ageDays asOf view) := by
  have hbefore : resolved.filter ResolvedCitation.verified = resolved :=
    filter_eq_self.mpr hverified
  have hafter : (resolved ++ [c]).filter ResolvedCitation.verified = resolved ++ [c] := by
    rw [filter_append, hbefore, filter_eq_self.mpr (by simpa using hverified c hc)]
  have hone (l : List (ResolvedCitation K)) (hl : c ∈ l) : (l.length : K) / l.length = 1 :=
    div_self (Nat.cast_ne_zero.mpr (length_pos_of_mem hl).ne')
  have hids : logScaled m (signalIds (resolved ++ [c])).length CORROBORATION_TARGET =
      logScaled m (signalIds resolved).length CORROBORATION_TARGET := by
    unfold signalIds
    rw [map_append]
    exact logScaled_dedup m _ (by simpa using ⟨c, hc, rfl⟩)
  have hplatforms : logScaled m (platforms (resolved ++ [c])).length INDEPENDENCE_TARGET =
      logScaled m (platforms resolved).length INDEPENDENCE_TARGET := by
    unfold platforms
    rw [filterMap_append]
    refine logScaled_dedup m _ fun platform hmem => ?_
    obtain ⟨item, hitem, hplatform⟩ := mem_filterMap.mp hmem
    rw [mem_singleton] at hitem
    exact mem_filterMap.mpr ⟨item, hitem ▸ hc, hplatform⟩
  have hsplit : NoBetter m asOf resolved (resolved ++ [c]) ↔
      meanSignalConfidence (resolved ++ [c]) ≤ meanSignalConfidence resolved ∧
        ∀ after ∈ medianAge asOf (resolved ++ [c]), ∃ before ∈ medianAge asOf resolved,
          before ≤ after := by
    constructor
    · intro h
      have hquality := h.sourceQuality
      have hage := h.age
      unfold components at hquality
      rw [hbefore, hafter] at hquality hage
      exact ⟨hquality, hage⟩
    · rintro ⟨hquality, hage⟩
      constructor <;> try unfold components
      all_goals rw [hbefore, hafter]
      · exact (hone _ (mem_append_left _ hc)).trans_le (hone _ hc).ge
      · exact hids.le
      · exact hplatforms.le
      · exact hquality
      · exact hage
  rw [hsplit]
  cases hview : c.signal with
  | none =>
    unfold meanSignalConfidence
    rw [bySignal_concat_none hview, medianAge_concat_none asOf hview]
    exact iff_of_true ⟨le_rfl, fun age hage => ⟨age, hage, le_rfl⟩⟩ fun view h => by simp at h
  | some view =>
    obtain ⟨last, hlast⟩ := exists_lastSignal hc hview
    rw [meanSignalConfidence_concat hview hlast, medianAge_concat_some hc hview]
    simp only [Option.some.injEq, forall_eq', hlast]

end

/-! ## The score -/

section

variable [Field K] [LinearOrder K] {m : Floats K} {resolved : List (ResolvedCitation K)}
  {asOf : Option ℤ} {utcnow : ℤ} {degraded : Bool}

/-- The laws of `**` on positive bases and of `round(value, 4)`. -/
structure Floats.Lawful (m : Floats K) : Prop where
  pow_pos : ∀ b w, 0 < b → 0 < m.pow b w
  pow_le_pow : ∀ b c w, 0 < b → b ≤ c → 0 ≤ w → m.pow b w ≤ m.pow c w
  pow_add : ∀ b v w, 0 < b → m.pow b (v + w) = m.pow b v * m.pow b w
  pow_one : ∀ b, m.pow b 1 = b
  round_mono : Monotone m.round4
  round_fixed : ∀ (n : ℕ) (x : K), x = n / 10000 → m.round4 x = x

def Components.parts (c : Components K) : Fin 5 → K :=
  ![c.verification, c.corroboration, c.independence, c.sourceQuality, c.recency]

def weightedProd (m : Floats K) (c : Components K) : K :=
  ∏ i, m.pow (max (c.parts i) COMPONENT_FLOOR) (CONFIDENCE_WEIGHTS.parts i)

def capped (m : Floats K) (degraded : Bool) (score : K) : K :=
  m.round4 (min 1 (max 0 (if degraded then min score DEGRADED_CEILING else score)))

theorem aggregateConfidence_none (hnone : resolved.filter ResolvedCitation.verified = []) :
    (aggregateConfidence m resolved asOf utcnow degraded).score = 0 ∧
      (aggregateConfidence m resolved asOf utcnow degraded).components = .all 0 := by
  unfold aggregateConfidence
  dsimp only
  rw [if_pos (.inr hnone)]
  exact ⟨rfl, rfl⟩

theorem aggregateConfidence_some (hsome : resolved.filter ResolvedCitation.verified ≠ []) :
    (aggregateConfidence m resolved asOf utcnow degraded).score =
        capped m degraded (weightedProd m (components m (asOf.getD utcnow) resolved)) ∧
      (aggregateConfidence m resolved asOf utcnow degraded).components =
        (components m (asOf.getD utcnow) resolved).map m.round4 := by
  have htotal : resolved.length ≠ 0 := fun h => hsome (by rw [length_eq_zero_iff.mp h]; rfl)
  unfold aggregateConfidence weightedProd
  dsimp only
  rw [if_neg (not_or.mpr ⟨htotal, hsome⟩), Fin.prod_univ_five]
  exact ⟨rfl, rfl⟩

variable [IsStrictOrderedRing K]

theorem floor_pos : (0 : K) < COMPONENT_FLOOR := div_pos (by norm_num) (by norm_num)

theorem weights_nonneg (i : Fin 5) : (0 : K) ≤ CONFIDENCE_WEIGHTS.parts i := by
  fin_cases i <;> exact div_nonneg (by norm_num) (by norm_num)

theorem weightedProd_le (hm : m.Lawful) {c c' : Components K} (h : ∀ i, c.parts i ≤ c'.parts i) :
    weightedProd m c ≤ weightedProd m c' := by
  have hpos (x : K) : 0 < max x COMPONENT_FLOOR := lt_max_of_lt_right floor_pos
  exact Finset.prod_le_prod (fun i _ => (hm.pow_pos _ _ (hpos _)).le) fun i _ =>
    hm.pow_le_pow _ _ _ (hpos _) (max_le_max_right _ (h i)) (weights_nonneg i)

/-- The weights add up to one. -/
theorem floor_le_weightedProd (hm : m.Lawful) (c : Components K) :
    COMPONENT_FLOOR ≤ weightedProd m c := by
  have hsum : (30 / 100 + 20 / 100 + 20 / 100 + 20 / 100 + 10 / 100 : K) = 1 := by norm_num
  calc (COMPONENT_FLOOR : K)
      = m.pow COMPONENT_FLOOR (30 / 100 + 20 / 100 + 20 / 100 + 20 / 100 + 10 / 100) := by
        rw [hsum, hm.pow_one]
    _ = ∏ i, m.pow COMPONENT_FLOOR (CONFIDENCE_WEIGHTS.parts i) := by
        simp only [hm.pow_add _ _ _ floor_pos, Fin.prod_univ_five]
        rfl
    _ ≤ weightedProd m c := Finset.prod_le_prod (fun i _ => (hm.pow_pos _ _ floor_pos).le)
        fun i _ => hm.pow_le_pow _ _ _ floor_pos (le_max_right _ _) (weights_nonneg i)

theorem capped_mem (hm : m.Lawful) {x : K} (hx : COMPONENT_FLOOR ≤ x) :
    COMPONENT_FLOOR ≤ capped m degraded x ∧
      capped m degraded x ≤ if degraded then DEGRADED_CEILING else 1 := by
  have hround (n : ℕ) {y : K} (hy : y = n / 10000) : m.round4 y = y := hm.round_fixed n y hy
  have hfloor := hround 500 (y := COMPONENT_FLOOR) (by unfold COMPONENT_FLOOR; norm_num)
  have hceiling := hround 6000 (y := DEGRADED_CEILING) (by unfold DEGRADED_CEILING; norm_num)
  have hle : (COMPONENT_FLOOR : K) ≤ DEGRADED_CEILING := by
    unfold COMPONENT_FLOOR DEGRADED_CEILING
    norm_num
  have hone : (DEGRADED_CEILING : K) ≤ 1 := by
    unfold DEGRADED_CEILING
    norm_num
  constructor
  · refine hfloor.ge.trans (hm.round_mono (le_min (hle.trans hone) (le_max_of_le_right ?_)))
    split_ifs
    · exact le_min hx hle
    · exact hx
  · unfold capped
    split_ifs
    · refine (hm.round_mono (min_le_of_right_le (max_le ?_ (min_le_right _ _)))).trans_eq hceiling
      exact floor_pos.le.trans hle
    · exact (hm.round_mono (min_le_left _ _)).trans_eq (hround 10000 (by norm_num))

/-- No verified citation scores zero; one scores at least the floor of the components, and after a
degraded retrieval no more than its ceiling. -/
theorem aggregateConfidence_bounds (hm : m.Lawful) (resolved : List (ResolvedCitation K))
    (asOf : Option ℤ) (utcnow : ℤ) (degraded : Bool) :
    let score := (aggregateConfidence m resolved asOf utcnow degraded).score
    (∀ item ∈ resolved, item.verified = false) ∧ score = 0 ∨
      (∃ item ∈ resolved, item.verified = true) ∧ COMPONENT_FLOOR ≤ score ∧
        score ≤ if degraded then DEGRADED_CEILING else 1 := by
  by_cases h : resolved.filter ResolvedCitation.verified = []
  · refine .inl ⟨fun item hitem => ?_, (aggregateConfidence_none h).1⟩
    exact Bool.eq_false_of_not_eq_true (filter_eq_nil_iff.mp h item hitem)
  · obtain ⟨item, hitem⟩ := exists_mem_of_ne_nil _ h
    refine .inr ⟨⟨item, mem_filter.mp hitem⟩, ?_⟩
    rw [(aggregateConfidence_some h).1]
    exact capped_mem hm (floor_le_weightedProd hm _)

/-- Unverified citations, wherever they stand among the others, change no component but
`verification`, and raise neither it nor the score. -/
theorem aggregateConfidence_unverified (hm : m.Lawful) {before after : List (ResolvedCitation K)}
    (hsame : after.filter ResolvedCitation.verified = before.filter ResolvedCitation.verified)
    (hmore : before.length ≤ after.length) (asOf : Option ℤ) (utcnow : ℤ) (degraded : Bool) :
    (aggregateConfidence m after asOf utcnow degraded).score ≤
      (aggregateConfidence m before asOf utcnow degraded).score ∧
    ∃ verification ≤ (aggregateConfidence m before asOf utcnow degraded).components.verification,
      (aggregateConfidence m after asOf utcnow degraded).components =
        { (aggregateConfidence m before asOf utcnow degraded).components with verification } := by
  by_cases hnone : before.filter ResolvedCitation.verified = []
  · rw [(aggregateConfidence_none hnone).1, (aggregateConfidence_none hnone).2,
      (aggregateConfidence_none (hsame.trans hnone)).1,
      (aggregateConfidence_none (hsame.trans hnone)).2]
    exact ⟨le_rfl, 0, le_rfl, rfl⟩
  · have hlength : 0 < before.length :=
      length_pos_of_ne_nil fun h => hnone (by rw [h, filter_nil])
    have hverification : ((before.filter ResolvedCitation.verified).length : K) / after.length ≤
        (before.filter ResolvedCitation.verified).length / before.length :=
      div_le_div_of_nonneg_left (Nat.cast_nonneg _) (Nat.cast_pos.mpr hlength)
        (Nat.cast_le.mpr hmore)
    have hparts : components m (asOf.getD utcnow) after =
        { components m (asOf.getD utcnow) before with
          verification := (before.filter ResolvedCitation.verified).length / after.length } := by
      unfold components
      rw [hsame]
    rw [(aggregateConfidence_some hnone).1, (aggregateConfidence_some hnone).2,
      (aggregateConfidence_some (hsame ▸ hnone)).1, (aggregateConfidence_some (hsame ▸ hnone)).2,
      hparts]
    refine ⟨hm.round_mono (min_le_min_left _ (max_le_max_left _ ?_)), _,
      hm.round_mono hverification, rfl⟩
    have hle : weightedProd m { components m (asOf.getD utcnow) before with
        verification := (before.filter ResolvedCitation.verified).length / after.length } ≤
        weightedProd m (components m (asOf.getD utcnow) before) :=
      weightedProd_le hm (Fin.cases hverification fun i => le_of_eq (by fin_cases i <;> rfl))
    split_ifs
    · exact min_le_min_right _ hle
    · exact hle

end

/-- With halves rounded up. -/
noncomputable def realFloats : Floats ℝ :=
  ⟨fun n => Real.log (1 + n), Real.rpow, fun x => (round (x * 10000) : ℝ) / 10000⟩

theorem realFloats_lawful : realFloats.Lawful where
  pow_pos b w hb := Real.rpow_pos_of_pos hb w
  pow_le_pow b c w hb hbc hw := Real.rpow_le_rpow hb.le hbc hw
  pow_add b v w hb := Real.rpow_add hb v w
  pow_one := Real.rpow_one
  round_mono x y hxy := by
    have hround : round (x * 10000) ≤ round (y * 10000) := by
      rw [round_eq, round_eq]
      exact Int.floor_le_floor (by linarith)
    exact div_le_div_of_nonneg_right (Int.cast_le.mpr hround) (by norm_num)
  round_fixed n x hx := by
    have hcancel : x * 10000 = n := by rw [hx, div_mul_cancel₀ _ (by norm_num)]
    unfold realFloats
    dsimp only
    rw [hcancel, round_natCast, Int.cast_natCast, hx]

def quoted (outcome : VerificationOutcome) : ResolvedCitation ℝ :=
  { citation := ⟨"a", ['o', 'k'], none, none⟩
    verification := ⟨"a", ['o', 'k'], outcome, none, none, none, ""⟩
    signal := some ⟨.reddit, 1, 0⟩ }

theorem aggregateConfidence_quoted :
    (aggregateConfidence realFloats [quoted .misquoted] none 0 true).score = 0 := by
  obtain ⟨-, hzero⟩ | ⟨⟨item, hitem, hverified⟩, -⟩ :=
    aggregateConfidence_bounds realFloats_lawful [quoted .misquoted] none 0 true
  · exact hzero
  · obtain rfl := mem_singleton.mp hitem
    cases hverified

theorem aggregateConfidence_misquoted :
    (aggregateConfidence realFloats [quoted .misquoted, quoted .verified] none 0 true).score ≤
      (aggregateConfidence realFloats [quoted .verified] none 0 true).score :=
  have hsame : [quoted .misquoted, quoted .verified].filter ResolvedCitation.verified =
      [quoted .verified].filter ResolvedCitation.verified := rfl
  (aggregateConfidence_unverified realFloats_lawful hsame (Nat.le_succ 1) none 0 true).1

def sampleFloats : Floats ℚ :=
  ⟨fun n => [0, 6931, 10986, 13863, 16094, 17918, 19459].getD n 0 / 10000,
    fun base exponent => base ^ exponent.floor.toNat, id⟩

def samplePost (signalId : String) (confidence : ℚ) (day : ℤ) : ResolvedCitation ℚ :=
  { citation := ⟨signalId, ['o', 'k'], none, none⟩
    verification := ⟨signalId, ['o', 'k'], .relocated, some ⟨0, 2, 1, true⟩, none, none, ""⟩
    signal := some ⟨.reddit, confidence, day * 86400000000⟩ }

def samplePosts : List (ResolvedCitation ℚ) :=
  [samplePost "new" (1 / 2) 180, samplePost "old" (1 / 2) 0, samplePost "older" (1 / 2) 0]

/-- The new post cited twice among two old ones: the median age goes from 180 days to 90, and the
recency from a quarter to a half. -/
theorem repeating_new :
    samplePost "new" (1 / 2) 180 ∈ samplePosts ∧
      (∀ item ∈ samplePosts, item.verified = true) ∧
      recency sampleFloats (180 * 86400000000) samplePosts = 1 / 4 ∧
      recency sampleFloats (180 * 86400000000)
        (samplePosts ++ [samplePost "new" (1 / 2) 180]) = 1 / 2 ∧
      ¬NoBetter sampleFloats (180 * 86400000000) samplePosts
        (samplePosts ++ [samplePost "new" (1 / 2) 180]) := by
  have hbefore : medianAge (180 * 86400000000) samplePosts = some 180 := by decide +kernel
  have hafter : medianAge (180 * 86400000000) (samplePosts ++ [samplePost "new" (1 / 2) 180]) =
      some 90 := by decide +kernel
  refine ⟨mem_cons_self, by decide, ?_, ?_, fun h => ?_⟩
  · unfold recency
    rw [hbefore]
    decide +kernel
  · unfold recency
    rw [hafter]
    decide +kernel
  · obtain ⟨age, hage, hle⟩ := h.age 90 hafter
    obtain rfl : (180 : ℚ) = age := Option.some.inj (hbefore.symm.trans hage)
    exact absurd hle (by decide +kernel)

/-- One of two equally old posts is cited again. -/
theorem repeating_old :
    samplePost "old" (1 / 2) 0 ∈ samplePosts ∧
      NoBetter sampleFloats (180 * 86400000000) samplePosts
        (samplePosts ++ [samplePost "old" (1 / 2) 0]) := by
  have hmem : samplePost "old" (1 / 2) 0 ∈ samplePosts :=
    mem_cons_of_mem _ mem_cons_self
  refine ⟨hmem, (repeating_citation sampleFloats (180 * 86400000000) (by decide) hmem).mpr ?_⟩
  rintro view ⟨rfl⟩
  refine ⟨?_, .inl (by decide +kernel)⟩
  rintro last ⟨rfl⟩
  exact le_rfl

end OmniSense.Evidence
