import Mathlib.Algebra.Order.Field.Rat
import Mathlib.Tactic.FieldSimp
import OmniSense.Library.Sums
import OmniSense.Library.Unions

/-! Retrieval metrics over rankings and graded judgements: what their values are between, and what
it means that they are perfect. -/

namespace OmniSense.Retrieval.Metrics

open Library Option

def MAX_GRADE : ℤ := 3

abbrev Grades := Dict String ℤ

def relevance (grades : Grades) (docId : String) : ℤ :=
  max 0 (min MAX_GRADE ((grades.get? docId).getD 0))

def isRelevant (threshold grade : ℤ) : Bool := threshold ≤ grade

def totalRelevant (grades : Grades) (threshold : ℤ) : ℕ :=
  grades.values.countP (isRelevant threshold)

def relevantIn (rankedIds : List String) (grades : Grades) (threshold : ℤ) : ℕ :=
  rankedIds.countP fun docId => isRelevant threshold (relevance grades docId)

section

variable {K : Type} [Field K] [LinearOrder K]

def precisionAtK (rankedIds : List String) (grades : Grades) (threshold : ℤ) (k : ℕ) : K :=
  (relevantIn (rankedIds.take k) grades threshold : K) / k

def recallAtK (rankedIds : List String) (grades : Grades) (threshold : ℤ) (k : ℕ) : K :=
  if totalRelevant grades threshold = 0 then 1
  else (relevantIn (rankedIds.take k) grades threshold : K) / totalRelevant grades threshold

def hitRate (rankedIds : List String) (grades : Grades) (threshold : ℤ) (k : ℕ) : K :=
  if (rankedIds.take k).any fun docId => isRelevant threshold (relevance grades docId) then 1 else 0

/-- `for position, doc_id in enumerate(ranked_ids, start=1)`. -/
def reciprocalRankFrom (grades : Grades) (threshold : ℤ) : ℕ → List String → K
  | _, [] => 0
  | position, docId :: rest =>
    if isRelevant threshold (relevance grades docId) then 1 / position
    else reciprocalRankFrom grades threshold (position + 1) rest

def reciprocalRank (rankedIds : List String) (grades : Grades) (threshold : ℤ) : K :=
  reciprocalRankFrom grades threshold 1 rankedIds

/-- What the loop of `average_precision` adds up from a position on, with the hits before it. -/
def precisionsFrom (grades : Grades) (threshold : ℤ) : ℕ → ℕ → List String → K
  | _, _, [] => 0
  | hits, position, docId :: rest =>
    if isRelevant threshold (relevance grades docId) then
      ((hits + 1 : ℕ) : K) / position + precisionsFrom grades threshold (hits + 1) (position + 1) rest
    else precisionsFrom grades threshold hits (position + 1) rest

def averagePrecision (rankedIds : List String) (grades : Grades) (threshold : ℤ) : K :=
  if totalRelevant grades threshold = 0 then 1
  else precisionsFrom grades threshold 0 1 rankedIds / totalRelevant grades threshold

/-- `2**grade - 1`. -/
def gain (grade : ℤ) : K := ((2 ^ grade.toNat : ℕ) : K) - 1

-- `1 / math.log2(position + 1)`.
variable (discount : ℕ → K)

def dcgFrom : ℕ → List ℤ → K
  | _, [] => 0
  | position, grade :: rest =>
    (if 0 < grade then gain grade * discount position else 0) + dcgFrom (position + 1) rest

def dcg (relevances : List ℤ) : K := dcgFrom discount 1 relevances

def positiveGrades (grades : Grades) : List ℤ :=
  (grades.values.filter fun grade => 0 < grade).insertionSort fun a b => b ≤ a

def ndcgAtK (rankedIds : List String) (grades : Grades) (k : ℕ) : K :=
  let actual := dcg discount ((rankedIds.take k).map (relevance grades))
  let ideal := dcg discount ((positiveGrades grades).take k)
  if ideal ≤ 0 then 1 else actual / ideal

structure QueryEvaluation (K : Type) where
  queryId : String
  retrieved : ℕ
  relevantAvailable : ℕ
  precision : Dict ℤ K
  recallAt : Dict ℤ K
  ndcg : Dict ℤ K
  hit : Dict ℤ K
  reciprocalRank : K
  averagePrecision : K

/-- `{k: metric(k) for k in k_values}`. -/
def atEach (kValues : List ℤ) (metric : ℕ → K) : Dict ℤ K :=
  .ofList (kValues.map fun k => (k, metric k.toNat))

def evaluateQuery (queryId : String) (rankedIds : List String) (grades : Grades)
    (kValues : List ℤ) (threshold : ℤ) : Except String (QueryEvaluation K) :=
  let deduped := appendNew [] rankedIds
  match kValues.find? fun k => k ≤ 0 with
  | some k => .error s!"k must be positive, got {k}"
  | none => .ok
    { queryId
      retrieved := deduped.length
      relevantAvailable := totalRelevant grades threshold
      precision := atEach kValues (precisionAtK deduped grades threshold)
      recallAt := atEach kValues (recallAtK deduped grades threshold)
      ndcg := atEach kValues (ndcgAtK discount deduped grades)
      hit := atEach kValues (hitRate deduped grades threshold)
      reciprocalRank := reciprocalRank deduped grades threshold
      averagePrecision := averagePrecision deduped grades threshold }

end

/-! ## Judged documents -/

section

variable {grades : Grades} {threshold : ℤ} {rankedIds : List String}

def gradeOf (grades : Grades) (docId : String) : ℤ := (grades.get? docId).getD 0

def OnScale (grades : Grades) : Prop := ∀ grade ∈ grades.values, 0 ≤ grade ∧ grade ≤ MAX_GRADE

theorem mem_values {docId : String} {grade : ℤ} (h : grades.get? docId = some grade) :
    grade ∈ grades.values :=
  List.mem_map.mpr ⟨_, Dict.mem_items_iff.mpr h, rfl⟩

theorem relevance_eq (hscale : OnScale grades) (docId : String) :
    relevance grades docId = gradeOf grades docId := by
  unfold relevance gradeOf
  cases h : grades.get? docId with
  | none => rfl
  | some grade =>
    obtain ⟨hlow, hhigh⟩ := hscale grade (mem_values h)
    rw [getD_some, min_eq_right hhigh, max_eq_right hlow]

theorem gradeOf_nonneg (hscale : OnScale grades) (docId : String) : 0 ≤ gradeOf grades docId :=
  relevance_eq hscale docId ▸ le_max_left 0 _

theorem filterMap_subperm (hnodup : rankedIds.Nodup) :
    (rankedIds.filterMap grades.get?).Subperm grades.values := by
  let entries := rankedIds.filterMap fun docId => (grades.get? docId).map fun grade => (docId, grade)
  have hentries : entries.Nodup := by
    refine hnodup.filterMap fun docId docId' entry h h' => ?_
    obtain ⟨grade, -, rfl⟩ := mem_map.mp h
    obtain ⟨grade', -, heq⟩ := mem_map.mp h'
    exact (congrArg Prod.fst heq).symm
  have hsub : entries ⊆ grades.items := by
    intro entry hentry
    obtain ⟨docId, -, hdoc⟩ := List.mem_filterMap.mp hentry
    obtain ⟨grade, hgrade, rfl⟩ := map_eq_some_iff.mp hdoc
    exact Dict.mem_items_iff.mpr hgrade
  have hvalues : entries.map Prod.snd = rankedIds.filterMap grades.get? := by
    rw [List.map_filterMap]
    refine List.filterMap_congr fun docId _ => ?_
    rw [map_map]
    exact congrFun map_id _
  obtain ⟨chosen, hperm, hchosen⟩ := List.subperm_of_subset hentries hsub
  rw [← hvalues]
  exact ⟨chosen.map Prod.snd, hperm.map _, hchosen.map _⟩

theorem filter_gradeOf {p : ℤ → Bool} (hzero : p 0 = false) (rankedIds : List String) :
    (rankedIds.map (gradeOf grades)).filter p = (rankedIds.filterMap grades.get?).filter p := by
  induction rankedIds with
  | nil => rfl
  | cons docId rest ih =>
    rw [List.map_cons, List.filter_cons, ih, List.filterMap_cons]
    unfold gradeOf
    cases h : grades.get? docId with
    | none => simp [hzero]
    | some grade => simp [List.filter_cons]

theorem filter_gradeOf_subperm {p : ℤ → Bool} (hzero : p 0 = false) (hnodup : rankedIds.Nodup) :
    ((rankedIds.map (gradeOf grades)).filter p).Subperm (grades.values.filter p) := by
  rw [filter_gradeOf hzero]
  exact (filterMap_subperm hnodup).filter p

theorem isRelevant_zero (hthreshold : 1 ≤ threshold) : isRelevant threshold 0 = false :=
  decide_eq_false (by omega)

theorem relevantIn_eq (hscale : OnScale grades) (rankedIds : List String) :
    relevantIn rankedIds grades threshold =
      ((rankedIds.map (gradeOf grades)).filter (isRelevant threshold)).length := by
  rw [← List.countP_eq_length_filter, List.countP_map]
  exact List.countP_congr fun docId _ => by rw [relevance_eq hscale]; rfl

theorem relevantIn_le (hscale : OnScale grades) (hthreshold : 1 ≤ threshold)
    (hnodup : rankedIds.Nodup) :
    relevantIn rankedIds grades threshold ≤ totalRelevant grades threshold := by
  unfold totalRelevant
  rw [relevantIn_eq hscale, List.countP_eq_length_filter]
  exact (filter_gradeOf_subperm (isRelevant_zero hthreshold) hnodup).length_le

theorem relevantIn_eq_iff (hscale : OnScale grades) (hthreshold : 1 ≤ threshold)
    (hnodup : rankedIds.Nodup) :
    relevantIn rankedIds grades threshold = totalRelevant grades threshold ↔
      ∀ docId, threshold ≤ gradeOf grades docId → docId ∈ rankedIds := by
  let relevant := (grades.items.filter fun entry => isRelevant threshold entry.2).map Prod.fst
  have hrelevant : relevant.Nodup := grades.nodup.sublist (List.filter_sublist.map Prod.fst)
  have hmem : ∀ docId, docId ∈ relevant ↔ threshold ≤ gradeOf grades docId := by
    intro docId
    rw [List.mem_map]
    constructor
    · rintro ⟨⟨_, grade⟩, hentry, rfl⟩
      obtain ⟨hentry, hgrade⟩ := List.mem_filter.mp hentry
      unfold gradeOf
      rw [Dict.mem_items_iff.mp hentry]
      exact of_decide_eq_true hgrade
    · intro hgrade
      unfold gradeOf at hgrade
      cases hget : grades.get? docId with
      | none =>
        rw [hget, getD_none] at hgrade
        omega
      | some grade =>
        rw [hget] at hgrade
        exact ⟨(docId, grade), List.mem_filter.mpr ⟨Dict.mem_items_iff.mpr hget,
          decide_eq_true hgrade⟩, rfl⟩
  have htotal : totalRelevant grades threshold = relevant.length := by
    unfold totalRelevant Dict.values
    rw [List.length_map, List.countP_map, List.countP_eq_length_filter]
    rfl
  have hfound : relevantIn rankedIds grades threshold =
      (rankedIds.filter fun docId => decide (threshold ≤ gradeOf grades docId)).length := by
    rw [← List.countP_eq_length_filter]
    exact List.countP_congr fun docId _ => by rw [relevance_eq hscale]; rfl
  have hsub : (rankedIds.filter fun docId => decide (threshold ≤ gradeOf grades docId)) ⊆ relevant :=
    fun docId hdoc => (hmem docId).mpr (of_decide_eq_true (List.mem_filter.mp hdoc).2)
  have hsubperm := List.subperm_of_subset (hnodup.filter _) hsub
  rw [hfound, htotal]
  constructor
  · intro hlength docId hdoc
    have hperm := hsubperm.perm_of_length_le hlength.ge
    exact (List.mem_filter.mp (hperm.mem_iff.mpr ((hmem docId).mpr hdoc))).1
  · intro hall
    refine le_antisymm hsubperm.length_le ?_
    refine (List.subperm_of_subset hrelevant fun docId hdoc => ?_).length_le
    have hdoc := (hmem docId).mp hdoc
    exact List.mem_filter.mpr ⟨hall docId hdoc, decide_eq_true hdoc⟩

end

/-! ## Precisions at the relevant ranks -/

section

variable {K : Type} [Field K] [LinearOrder K] [IsStrictOrderedRing K] {grades : Grades}
  {threshold : ℤ}

variable (rankedIds : List String)

theorem reciprocalRankFrom_unit {position : ℕ} (hpos : 1 ≤ position) :
    0 ≤ (reciprocalRankFrom grades threshold position rankedIds : K) ∧
      (reciprocalRankFrom grades threshold position rankedIds : K) ≤ 1 := by
  induction rankedIds generalizing position with
  | nil => exact ⟨le_rfl, zero_le_one⟩
  | cons docId rest ih =>
    unfold reciprocalRankFrom
    split_ifs
    · have hcast : (1 : K) ≤ position := Nat.one_le_cast.mpr hpos
      exact ⟨div_nonneg zero_le_one (zero_le_one.trans hcast),
        (div_le_one (zero_lt_one.trans_le hcast)).mpr hcast⟩
    · exact ih (by omega)

def RelevantFirst (grades : Grades) (threshold : ℤ) (rankedIds : List String) : Prop :=
  rankedIds.Pairwise fun before after =>
    isRelevant threshold (relevance grades after) → isRelevant threshold (relevance grades before)

theorem relevantFirst_of_none {rankedIds : List String}
    (hnone : relevantIn rankedIds grades threshold = 0) :
    RelevantFirst grades threshold rankedIds := by
  have hall := List.countP_eq_zero.mp hnone
  exact List.pairwise_iff_forall_sublist.mpr fun hsub hafter =>
    absurd hafter (hall _ (hsub.subset (by simp)))

theorem precisionsFrom_le {hits position : ℕ} (hpos : hits + 1 ≤ position) :
    0 ≤ (precisionsFrom grades threshold hits position rankedIds : K) ∧
    (precisionsFrom grades threshold hits position rankedIds : K) ≤
      relevantIn rankedIds grades threshold ∧
    ((precisionsFrom grades threshold hits position rankedIds : K) =
      relevantIn rankedIds grades threshold ↔
        relevantIn rankedIds grades threshold = 0 ∨
          hits + 1 = position ∧ RelevantFirst grades threshold rankedIds) := by
  induction rankedIds generalizing hits position with
  | nil => exact ⟨le_rfl, by simp [precisionsFrom, relevantIn], by simp [precisionsFrom, relevantIn]⟩
  | cons docId rest ih =>
    have hposition : (0 : K) < position := Nat.cast_pos.mpr (by omega)
    unfold precisionsFrom
    by_cases hrelevant : isRelevant threshold (relevance grades docId) = true
    · obtain ⟨hnonneg, hle, heq⟩ := ih (by omega : hits + 1 + 1 ≤ position + 1)
      have hcount : relevantIn (docId :: rest) grades threshold =
          relevantIn rest grades threshold + 1 := List.countP_cons_of_pos hrelevant
      have hone : (((hits + 1 : ℕ) : K) / position) ≤ 1 :=
        (div_le_one hposition).mpr (Nat.cast_le.mpr hpos)
      have hone' : (((hits + 1 : ℕ) : K) / position) = 1 ↔ hits + 1 = position := by
        rw [div_eq_one_iff_eq hposition.ne', Nat.cast_inj]
      have hfirst : RelevantFirst grades threshold (docId :: rest) ↔
          RelevantFirst grades threshold rest := by
        unfold RelevantFirst
        rw [List.pairwise_cons]
        exact and_iff_right fun _ _ _ => hrelevant
      have hcast : ((relevantIn rest grades threshold + 1 : ℕ) : K) =
          relevantIn rest grades threshold + 1 := Nat.cast_succ _
      rw [if_pos hrelevant, hcount, hcast, hfirst]
      refine ⟨add_nonneg (div_nonneg (Nat.cast_nonneg _) hposition.le) hnonneg, by linarith, ?_⟩
      rw [or_iff_right (Nat.succ_ne_zero _), ← hone']
      constructor
      · intro hsum
        have hboth : (((hits + 1 : ℕ) : K) / position) = 1 := by linarith
        refine ⟨hboth, ?_⟩
        rcases heq.mp (by linarith) with hzero | ⟨-, hrest⟩
        · exact relevantFirst_of_none hzero
        · exact hrest
      · rintro ⟨hboth, hrest⟩
        have hrank := hone'.mp hboth
        rw [hboth, heq.mpr (.inr ⟨by omega, hrest⟩), add_comm]
    · obtain ⟨hnonneg, hle, heq⟩ := ih (by omega : hits + 1 ≤ position + 1)
      have hcount : relevantIn (docId :: rest) grades threshold =
          relevantIn rest grades threshold := List.countP_cons_of_neg hrelevant
      rw [if_neg hrelevant, hcount]
      refine ⟨hnonneg, hle, heq.trans (or_congr_right' fun hsome => iff_of_false (by omega) ?_)⟩
      -- Nothing relevant may follow a document that is not.
      rintro ⟨-, hfirst⟩
      refine hsome (List.countP_eq_zero.mpr fun after hafter h => hrelevant ?_)
      exact (List.pairwise_cons.mp hfirst).1 after hafter h

theorem averagePrecision_unit
    (hle : relevantIn rankedIds grades threshold ≤ totalRelevant grades threshold) :
    0 ≤ (averagePrecision rankedIds grades threshold : K) ∧
    (averagePrecision rankedIds grades threshold : K) ≤ 1 ∧
    ((averagePrecision rankedIds grades threshold : K) = 1 ↔
      totalRelevant grades threshold = 0 ∨
        relevantIn rankedIds grades threshold = totalRelevant grades threshold ∧
          RelevantFirst grades threshold rankedIds) := by
  obtain ⟨hnonneg, hsum, hall⟩ :=
    @precisionsFrom_le K _ _ _ grades threshold rankedIds 0 1 le_rfl
  unfold averagePrecision
  split_ifs with hzero
  · exact ⟨zero_le_one, le_rfl, by simp [hzero]⟩
  have htotal : (0 : K) < totalRelevant grades threshold :=
    Nat.cast_pos.mpr (Nat.pos_of_ne_zero hzero)
  have hcast : (relevantIn rankedIds grades threshold : K) ≤ totalRelevant grades threshold :=
    Nat.cast_le.mpr hle
  refine ⟨div_nonneg hnonneg htotal.le, (div_le_one htotal).mpr (hsum.trans hcast), ?_⟩
  rw [div_eq_one_iff_eq htotal.ne', or_iff_right hzero]
  constructor
  · intro heq
    have hfound : relevantIn rankedIds grades threshold = totalRelevant grades threshold :=
      Nat.cast_injective (le_antisymm hcast (heq ▸ hsum))
    rw [← hfound] at heq
    exact ⟨hfound, ((hall.mp heq).resolve_left (hfound ▸ hzero)).2⟩
  · rintro ⟨hfound, hfirst⟩
    rw [← hfound]
    exact hall.mpr (.inr ⟨rfl, hfirst⟩)

end

/-! ## Discounted gains -/

section

variable {K : Type} [Field K] {grades : Grades} {rankedIds : List String} {k : ℕ}
  {discount : ℕ → K}

theorem gain_zero : (gain 0 : K) = 0 := by
  unfold gain
  rw [Int.toNat_zero, pow_zero, Nat.cast_one, sub_self]

theorem padded_gain (relevances : List ℤ) (i : ℕ) :
    padded (relevances.map (gain : ℤ → K)) i = gain (relevances.getD i 0) := by
  unfold padded
  rw [← gain_zero, List.getD_map]

open Finset in
theorem dcgFrom_eq (relevances : List ℤ) {position n : ℕ} (hn : relevances.length ≤ n) :
    dcgFrom discount position relevances =
      ∑ i ∈ range n, padded (relevances.map gain) i * discount (position + i) := by
  induction relevances generalizing position n with
  | nil => simp [dcgFrom, padded]
  | cons grade rest ih =>
    obtain ⟨n, rfl⟩ : ∃ m, n = m + 1 := ⟨n - 1, by simp at hn; omega⟩
    have hgain : (if 0 < grade then gain grade * discount position else 0) =
        gain grade * discount position := by
      split_ifs with hpos
      · rfl
      · have hzero : (gain grade : K) = 0 := by
          unfold gain
          rw [Int.toNat_of_nonpos (not_lt.mp hpos), pow_zero, Nat.cast_one, sub_self]
        rw [hzero, zero_mul]
    rw [dcgFrom, hgain, ih (Nat.le_of_succ_le_succ hn), sum_range_succ', add_comm]
    simp [padded, Nat.add_assoc, Nat.add_comm 1]

theorem dcg_eq {relevances : List ℤ} {k : ℕ} (hk : relevances.length ≤ k) :
    dcg discount relevances =
      discountedSum (padded (relevances.map gain)) (fun i => discount (1 + i)) k :=
  dcgFrom_eq relevances hk

theorem sum_gain_filter {grades : List ℤ} (hnonneg : ∀ grade ∈ grades, 0 ≤ grade) :
    (grades.map (gain : ℤ → K)).sum = ((grades.filter fun grade => 0 < grade).map gain).sum := by
  induction grades with
  | nil => rfl
  | cons grade rest ih =>
    obtain ⟨hgrade, hrest⟩ := List.forall_mem_cons.mp hnonneg
    rw [List.filter_cons, List.map_cons, List.sum_cons, ih hrest]
    split_ifs with hpos
    · rw [List.map_cons, List.sum_cons]
    · obtain rfl : grade = 0 := le_antisymm (by simpa using hpos) hgrade
      rw [gain_zero, zero_add]

variable [LinearOrder K] [IsStrictOrderedRing K]

theorem gain_nonneg (grade : ℤ) : (0 : K) ≤ gain grade :=
  sub_nonneg.mpr (Nat.one_le_cast.mpr Nat.one_le_two_pow)

theorem gain_inj {a b : ℤ} (ha : 0 ≤ a) (hb : 0 ≤ b) : (gain a : K) = gain b ↔ a = b := by
  unfold gain
  rw [sub_left_inj, Nat.cast_inj, Nat.pow_right_inj one_lt_two]
  omega

theorem gain_le {a b : ℤ} (h : a ≤ b) : (gain a : K) ≤ gain b :=
  sub_le_sub_right
    (Nat.cast_le.mpr (Nat.pow_le_pow_right two_pos (Int.toNat_le_toNat h))) 1

theorem sum_gain_le (hscale : OnScale grades) (hnodup : rankedIds.Nodup) (n : ℕ) :
    (((rankedIds.take n).map (gradeOf grades)).map (gain : ℤ → K)).sum ≤
      (((positiveGrades grades).map gain).take n).sum := by
  have hnonneg : ∀ grade ∈ (rankedIds.take n).map (gradeOf grades), 0 ≤ grade := by
    intro grade hmem
    obtain ⟨docId, -, rfl⟩ := List.mem_map.mp hmem
    exact gradeOf_nonneg hscale docId
  have hsorted : ((positiveGrades grades).map (gain : ℤ → K)).Pairwise fun a b => b ≤ a :=
    (List.pairwise_insertionSort _ _).map _ fun _ _ h => gain_le h
  have hchosen : (((rankedIds.take n).map (gradeOf grades)).filter fun grade => 0 < grade).Subperm
      (grades.values.filter fun grade => 0 < grade) :=
    filter_gradeOf_subperm (decide_eq_false (lt_irrefl 0))
      (hnodup.sublist (List.take_sublist n rankedIds))
  obtain ⟨chosen, hperm, hsub⟩ :=
    hchosen.trans (List.perm_insertionSort (fun a b => b ≤ a) _).symm.subperm
  rw [sum_gain_filter hnonneg]
  refine sum_le_sum_take hsorted (fun a hmem => ?_) ⟨chosen.map gain, hperm.map _, hsub.map _⟩ ?_
  · obtain ⟨grade, -, rfl⟩ := List.mem_map.mp hmem
    exact gain_nonneg grade
  · rw [List.length_map]
    exact (List.length_filter_le _ _).trans (by simp)

theorem getD_nonneg {grades : List ℤ} {i : ℕ} (hnonneg : ∀ grade ∈ grades, 0 ≤ grade) :
    0 ≤ grades.getD i 0 := by
  rcases Nat.lt_or_ge i grades.length with hi | hi
  · rw [List.getD_eq_getElem _ _ hi]
    exact hnonneg _ (List.getElem_mem hi)
  · rw [List.getD_eq_default _ _ hi]

theorem ndcgAtK_unit (hpos : ∀ i, 1 ≤ i → 0 < discount i)
    (hfall : ∀ i, 1 ≤ i → discount (i + 1) < discount i) (hscale : OnScale grades)
    (hnodup : rankedIds.Nodup) :
    0 ≤ ndcgAtK discount rankedIds grades k ∧ ndcgAtK discount rankedIds grades k ≤ 1 ∧
    (ndcgAtK discount rankedIds grades k = 1 ↔
      ∀ i < k, ((rankedIds.take k).map (gradeOf grades)).getD i 0 =
        ((positiveGrades grades).take k).getD i 0) := by
  have hgrades : (rankedIds.take k).map (relevance grades) =
      (rankedIds.take k).map (gradeOf grades) :=
    List.map_congr_left fun docId _ => relevance_eq hscale docId
  have hactual := @dcg_eq K _ discount ((rankedIds.take k).map (gradeOf grades)) k (by simp)
  have hideal := @dcg_eq K _ discount ((positiveGrades grades).take k) k (List.length_take_le _ _)
  have hpartial : ∀ j ≤ k,
      partialSum (padded (((rankedIds.take k).map (gradeOf grades)).map (gain : ℤ → K))) j ≤
        partialSum (padded (((positiveGrades grades).take k).map gain)) j := by
    intro j hj
    have hle := sum_gain_le (K := K) hscale hnodup j
    rw [partialSum_padded, partialSum_padded]
    simpa only [List.map_take, List.take_take, min_eq_left hj] using hle
  have hpos' (i) : 0 < discount (1 + i) := hpos _ (Nat.le_add_right 1 i)
  obtain ⟨hle, heq⟩ := discountedSum_le hpos' (fun i => hfall _ (Nat.le_add_right 1 i)) hpartial
  have hnonneg : 0 ≤ dcg discount ((rankedIds.take k).map (gradeOf grades)) := by
    rw [hactual]
    refine Finset.sum_nonneg fun i _ => mul_nonneg ?_ (hpos' i).le
    rw [padded_gain]
    exact gain_nonneg _
  rw [← hactual, ← hideal] at hle heq
  have hsame : dcg discount ((rankedIds.take k).map (gradeOf grades)) =
      dcg discount ((positiveGrades grades).take k) ↔
        ∀ i < k, ((rankedIds.take k).map (gradeOf grades)).getD i 0 =
          ((positiveGrades grades).take k).getD i 0 := by
    rw [heq]
    refine forall₂_congr fun i _ => ?_
    rw [padded_gain, padded_gain]
    refine gain_inj (getD_nonneg fun grade hmem => ?_) (getD_nonneg fun grade hmem => ?_)
    · obtain ⟨docId, -, rfl⟩ := List.mem_map.mp hmem
      exact gradeOf_nonneg hscale docId
    · have hpositive := (List.mem_insertionSort _).mp (List.mem_of_mem_take hmem)
      exact (of_decide_eq_true (List.mem_filter.mp hpositive).2).le
  unfold ndcgAtK
  rw [hgrades, ← hsame]
  dsimp only
  split_ifs with hnone
  · exact ⟨zero_le_one, le_rfl, iff_of_true rfl (le_antisymm hle (hnone.trans hnonneg))⟩
  · have hideal_pos := not_le.mp hnone
    exact ⟨div_nonneg hnonneg hideal_pos.le, (div_le_one hideal_pos).mpr hle,
      div_eq_one_iff_eq hideal_pos.ne'⟩

end

/-! ## A query evaluated -/

section

variable {K : Type}

theorem get?_atEach {kValues : List ℤ} {k : ℤ} (metric : ℕ → K) (hk : k ∈ kValues) :
    (atEach kValues metric).get? k = some (metric k.toNat) := by
  unfold atEach
  induction kValues using List.reverseRecOn with
  | nil => exact absurd hk List.not_mem_nil
  | append_singleton kValues last ih =>
    rw [List.map_append, List.map_singleton, Dict.ofList_snoc, Dict.get?_set]
    split_ifs with heq
    · rw [heq]
    · refine ih ((List.mem_append.mp hk).resolve_right fun hlast => heq ?_)
      exact List.mem_singleton.mp hlast

variable [Field K] [LinearOrder K]

structure Normalised (rankedIds : List String) (grades : Grades) (kValues : List ℤ)
    (threshold : ℤ) (e : QueryEvaluation K) : Prop where
  unit : ∀ k ∈ kValues, ∀ metric ∈ [e.precision, e.recallAt, e.ndcg, e.hit],
    ∃ value, metric.get? k = some value ∧ 0 ≤ value ∧ value ≤ 1
  reciprocalRank : 0 ≤ e.reciprocalRank ∧ e.reciprocalRank ≤ 1
  averagePrecision : 0 ≤ e.averagePrecision ∧ e.averagePrecision ≤ 1
  recall_mono : ∀ k ∈ kValues, ∀ k' ∈ kValues, k ≤ k' →
    ∀ r ∈ e.recallAt.get? k, ∀ r' ∈ e.recallAt.get? k', r ≤ r'
  share : ∀ k ∈ kValues, 0 < e.relevantAvailable →
    ∀ p ∈ e.precision.get? k, ∀ r ∈ e.recallAt.get? k, k * p = r * e.relevantAvailable
  ndcg_one : ∀ k ∈ kValues, ∀ value ∈ e.ndcg.get? k, value = 1 ↔
    ∀ i < k.toNat, (((appendNew [] rankedIds).take k.toNat).map (gradeOf grades)).getD i 0 =
      ((positiveGrades grades).take k.toNat).getD i 0
  averagePrecision_one : e.averagePrecision = 1 ↔
    e.relevantAvailable = 0 ∨ (∀ docId, threshold ≤ gradeOf grades docId → docId ∈ rankedIds) ∧
      RelevantFirst grades threshold (appendNew [] rankedIds)

variable [IsStrictOrderedRing K] {grades : Grades} {rankedIds : List String} {threshold : ℤ}
  {k : ℕ}

theorem unit_ratio {a b : ℕ} (h : a ≤ b) : 0 ≤ (a : K) / b ∧ (a : K) / b ≤ 1 :=
  ⟨div_nonneg (Nat.cast_nonneg a) (Nat.cast_nonneg b),
    div_le_one_of_le₀ (Nat.cast_le.mpr h) (Nat.cast_nonneg b)⟩

theorem precisionAtK_unit : 0 ≤ (precisionAtK rankedIds grades threshold k : K) ∧
    (precisionAtK rankedIds grades threshold k : K) ≤ 1 :=
  unit_ratio (List.countP_le_length.trans (List.length_take_le _ _))

theorem recallAtK_unit (hscale : OnScale grades) (hthreshold : 1 ≤ threshold)
    (hnodup : rankedIds.Nodup) : 0 ≤ (recallAtK rankedIds grades threshold k : K) ∧
      (recallAtK rankedIds grades threshold k : K) ≤ 1 := by
  unfold recallAtK
  split_ifs
  · exact ⟨zero_le_one, le_rfl⟩
  · exact unit_ratio (relevantIn_le hscale hthreshold (hnodup.sublist (List.take_sublist _ _)))

theorem recallAtK_mono {k' : ℕ} (h : k ≤ k') :
    (recallAtK rankedIds grades threshold k : K) ≤ recallAtK rankedIds grades threshold k' := by
  unfold recallAtK
  split_ifs
  · exact le_rfl
  · refine div_le_div_of_nonneg_right (Nat.cast_le.mpr ?_) (Nat.cast_nonneg _)
    exact (List.take_sublist_take_left h).countP_le

theorem hitRate_unit : 0 ≤ (hitRate rankedIds grades threshold k : K) ∧
    (hitRate rankedIds grades threshold k : K) ≤ 1 := by
  unfold hitRate
  split_ifs
  · exact ⟨zero_le_one, le_rfl⟩
  · exact ⟨le_rfl, zero_le_one⟩

theorem share_eq (hk : 1 ≤ k) (htotal : 0 < totalRelevant grades threshold) :
    k * (precisionAtK rankedIds grades threshold k : K) =
      recallAtK rankedIds grades threshold k * totalRelevant grades threshold := by
  have hk' : (k : K) ≠ 0 := Nat.cast_ne_zero.mpr (by omega)
  have htotal' : (totalRelevant grades threshold : K) ≠ 0 := Nat.cast_ne_zero.mpr htotal.ne'
  unfold precisionAtK recallAtK
  rw [if_neg htotal.ne', mul_div_cancel₀ _ hk', div_mul_cancel₀ _ htotal']

/-- For judgements on the scale and positive cutoffs, with a discount that is positive and falls. -/
theorem evaluateQuery_normalised {discount : ℕ → K} (hpos : ∀ i, 1 ≤ i → 0 < discount i)
    (hfall : ∀ i, 1 ≤ i → discount (i + 1) < discount i) (queryId : String)
    (rankedIds : List String) {kValues : List ℤ} (hscale : OnScale grades)
    (hthreshold : 1 ≤ threshold) (hk : ∀ k ∈ kValues, 1 ≤ k) :
    ∃ e, evaluateQuery discount queryId rankedIds grades kValues threshold = .ok e ∧
      Normalised rankedIds grades kValues threshold e := by
  have hnodup : (appendNew [] rankedIds).Nodup := nodup_appendNew List.nodup_nil rankedIds
  have hfind : (kValues.find? fun k => decide (k ≤ 0)) = none := by
    rw [List.find?_eq_none]
    intro k hmem
    have hone := hk k hmem
    exact fun hle => absurd (of_decide_eq_true hle) (by omega)
  have hfound := relevantIn_le hscale hthreshold hnodup
  have haverage := @averagePrecision_unit K _ _ _ grades threshold (appendNew [] rankedIds) hfound
  have hall := relevantIn_eq_iff hscale hthreshold hnodup
  unfold evaluateQuery
  rw [hfind]
  refine ⟨_, rfl, ?_, reciprocalRankFrom_unit _ le_rfl, ⟨haverage.1, haverage.2.1⟩, ?_, ?_, ?_, ?_⟩
  · intro k hmem
    simp only [List.forall_mem_cons, List.not_mem_nil, false_implies, implies_true, and_true,
      get?_atEach _ hmem, Option.some.injEq, exists_eq_left']
    exact ⟨precisionAtK_unit, recallAtK_unit hscale hthreshold hnodup,
      ⟨(ndcgAtK_unit hpos hfall hscale hnodup).1, (ndcgAtK_unit hpos hfall hscale hnodup).2.1⟩,
      hitRate_unit⟩
  · intro k hmem k' hmem' hle r hr r' hr'
    rw [get?_atEach _ hmem] at hr
    rw [get?_atEach _ hmem'] at hr'
    cases hr
    cases hr'
    exact recallAtK_mono (Int.toNat_le_toNat hle)
  · intro k hmem htotal p hp r hr
    rw [get?_atEach _ hmem] at hp hr
    cases hp
    cases hr
    have hone := hk k hmem
    have hcast : (k : K) = (k.toNat : K) := by
      rw [← Int.cast_natCast, Int.toNat_of_nonneg (by omega)]
    rw [hcast]
    exact share_eq (by omega) htotal
  · intro k hmem value hvalue
    rw [get?_atEach _ hmem] at hvalue
    cases hvalue
    exact (ndcgAtK_unit hpos hfall hscale hnodup).2.2
  · refine haverage.2.2.trans (or_congr_right (and_congr_left fun _ => hall.trans ?_))
    refine forall₂_congr fun docId _ => ?_
    rw [mem_appendNew]
    simp

end

def sampleGrades : Grades := .ofList [("a", 3), ("b", 1), ("c", 0)]

/-- A ranking that repeats a document, with the discount of Zipf's law. -/
theorem evaluateQuery_sample :
    ∃ e, evaluateQuery (fun position => 1 / (position + 1 : ℚ)) "q" ["b", "a", "b"] sampleGrades
        [1, 2] 1 = .ok e ∧ Normalised ["b", "a", "b"] sampleGrades [1, 2] 1 e := by
  refine evaluateQuery_normalised (fun i _ => ?_) (fun i _ => ?_) "q" _ ?_ le_rfl (by decide)
  · positivity
  · refine one_div_lt_one_div_of_lt (by positivity) ?_
    push_cast
    linarith
  · unfold OnScale
    decide

end OmniSense.Retrieval.Metrics
