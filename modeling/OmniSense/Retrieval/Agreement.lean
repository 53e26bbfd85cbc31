import OmniSense.Retrieval.Fusion
import Mathlib.Algebra.Order.BigOperators.Group.List
import Mathlib.Algebra.Order.Field.Rat
import Mathlib.Algebra.Order.Ring.Cast
import Mathlib.Tactic.Ring

/-! The score of a fused chunk against its definition, over the best rank in each backend, and the
ranked list against the order in which backends and candidates came. -/

namespace OmniSense.Retrieval

open Library List

variable {results results' : Dict Backend (List Candidate)} {k : ℤ}
  {weights : Option (Dict Backend ℚ)}

/-! ## The definition -/

def backendSum (f : Backend → ℚ) : ℚ := f .keyword + f .vector + f .graph

def ranksIn (results : Dict Backend (List Candidate)) (b : Backend) (id : String) : List ℕ :=
  (hits ((results.get? b).getD []) id).map Candidate.rank

/-- Over the backends that returned the chunk: weight over `k` plus its best rank there. -/
def rrfScore (results : Dict Backend (List Candidate)) (k : ℤ) (weights : Option (Dict Backend ℚ))
    (id : String) : ℚ :=
  backendSum fun b =>
    match (ranksIn results b id).min? with
    | none => 0
    | some best => rrfTerm k (weightOf weights b) best

def Reordered (results results' : Dict Backend (List Candidate)) : Prop :=
  ∀ b, (results.get? b).isSome = (results'.get? b).isSome ∧
    ((results.get? b).getD []).Perm ((results'.get? b).getD [])

def OneSignal (results : Dict Backend (List Candidate)) : Prop :=
  ∀ b, ∀ c ∈ (results.get? b).getD [], ∀ b', ∀ c' ∈ (results.get? b').getD [],
    c.chunkId = c'.chunkId → c.signalId = c'.signalId

def repeatTerms (k : ℤ) (weight : ℚ) (ranks : List ℕ) : ℚ :=
  match ranks.min? with
  | none => 0
  | some best => ((ranks.erase best).map (rrfTerm k weight)).sum

def RepeatsCancel (results : Dict Backend (List Candidate)) (k : ℤ)
    (weights : Option (Dict Backend ℚ)) : Prop :=
  ∀ id, (backendSum fun b => repeatTerms k (weightOf weights b) (ranksIn results b id)) = 0

def TiesAgree (results : Dict Backend (List Candidate)) (weights : Option (Dict Backend ℚ)) :
    Prop :=
  ∀ b, weightOf weights b ≠ 0 → ∀ id c c',
    IsLeastBy Candidate.rank (hits ((results.get? b).getD []) id) c →
    IsLeastBy Candidate.rank (hits ((results.get? b).getD []) id) c' → c.rawScore = c'.rawScore

/-! ## The candidates that count -/

def returned (results : Dict Backend (List Candidate)) (weights : Option (Dict Backend ℚ))
    (b : Backend) : List Candidate :=
  if weightOf weights b = 0 then [] else (results.get? b).getD []

def counted (weights : Option (Dict Backend ℚ)) (entry : Backend × List Candidate) :
    List Candidate :=
  if weightOf weights entry.1 = 0 then [] else entry.2

def occurrences (results : Dict Backend (List Candidate)) (weights : Option (Dict Backend ℚ)) :
    List Candidate :=
  results.items.flatMap (counted weights)

def Labelled (results : Dict Backend (List Candidate)) (k : ℤ) (weights : Option (Dict Backend ℚ)) :
    Prop :=
  ∀ b, ∀ c ∈ returned results weights b, c.backend = b ∧ k + c.rank ≠ 0

variable {c : Candidate} {id : String} {b : Backend} {t : Tables} {w : ℚ}

theorem mem_returned : c ∈ returned results weights b ↔
    ∃ l, (b, l) ∈ results.items ∧ weightOf weights b ≠ 0 ∧ c ∈ l := by
  unfold returned
  split_ifs with hzero
  · refine iff_of_false not_mem_nil ?_
    rintro ⟨l, -, hne, -⟩
    exact hne hzero
  · constructor
    · intro hc
      cases hget : results.get? b with
      | none =>
        rw [hget] at hc
        cases hc
      | some l =>
        rw [hget] at hc
        exact ⟨l, Dict.mem_items_iff.mpr hget, hzero, hc⟩
    · rintro ⟨l, hl, -, hc⟩
      rw [Dict.mem_items_iff.mp hl]
      exact hc

theorem mem_occurrences :
    c ∈ occurrences results weights ↔ ∃ b, c ∈ returned results weights b := by
  unfold occurrences
  simp only [mem_flatMap, mem_returned]
  constructor
  · rintro ⟨⟨b, l⟩, hl, hc⟩
    unfold counted at hc
    split_ifs at hc with hzero
    · cases hc
    · exact ⟨b, l, hl, hzero, hc⟩
  · rintro ⟨b, l, hl, hne, hc⟩
    exact ⟨(b, l), hl, by rwa [counted, if_neg hne]⟩

theorem add_ok_iff : (∃ t', t.add k w c b = .ok t') ↔ c.backend = b ∧ k + c.rank ≠ 0 := by
  unfold Tables.add
  split_ifs with hlabel hzero
  · exact iff_of_false (fun ⟨_, h⟩ => nomatch h) fun h => hlabel h.1
  · exact iff_of_false (fun ⟨_, h⟩ => nomatch h) fun h => h.2 hzero
  · exact iff_of_true ⟨_, rfl⟩ ⟨not_not.mp hlabel, hzero⟩

theorem labelled_of_fill (h : fillTables results k weights = .ok t) :
    Labelled results k weights := by
  intro b c hc
  obtain ⟨l, hl, hne, hc⟩ := mem_returned.mp hc
  obtain ⟨u, u', hround⟩ := ok_of_foldlM h (b, l) hl
  rw [if_neg hne] at hround
  obtain ⟨v, v', hadd⟩ := ok_of_foldlM hround c hc
  exact add_ok_iff.mp ⟨v', hadd⟩

theorem fill_holds (h : Labelled results k weights) : ∃ t, fillTables results k weights = .ok t ∧
    t.Holds k (weightOf weights) (occurrences results weights) := by
  refine foldlM_done (I := fun done t => Tables.Holds k (weightOf weights)
    (done.flatMap (counted weights)) t) new_holds ?_
  rintro done ⟨b, l⟩ hl t ht
  rw [flatMap_append, flatMap_singleton, counted]
  split_ifs with hzero
  · exact ⟨t, rfl, by rwa [append_nil]⟩
  · refine foldlM_done (I := fun cs t => Tables.Holds k (weightOf weights)
      (done.flatMap (counted weights) ++ cs) t) (by rwa [append_nil]) fun cs c hc t ht => ?_
    obtain ⟨hlabel, hrank⟩ := h b c (mem_returned.mpr ⟨l, hl, hzero, hc⟩)
    refine ⟨t.put k (weightOf weights b) c, ?_, ?_⟩
    · rw [Tables.add, if_neg (not_not.mpr hlabel), if_neg hrank]
    · rw [← append_assoc, ← hlabel]
      exact ht.put c

theorem filter_flatMap_label {items : List (Backend × List Candidate)}
    {g : Backend × List Candidate → List Candidate}
    (hlabel : ∀ e ∈ items, ∀ c ∈ g e, c.backend = e.1) (hnodup : (items.map Prod.fst).Nodup)
    (b : Backend) : (items.flatMap g).filter (fun c => c.backend = b) =
      ((items.find? fun e => e.1 = b).map g).getD [] := by
  induction items with
  | nil => rfl
  | cons e items ih =>
    obtain ⟨hhead, hrest⟩ := forall_mem_cons.mp hlabel
    obtain ⟨hnew, hnodup⟩ := nodup_cons.mp hnodup
    rw [flatMap_cons, filter_append, ih hrest hnodup]
    by_cases hb : e.1 = b
    · have hnone : items.find? (fun e => e.1 = b) = none := by
        refine List.find?_eq_none.mpr fun e' he' heq => hnew ?_
        rw [hb, ← of_decide_eq_true heq]
        exact mem_map_of_mem he'
      have hfirst : (e :: items).find? (fun e => e.1 = b) = some e :=
        List.find?_cons_of_pos (decide_eq_true hb)
      rw [hfirst, hnone,
        filter_eq_self.mpr fun c hc => decide_eq_true ((hhead c hc).trans hb)]
      exact append_nil _
    · have hlater : (e :: items).find? (fun e => e.1 = b) = items.find? fun e => e.1 = b :=
        List.find?_cons_of_neg (by simpa using hb)
      have hnot : (g e).filter (fun c => c.backend = b) = [] :=
        filter_eq_nil_iff.mpr fun c hc heq =>
          hb ((hhead c hc).symm.trans (of_decide_eq_true heq))
      rw [hlater, hnot, nil_append]

theorem hitsOf_occurrences (h : Labelled results k weights) (id : String) (b : Backend) :
    hitsOf (occurrences results weights) id b = hits (returned results weights b) id := by
  unfold hitsOf hits
  rw [filter_comm]
  refine congrArg (List.filter _) ?_
  unfold occurrences
  rw [filter_flatMap_label (fun e he c hc => ?_) results.nodup]
  · unfold returned Dict.get?
    cases hfind : results.items.find? fun e => e.1 = b with
    | none => rw [Option.map_none, Option.map_none, Option.getD_none, ite_self]
    | some e =>
      have hb : e.1 = b := by simpa using List.find?_some hfind
      rw [← hb]
      rfl
  · unfold counted at hc
    split_ifs at hc with hzero
    · cases hc
    · exact (h e.1 c (mem_returned.mpr ⟨e.2, he, hzero, hc⟩)).1

/-! ## The fused chunks -/

def fusedOf (results : Dict Backend (List Candidate)) (k : ℤ) (weights : Option (Dict Backend ℚ))
    (id : String) : FusedCandidate where
  chunkId := id
  signalId := ((hits (occurrences results weights) id).head?.map Candidate.signalId).getD ""
  score := backendSum fun b =>
    ((hits (returned results weights b) id).map fun c => rrfTerm k (weightOf weights b) c.rank).sum
  ranks := .ofFn fun b =>
    (leastBy Candidate.rank (hits (returned results weights b) id)).map Candidate.rank
  rawScores := .ofFn fun b =>
    (leastBy Candidate.rank (hits (returned results weights b) id)).map Candidate.rawScore

theorem fusedOf_score (id : String) : (fusedOf results k weights id).score = backendSum fun b =>
    ((hits (returned results weights b) id).map fun c =>
      rrfTerm k (weightOf weights b) c.rank).sum := rfl

theorem backendSum_add (f g : Backend → ℚ) :
    backendSum (fun b => f b + g b) = backendSum f + backendSum g := by
  unfold backendSum
  ring

theorem sum_by_backend (f : Backend → Candidate → ℚ) (l : List Candidate) :
    (l.map fun c => f c.backend c).sum =
      backendSum fun b => ((l.filter fun c => c.backend = b).map (f b)).sum := by
  induction l with
  | nil => simp [backendSum]
  | cons c l ih =>
    rw [map_cons, sum_cons, ih]
    have hcons : ∀ b, (((c :: l).filter fun c => c.backend = b).map (f b)).sum =
        (if c.backend = b then f b c else 0) +
          ((l.filter fun c => c.backend = b).map (f b)).sum := by
      intro b
      rw [filter_cons]
      by_cases hb : c.backend = b
      · rw [if_pos (decide_eq_true hb), if_pos hb, map_cons, sum_cons]
      · rw [if_neg (by simpa using hb), if_neg hb, zero_add]
    simp only [hcons, backendSum_add]
    refine congrArg (· + _) ?_
    unfold backendSum
    cases c.backend <;> simp

theorem fused_eq (h : Labelled results k weights)
    (ht : t.Holds k (weightOf weights) (occurrences results weights)) :
    t.fused = t.accumulated.keys.map (fusedOf results k weights) := by
  unfold Tables.fused Dict.keys
  rw [map_map]
  refine map_congr_left fun entry hentry => ?_
  obtain ⟨id, score⟩ := entry
  have hscore := ht.score id
  rw [Dict.mem_items_iff.mp hentry, Option.getD_some,
    sum_by_backend fun b c => rrfTerm k (weightOf weights b) c.rank] at hscore
  have hhits := hitsOf_occurrences h id
  unfold hitsOf at hhits
  simp only [hhits] at hscore
  have hranks : (t.ranks.get? id).getD .empty = .ofFn (t.rankOf id) := rfl
  have hraw : (t.raw.get? id).getD .empty = .ofFn (t.rawOf id) := rfl
  have hrank : t.rankOf id = fun b =>
      (leastBy Candidate.rank (hits (returned results weights b) id)).map Candidate.rank :=
    funext fun b => by rw [ht.rank, hitsOf_occurrences h]
  have hrawOf : t.rawOf id = fun b =>
      (leastBy Candidate.rank (hits (returned results weights b) id)).map Candidate.rawScore :=
    funext fun b => by rw [ht.raw, hitsOf_occurrences h]
  rw [ht.signal id, hscore, hranks, hraw, hrank, hrawOf]
  rfl

theorem fuse_eq (h : Labelled results k weights) : ∃ keys : List String, keys.Nodup ∧
    (∀ id, id ∈ keys ↔ hits (occurrences results weights) id ≠ []) ∧
    ∀ poolMax, reciprocalRankFusion results k weights poolMax = .ok (sliceTo poolMax
      (sortedBy FusedCandidate.sortKey (keys.map (fusedOf results k weights)))) := by
  obtain ⟨t, hfill, ht⟩ := fill_holds h
  refine ⟨t.accumulated.keys, t.accumulated.nodup, fun id => ?_, fun poolMax => ?_⟩
  · rw [Dict.mem_keys, ht.keys]
  · unfold reciprocalRankFusion
    rw [hfill, ← fused_eq h ht]
    rfl

/-! ## Scores -/

theorem rrfTerm_zero (k : ℤ) (rank : ℕ) : rrfTerm k 0 rank = 0 := zero_div _

theorem sum_zero_terms (k : ℤ) (ranks : List ℕ) : (ranks.map (rrfTerm k 0)).sum = 0 := by
  refine sum_eq_zero fun x hx => ?_
  obtain ⟨rank, -, rfl⟩ := mem_map.mp hx
  exact rrfTerm_zero k rank

theorem repeatTerms_zero (k : ℤ) (ranks : List ℕ) : repeatTerms k 0 ranks = 0 := by
  unfold repeatTerms
  split
  · rfl
  · exact sum_zero_terms k _

theorem sum_terms (k : ℤ) (w : ℚ) (ranks : List ℕ) : (ranks.map (rrfTerm k w)).sum =
    (match ranks.min? with
      | none => 0
      | some best => rrfTerm k w best) + repeatTerms k w ranks := by
  unfold repeatTerms
  cases hmin : ranks.min? with
  | none =>
    rw [List.min?_eq_none_iff.mp hmin]
    exact (add_zero 0).symm
  | some best => exact (sum_map_erase _ (List.min?_mem hmin)).symm

theorem score_eq (id : String) : (fusedOf results k weights id).score =
    rrfScore results k weights id +
      backendSum fun b => repeatTerms k (weightOf weights b) (ranksIn results b id) := by
  rw [fusedOf_score, rrfScore, ← backendSum_add]
  refine congrArg backendSum (funext fun b => ?_)
  rw [← sum_terms]
  unfold returned ranksIn
  split_ifs with hzero
  · rw [hzero, sum_zero_terms]
    rfl
  · rw [map_map]
    rfl

theorem mem_hits {l : List Candidate} : c ∈ hits l id ↔ c ∈ l ∧ c.chunkId = id := by
  unfold hits
  rw [mem_filter, decide_eq_true_iff]

theorem repeats_unreturned (hnone : hits (occurrences results weights) id = []) :
    (backendSum fun b => repeatTerms k (weightOf weights b) (ranksIn results b id)) = 0 := by
  have hzero : ∀ b, repeatTerms k (weightOf weights b) (ranksIn results b id) = 0 := by
    intro b
    by_cases hw : weightOf weights b = 0
    · rw [hw]
      exact repeatTerms_zero k _
    · have hranks : hits ((results.get? b).getD []) id = [] := by
        refine eq_nil_iff_forall_not_mem.mpr fun c hc => ?_
        obtain ⟨hc, hid⟩ := mem_hits.mp hc
        have hreturned : c ∈ returned results weights b := by rwa [returned, if_neg hw]
        have hmem := mem_hits.mpr ⟨mem_occurrences.mpr ⟨b, hreturned⟩, hid⟩
        rw [hnone] at hmem
        cases hmem
      rw [ranksIn, hranks]
      rfl
  simp only [backendSum, hzero, add_zero]

theorem mem_sliceTo {α : Type} {stop : Option ℤ} {items : List α} {a : α}
    (h : a ∈ sliceTo stop items) : a ∈ items := by
  unfold sliceTo at h
  split at h
  · exact h
  · exact mem_of_mem_take h

/-! ## The order of backends and candidates -/

theorem fused_nodup {ids : List String} (hids : ids.Nodup) :
    ((ids.map (fusedOf results k weights)).map FusedCandidate.sortKey).Nodup := by
  refine List.Nodup.of_map (fun key => (ofLex (ofLex (ofLex key).2).2).2) ?_
  rw [map_map, map_map]
  have hid : ((fun key : ℚ ×ₗ ℤ ×ₗ ℕ ×ₗ String => (ofLex (ofLex (ofLex key).2).2).2) ∘
      FusedCandidate.sortKey) ∘ fusedOf results k weights = id := rfl
  rwa [hid, map_id]

theorem Reordered.returned (h : Reordered results results') (b : Backend) :
    (returned results weights b).Perm (returned results' weights b) := by
  unfold Retrieval.returned
  split_ifs
  · exact .nil
  · exact (h b).2

theorem Reordered.hits_iff (h : Reordered results results') :
    c ∈ hits (occurrences results weights) id ↔ c ∈ hits (occurrences results' weights) id := by
  simp only [mem_hits, mem_occurrences, (h.returned _).mem_iff]

theorem Reordered.labelled (h : Reordered results results') (hlabelled : Labelled results k weights) :
    Labelled results' k weights :=
  fun b c hc => hlabelled b c ((h.returned b).mem_iff.mpr hc)

theorem mem_results (hc : c ∈ occurrences results weights) : ∃ b, c ∈ (results.get? b).getD [] := by
  obtain ⟨b, hb⟩ := mem_occurrences.mp hc
  unfold returned at hb
  split_ifs at hb
  · cases hb
  · exact ⟨b, hb⟩

theorem signal_congr (h : Reordered results results') (hsignal : OneSignal results) (id : String) :
    (fusedOf results' k weights id).signalId = (fusedOf results k weights id).signalId := by
  unfold fusedOf
  cases hhead : (hits (occurrences results weights) id).head? with
  | none =>
    have hnone : hits (occurrences results' weights) id = [] := by
      refine eq_nil_iff_forall_not_mem.mpr fun c hc => ?_
      have hc := h.hits_iff.mpr hc
      rw [List.head?_eq_none_iff.mp hhead] at hc
      cases hc
    rw [hnone]
    rfl
  | some c =>
    have hc := mem_of_mem_head? hhead
    cases hhead' : (hits (occurrences results' weights) id).head? with
    | none =>
      have hc' := h.hits_iff.mp hc
      rw [List.head?_eq_none_iff.mp hhead'] at hc'
      cases hc'
    | some c' =>
      obtain ⟨hc, hid⟩ := mem_hits.mp hc
      obtain ⟨hc', hid'⟩ := mem_hits.mp (h.hits_iff.mpr (mem_of_mem_head? hhead'))
      obtain ⟨b, hb⟩ := mem_results hc
      obtain ⟨b', hb'⟩ := mem_results hc'
      exact hsignal b' c' hb' b c hb (hid'.trans hid.symm)

theorem fusedOf_congr (h : Reordered results results') (hsignal : OneSignal results)
    (hties : TiesAgree results weights) (id : String) :
    fusedOf results' k weights id = fusedOf results k weights id := by
  have hsignals := @signal_congr results results' k weights h hsignal id
  have hhits : ∀ b, (hits (returned results weights b) id).Perm
      (hits (returned results' weights b) id) := fun b => (h.returned b).filter _
  have hscore : (fusedOf results' k weights id).score = (fusedOf results k weights id).score := by
    rw [fusedOf_score, fusedOf_score]
    exact congrArg backendSum (funext fun b => ((hhits b).map _).sum_eq.symm)
  have hranks : (fusedOf results' k weights id).ranks = (fusedOf results k weights id).ranks := by
    refine congrArg PerBackend.ofFn (funext fun b => map_leastBy (fun c c' hc hc' => ?_) (hhits b))
    exact le_antisymm (hc.2 c' hc'.1) (hc'.2 c hc.1)
  have hraw : (fusedOf results' k weights id).rawScores =
      (fusedOf results k weights id).rawScores := by
    refine congrArg PerBackend.ofFn (funext fun b => map_leastBy (fun c c' hc hc' => ?_) (hhits b))
    unfold returned at hc hc'
    split_ifs at hc hc' with hzero
    · cases hc.1
    · exact hties b hzero id c c' hc hc'
  have hid : (fusedOf results' k weights id).chunkId = (fusedOf results k weights id).chunkId := rfl
  revert hsignals hscore hranks hraw hid
  cases fusedOf results' k weights id
  cases fusedOf results k weights id
  rintro rfl rfl rfl rfl rfl
  rfl

theorem fuse_congr (h : Reordered results results') (hsignal : OneSignal results)
    (hties : TiesAgree results weights) (hlabelled : Labelled results k weights)
    (poolMax : Option ℤ) : reciprocalRankFusion results' k weights poolMax =
      reciprocalRankFusion results k weights poolMax := by
  obtain ⟨ids, hnodup, hids, hfuse⟩ := fuse_eq hlabelled
  obtain ⟨ids', hnodup', hids', hfuse'⟩ := fuse_eq (h.labelled hlabelled)
  have hperm : ids.Perm ids' := by
    refine (perm_ext_iff_of_nodup hnodup hnodup').mpr fun id => ?_
    rw [hids, hids']
    constructor
    · intro hne
      obtain ⟨c, hc⟩ := exists_mem_of_ne_nil _ hne
      exact ne_nil_of_mem (h.hits_iff.mp hc)
    · intro hne
      obtain ⟨c, hc⟩ := exists_mem_of_ne_nil _ hne
      exact ne_nil_of_mem (h.hits_iff.mpr hc)
  have hfused : fusedOf results' k weights = fusedOf results k weights :=
    funext fun id => fusedOf_congr h hsignal hties id
  rw [hfuse, hfuse', hfused,
    sortedBy_congr (fused_nodup hnodup) (hperm.map (fusedOf results k weights))]

/-- A candidate of the list of `b`, put first. -/
def putFirst (results : Dict Backend (List Candidate)) (b : Backend) (c : Candidate) :
    Dict Backend (List Candidate) :=
  results.set b (c :: ((results.get? b).getD []).erase c)

theorem putFirst_reordered (hc : c ∈ (results.get? b).getD []) :
    Reordered results (putFirst results b c) := by
  intro other
  unfold putFirst
  rw [Dict.get?_set]
  split_ifs with hb
  · subst hb
    refine ⟨?_, perm_cons_erase hc⟩
    cases hget : results.get? other with
    | none =>
      rw [hget] at hc
      cases hc
    | some l => rfl
  · exact ⟨rfl, .refl _⟩

theorem rawScore_first (hw : weightOf weights b ≠ 0)
    (hc : IsLeastBy Candidate.rank (hits ((results.get? b).getD []) id) c) :
    (fusedOf (putFirst results b c) k weights id).rawScores.get b = some c.rawScore := by
  obtain ⟨hmem, hid⟩ := mem_hits.mp hc.1
  have hreturned : returned (putFirst results b c) weights b =
      c :: ((results.get? b).getD []).erase c := by
    rw [returned, if_neg hw, putFirst, Dict.get?_set, if_pos rfl, Option.getD_some]
  have hhits : hits (returned (putFirst results b c) weights b) id =
      c :: hits (((results.get? b).getD []).erase c) id := by
    rw [hreturned]
    exact filter_cons_of_pos (decide_eq_true hid)
  have hleast : leastBy Candidate.rank (hits (returned (putFirst results b c) weights b) id) =
      some c := by
    rw [hhits]
    refine leastBy_cons fun z hz => hc.2 z ?_
    obtain ⟨hz, hzid⟩ := mem_hits.mp hz
    exact mem_hits.mpr ⟨mem_of_mem_erase hz, hzid⟩
  refine (PerBackend.get_ofFn _ b).trans ?_
  rw [hleast]
  rfl

theorem ties_of_congr (hlabelled : Labelled results k weights)
    (h : ∀ results', Reordered results results' →
      reciprocalRankFusion results' k weights none = reciprocalRankFusion results k weights none) :
    TiesAgree results weights := by
  -- Whichever of the two comes first, its raw score is the one that is kept.
  intro b hw id c c' hc hc'
  obtain ⟨ids, -, hids, hfuse⟩ := fuse_eq hlabelled
  have hkept : ∀ c, IsLeastBy Candidate.rank (hits ((results.get? b).getD []) id) c →
      (fusedOf results k weights id).rawScores.get b = some c.rawScore := by
    intro c hc
    obtain ⟨hmem, hid⟩ := mem_hits.mp hc.1
    have hreordered := putFirst_reordered hmem
    obtain ⟨ids', -, -, hfuse'⟩ := fuse_eq (hreordered.labelled hlabelled)
    have hsame := h _ hreordered
    rw [hfuse none, hfuse' none] at hsame
    have hlists : sortedBy FusedCandidate.sortKey (ids'.map (fusedOf (putFirst results b c) k
        weights)) = sortedBy FusedCandidate.sortKey (ids.map (fusedOf results k weights)) :=
      Except.ok.inj hsame
    have hreturned : c ∈ returned results weights b := by rwa [returned, if_neg hw]
    have hin : fusedOf results k weights id ∈
        sortedBy FusedCandidate.sortKey (ids.map (fusedOf results k weights)) := by
      rw [(sortedBy_perm _ _).mem_iff]
      refine mem_map_of_mem ((hids id).mpr (ne_nil_of_mem (a := c) ?_))
      exact mem_hits.mpr ⟨mem_occurrences.mpr ⟨b, hreturned⟩, hid⟩
    rw [← hlists, (sortedBy_perm _ _).mem_iff] at hin
    obtain ⟨id', -, heq⟩ := mem_map.mp hin
    obtain rfl : id' = id := congrArg FusedCandidate.chunkId heq
    rw [← heq]
    exact rawScore_first hw hc
  exact Option.some.inj ((hkept c hc).symm.trans (hkept c' hc'))

/-! ## Fusion against its definition -/

theorem scores_iff (hlabelled : Labelled results k weights) :
    (∀ poolMax fused, reciprocalRankFusion results k weights poolMax = .ok fused →
        ∀ f ∈ fused, f.score = rrfScore results k weights f.chunkId) ↔
      RepeatsCancel results k weights := by
  obtain ⟨ids, -, hids, hfuse⟩ := fuse_eq hlabelled
  constructor
  · intro h id
    by_cases hnone : hits (occurrences results weights) id = []
    · exact repeats_unreturned hnone
    · have hin : fusedOf results k weights id ∈
          sortedBy FusedCandidate.sortKey (ids.map (fusedOf results k weights)) := by
        rw [(sortedBy_perm _ _).mem_iff]
        exact mem_map_of_mem ((hids id).mpr hnone)
      have hscore : _ = rrfScore results k weights id := h none _ (hfuse none) _ hin
      rw [score_eq] at hscore
      exact left_eq_add.mp hscore.symm
  · intro h poolMax fused hok f hf
    rw [hfuse poolMax] at hok
    cases hok
    have hin := mem_sliceTo hf
    rw [(sortedBy_perm _ _).mem_iff] at hin
    obtain ⟨id, -, rfl⟩ := mem_map.mp hin
    rw [score_eq, h id, add_zero]
    rfl

/-- Where nothing is raised, the scores are those of the definition and the ranked list depends on
no order, just when repeated occurrences add nothing and ties agree on the raw score. -/
theorem fusion_defined_iff (results : Dict Backend (List Candidate)) (k : ℤ)
    (weights : Option (Dict Backend ℚ)) {fused : List FusedCandidate}
    (hok : reciprocalRankFusion results k weights none = .ok fused) (hsignal : OneSignal results) :
    ((∀ poolMax fused, reciprocalRankFusion results k weights poolMax = .ok fused →
        ∀ f ∈ fused, f.score = rrfScore results k weights f.chunkId) ∧
      ∀ results', Reordered results results' → ∀ poolMax,
        reciprocalRankFusion results' k weights poolMax =
          reciprocalRankFusion results k weights poolMax) ↔
      RepeatsCancel results k weights ∧ TiesAgree results weights := by
  obtain ⟨t, hfill, -⟩ := ok_of_bind hok
  have hlabelled := labelled_of_fill hfill
  rw [scores_iff hlabelled]
  refine and_congr_right fun _ => ⟨fun h => ?_, fun hties results' hreordered poolMax => ?_⟩
  · exact ties_of_congr hlabelled fun results' hreordered => h results' hreordered none
  · exact fuse_congr hreordered hsignal hties hlabelled poolMax

/-! ## Positive weights -/

theorem rrfTerm_pos (hk : 0 ≤ k) (hw : 0 < w) {rank : ℕ} (hrank : 1 ≤ rank) :
    0 < rrfTerm k w rank := by
  refine div_pos hw (Int.cast_pos.mpr ?_)
  omega

theorem repeatTerms_nonneg (hk : 0 ≤ k) (hw : 0 < w) {ranks : List ℕ}
    (hranks : ∀ r ∈ ranks, 1 ≤ r) :
    0 ≤ repeatTerms k w ranks ∧ (repeatTerms k w ranks = 0 ↔ ranks.length ≤ 1) := by
  unfold repeatTerms
  cases hmin : ranks.min? with
  | none =>
    rw [List.min?_eq_none_iff.mp hmin]
    exact ⟨le_rfl, iff_of_true rfl (Nat.zero_le 1)⟩
  | some best =>
    have hbest := List.min?_mem hmin
    have hlength := length_erase_of_mem hbest
    have hterms : ∀ x ∈ (ranks.erase best).map (rrfTerm k w), 0 < x := by
      intro x hx
      obtain ⟨r, hr, rfl⟩ := mem_map.mp hx
      exact rrfTerm_pos hk hw (hranks r (mem_of_mem_erase hr))
    dsimp only
    refine ⟨sum_nonneg fun x hx => (hterms x hx).le, ?_⟩
    cases herase : ranks.erase best with
    | nil =>
      rw [herase, length_nil] at hlength
      exact iff_of_true rfl (by omega)
    | cons r rest =>
      rw [herase] at hterms
      rw [herase, length_cons] at hlength
      obtain ⟨hr, hrest⟩ := forall_mem_cons.mp hterms
      refine iff_of_false (ne_of_gt ?_) (by omega)
      exact add_pos_of_pos_of_nonneg hr (sum_nonneg fun x hx => (hrest x hx).le)

theorem repeatsCancel_iff_nodup (hk : 0 ≤ k) (hw : ∀ b, 0 < weightOf weights b) :
    RepeatsCancel results k weights ↔
      ∀ b, (((results.get? b).getD []).map Candidate.chunkId).Nodup := by
  have hterms : ∀ id b, 0 ≤ repeatTerms k (weightOf weights b) (ranksIn results b id) ∧
      (repeatTerms k (weightOf weights b) (ranksIn results b id) = 0 ↔
        (ranksIn results b id).length ≤ 1) := by
    refine fun id b => repeatTerms_nonneg hk (hw b) fun r hr => ?_
    obtain ⟨c, -, rfl⟩ := mem_map.mp hr
    exact c.rank_pos
  have hcount : ∀ id b, (ranksIn results b id).length =
      (((results.get? b).getD []).map Candidate.chunkId).count id := by
    intro id b
    rw [ranksIn, length_map, hits, List.count, countP_map, countP_eq_length_filter]
    refine congrArg (fun p => (List.filter p _).length) (funext fun c => ?_)
    rw [Function.comp_apply, Bool.eq_iff_iff, decide_eq_true_iff, beq_iff_eq]
  have hsum : ∀ id, (backendSum fun b =>
      repeatTerms k (weightOf weights b) (ranksIn results b id)) = 0 ↔
      ∀ b, (ranksIn results b id).length ≤ 1 := by
    intro id
    have h₁ := hterms id .keyword
    have h₂ := hterms id .vector
    have h₃ := hterms id .graph
    unfold backendSum
    rw [add_eq_zero_iff_of_nonneg (add_nonneg h₁.1 h₂.1) h₃.1,
      add_eq_zero_iff_of_nonneg h₁.1 h₂.1, h₁.2, h₂.2, h₃.2]
    constructor
    · rintro ⟨⟨hkeyword, hvector⟩, hgraph⟩ b
      cases b <;> assumption
    · exact fun h => ⟨⟨h .keyword, h .vector⟩, h .graph⟩
  unfold RepeatsCancel
  simp only [hsum, hcount, nodup_iff_count_le_one]
  exact forall_comm

/-! ## Two lists -/

def found (backend : Backend) (chunk : String) (rank : ℕ) (h : 1 ≤ rank) : Candidate :=
  ⟨chunk, backend, rank, 1, "s", h⟩

theorem keyword_only (l : List Candidate) : ([(Backend.keyword, l)].map Prod.fst).Nodup :=
  nodup_singleton _

theorem one_le_first : 1 ≤ 1 := by decide

def foundOnce : Dict Backend (List Candidate) :=
  ⟨[(.keyword, [found .keyword "s:0" 1 one_le_first])], keyword_only _⟩

theorem fusion_defined_once :
    (∀ poolMax fused, reciprocalRankFusion foundOnce 60 none poolMax = .ok fused →
        ∀ f ∈ fused, f.score = rrfScore foundOnce 60 none f.chunkId) ∧
      ∀ results', Reordered foundOnce results' → ∀ poolMax,
        reciprocalRankFusion results' 60 none poolMax =
          reciprocalRankFusion foundOnce 60 none poolMax := by
  have hone : ∀ b, ∀ c ∈ (foundOnce.get? b).getD [], c = found .keyword "s:0" 1 one_le_first := by
    intro b
    cases b <;> decide
  have hok : reciprocalRankFusion foundOnce 60 none none =
      .ok [⟨"s:0", "s", 1 / 61, ⟨some 1, none, none⟩, ⟨some 1, none, none⟩⟩] := by
    decide +kernel
  have hsignal : OneSignal foundOnce := fun b c hc b' c' hc' _ => by rw [hone b c hc, hone b' c' hc']
  refine (fusion_defined_iff foundOnce 60 none hok hsignal).mpr ⟨?_, fun b _ id c c' hc hc' => ?_⟩
  · refine (repeatsCancel_iff_nodup (by decide) fun b => ?_).mpr fun b => ?_
    · cases b <;> decide +kernel
    · cases b <;> decide
  · rw [hone b c (mem_hits.mp hc.1).1, hone b c' (mem_hits.mp hc'.1).1]

theorem one_le_second : 1 ≤ 2 := by decide

def foundTwice : Dict Backend (List Candidate) :=
  ⟨[(.keyword, [found .keyword "s:0" 1 one_le_first, found .keyword "s:0" 2 one_le_second])],
    keyword_only _⟩

theorem repeat_counted : OneSignal foundTwice ∧ ∃ fused,
    reciprocalRankFusion foundTwice 60 none none = .ok fused ∧
      ∃ f ∈ fused, f.score ≠ rrfScore foundTwice 60 none f.chunkId := by
  have hone : ∀ b, ∀ c ∈ (foundTwice.get? b).getD [], c.signalId = "s" := by
    intro b
    cases b <;> decide
  refine ⟨fun b c hc b' c' hc' _ => by rw [hone b c hc, hone b' c' hc'],
    [⟨"s:0", "s", 123 / 3782, ⟨some 1, none, none⟩, ⟨some 1, none, none⟩⟩], by decide +kernel, _,
    mem_cons_self, ?_⟩
  decide +kernel

end OmniSense.Retrieval
