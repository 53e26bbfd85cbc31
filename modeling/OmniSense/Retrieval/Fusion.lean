import OmniSense.Library.Blocks
import OmniSense.Library.Dict
import OmniSense.Library.Greedy
import OmniSense.Retrieval.Types
import Mathlib.Algebra.Field.Rat
import Mathlib.Data.Prod.Lex
import Mathlib.Data.String.Basic

/-! `reciprocal_rank_fusion`: the tables it fills candidate by candidate, and what they hold in the
end for each chunk. -/

namespace OmniSense.Retrieval

open Library List Option

structure PerBackend (α : Type) where
  keyword : Option α
  vector : Option α
  graph : Option α
  deriving DecidableEq

namespace PerBackend

variable {α : Type}

def ofFn (f : Backend → Option α) : PerBackend α := ⟨f .keyword, f .vector, f .graph⟩

def empty : PerBackend α := ofFn fun _ => none

variable (m : PerBackend α)

def get : Backend → Option α
  | .keyword => m.keyword
  | .vector => m.vector
  | .graph => m.graph

def set (b : Backend) (a : α) : PerBackend α :=
  ofFn fun other => if other = b then some a else m.get other

def values : List α :=
  m.keyword.toList ++ m.vector.toList ++ m.graph.toList

theorem get_ofFn (f : Backend → Option α) (b : Backend) : (ofFn f).get b = f b := by
  cases b <;> rfl

theorem get_set (b other : Backend) (a : α) :
    (m.set b a).get other = if other = b then some a else m.get other :=
  get_ofFn _ other

end PerBackend

/-- What `reciprocal_rank_fusion` raises: its own `ValueError`, or that of a division. -/
inductive FusionError
  | mislabelled (candidate : Candidate) (backend : Backend)
  | zeroDivision
  deriving DecidableEq

structure FusedCandidate where
  chunkId : String
  signalId : String
  score : ℚ
  ranks : PerBackend ℕ
  rawScores : PerBackend ℚ
  deriving DecidableEq

namespace FusedCandidate

variable (f : FusedCandidate)

def backendCount : ℕ := f.ranks.values.length

def bestRank : ℕ := f.ranks.values.min?.getD (1 <<< 30)

def sortKey : ℚ ×ₗ ℤ ×ₗ ℕ ×ₗ String :=
  toLex (-f.score, toLex (-(f.backendCount : ℤ), toLex (f.bestRank, f.chunkId)))

end FusedCandidate

def DEFAULT_RRF_K : ℤ := 60

theorem default_weights_nodup :
    ([(.keyword, 1), (.vector, 1), (.graph, 4 / 5)] : List (Backend × ℚ)).map Prod.fst |>.Nodup := by
  decide

def DEFAULT_BACKEND_WEIGHTS : Dict Backend ℚ :=
  ⟨[(.keyword, 1), (.vector, 1), (.graph, 4 / 5)], default_weights_nodup⟩

def rrfTerm (k : ℤ) (weight : ℚ) (rank : ℕ) : ℚ := weight / ((k + rank : ℤ) : ℚ)

structure Tables where
  accumulated : Dict String ℚ
  ranks : Dict String (PerBackend ℕ)
  raw : Dict String (PerBackend ℚ)
  signalIds : Dict String String

namespace Tables

def new : Tables := ⟨.empty, .empty, .empty, .empty⟩

variable (k : ℤ) (weight : ℚ) (t : Tables) (candidate : Candidate)

def rankOf (id : String) (b : Backend) : Option ℕ := ((t.ranks.get? id).getD .empty).get b

def rawOf (id : String) (b : Backend) : Option ℚ := ((t.raw.get? id).getD .empty).get b

def put : Tables :=
  let id := candidate.chunkId
  let previous := t.rankOf id candidate.backend
  let better := previous.all fun previous => candidate.rank < previous
  let known := (t.ranks.get? id).getD .empty
  { accumulated :=
      t.accumulated.set id ((t.accumulated.get? id).getD 0 + rrfTerm k weight candidate.rank)
    ranks := t.ranks.set id (if better then known.set candidate.backend candidate.rank else known)
    raw :=
      if better then
        t.raw.set id (((t.raw.get? id).getD .empty).set candidate.backend candidate.rawScore)
      else t.raw
    signalIds :=
      if (t.signalIds.get? id).isSome then t.signalIds
      else t.signalIds.set id candidate.signalId }

def add (backend : Backend) : Except FusionError Tables :=
  if candidate.backend ≠ backend then .error (.mislabelled candidate backend)
  else if k + candidate.rank = 0 then .error .zeroDivision
  else .ok (t.put k weight candidate)

def fused : List FusedCandidate :=
  t.accumulated.items.map fun entry =>
    { chunkId := entry.1
      signalId := (t.signalIds.get? entry.1).getD ""
      score := entry.2
      ranks := (t.ranks.get? entry.1).getD .empty
      rawScores := (t.raw.get? entry.1).getD .empty }

end Tables

/-- `items[:stop]`. -/
def sliceTo {α : Type} (stop : Option ℤ) (items : List α) : List α :=
  match stop with
  | none => items
  | some n => items.take (if n < 0 then items.length + n else n).toNat

section

variable (results : Dict Backend (List Candidate)) (k : ℤ) (weights : Option (Dict Backend ℚ))

def weightOf (backend : Backend) : ℚ :=
  ((weights.getD DEFAULT_BACKEND_WEIGHTS).get? backend).getD 1

def fillTables : Except FusionError Tables :=
  results.items.foldlM (fun t entry =>
    if weightOf weights entry.1 = 0 then .ok t
    else entry.2.foldlM (fun t c => t.add k (weightOf weights entry.1) c entry.1) t) Tables.new

def reciprocalRankFusion (poolMax : Option ℤ) : Except FusionError (List FusedCandidate) := do
  let tables ← fillTables results k weights
  return sliceTo poolMax (sortedBy FusedCandidate.sortKey tables.fused)

end

/-! ## What the tables hold -/

def hits (candidates : List Candidate) (id : String) : List Candidate :=
  candidates.filter fun c => c.chunkId = id

def hitsOf (candidates : List Candidate) (id : String) (b : Backend) : List Candidate :=
  (hits candidates id).filter fun c => c.backend = b

section

variable {k : ℤ} {weight : Backend → ℚ} {seen : List Candidate} {t : Tables}

theorem hits_concat (seen : List Candidate) (c : Candidate) (id : String) :
    hits (seen ++ [c]) id = hits seen id ++ if c.chunkId = id then [c] else [] := by
  unfold hits
  rw [filter_append, filter_singleton]
  by_cases h : c.chunkId = id
  · rw [if_pos h, decide_eq_true h]
    rfl
  · rw [if_neg h, decide_eq_false h]
    rfl

theorem hitsOf_concat_self (seen : List Candidate) (c : Candidate) :
    hitsOf (seen ++ [c]) c.chunkId c.backend = hitsOf seen c.chunkId c.backend ++ [c] := by
  unfold hitsOf
  rw [hits_concat, if_pos rfl, filter_append, filter_singleton, decide_eq_true rfl]
  rfl

theorem hitsOf_concat_of_ne {c : Candidate} {id : String} {b : Backend}
    (h : ¬(id = c.chunkId ∧ b = c.backend)) (seen : List Candidate) :
    hitsOf (seen ++ [c]) id b = hitsOf seen id b := by
  unfold hitsOf
  rw [hits_concat, filter_append]
  split_ifs with hid
  · rw [filter_singleton, decide_eq_false fun hb => h ⟨hid.symm, hb.symm⟩]
    exact append_nil _
  · exact append_nil _

structure Tables.Holds (k : ℤ) (weight : Backend → ℚ) (seen : List Candidate) (t : Tables) :
    Prop where
  keys : ∀ id, (t.accumulated.get? id).isSome ↔ hits seen id ≠ []
  score : ∀ id, (t.accumulated.get? id).getD 0 =
    ((hits seen id).map fun c => rrfTerm k (weight c.backend) c.rank).sum
  rank : ∀ id b, t.rankOf id b = (leastBy Candidate.rank (hitsOf seen id b)).map Candidate.rank
  raw : ∀ id b, t.rawOf id b = (leastBy Candidate.rank (hitsOf seen id b)).map Candidate.rawScore
  signal : ∀ id, t.signalIds.get? id = (hits seen id).head?.map Candidate.signalId

theorem new_holds : Tables.new.Holds k weight [] where
  keys := fun _ => iff_of_false (by simp [Tables.new, Dict.get?_empty]) (by simp [hits])
  score := fun _ => rfl
  rank := fun _ b => by cases b <;> rfl
  raw := fun _ b => by cases b <;> rfl
  signal := fun _ => rfl

theorem Tables.Holds.put (h : t.Holds k weight seen) (c : Candidate) :
    (t.put k (weight c.backend) c).Holds k weight (seen ++ [c]) := by
  have hranks := h.rank c.chunkId c.backend
  have hbetter : ((t.rankOf c.chunkId c.backend).all fun previous => c.rank < previous) =
      (leastBy Candidate.rank (hitsOf seen c.chunkId c.backend)).all
        fun best => c.rank < best.rank := by
    rw [hranks, Option.all_map]
  constructor
  · intro id
    rw [hits_concat]
    change ((t.accumulated.set c.chunkId _).get? id).isSome = true ↔ _
    rw [Dict.get?_set]
    by_cases hid : id = c.chunkId
    · rw [if_pos hid, if_pos hid.symm]
      exact iff_of_true rfl (by simp)
    · rw [if_neg hid, if_neg (Ne.symm hid), append_nil]
      exact h.keys id
  · intro id
    rw [hits_concat]
    change ((t.accumulated.set c.chunkId _).get? id).getD 0 = _
    rw [Dict.get?_set]
    by_cases hid : id = c.chunkId
    · rw [if_pos hid, if_pos hid.symm, map_append, sum_append, ← h.score id, hid]
      simp
    · rw [if_neg hid, if_neg (Ne.symm hid), append_nil]
      exact h.score id
  · intro id b
    change (((t.ranks.set c.chunkId _).get? id).getD .empty).get b = _
    rw [Dict.get?_set, hbetter]
    by_cases hid : id = c.chunkId
    · subst hid
      rw [if_pos rfl, getD_some]
      by_cases hb : b = c.backend
      · subst hb
        rw [hitsOf_concat_self, leastBy_concat, lesser]
        split_ifs
        · rw [PerBackend.get_set, if_pos rfl]
          rfl
        · exact hranks
      · rw [hitsOf_concat_of_ne fun h => hb h.2, ← h.rank]
        split_ifs
        · rw [PerBackend.get_set, if_neg hb]
          rfl
        · rfl
    · rw [if_neg hid, hitsOf_concat_of_ne fun h => hid h.1]
      exact h.rank id b
  · intro id b
    change (((if ((t.rankOf c.chunkId c.backend).all fun previous => c.rank < previous) = true
      then t.raw.set c.chunkId _ else t.raw).get? id).getD .empty).get b = _
    rw [hbetter]
    by_cases hsame : id = c.chunkId ∧ b = c.backend
    · obtain ⟨rfl, rfl⟩ := hsame
      rw [hitsOf_concat_self, leastBy_concat, lesser]
      split_ifs
      · rw [Dict.get?_set, if_pos rfl, getD_some, PerBackend.get_set, if_pos rfl]
        rfl
      · exact h.raw _ _
    · rw [hitsOf_concat_of_ne hsame, ← h.raw]
      split_ifs
      · rw [Dict.get?_set]
        by_cases hid : id = c.chunkId
        · subst hid
          rw [if_pos rfl, getD_some, PerBackend.get_set, if_neg fun hb => hsame ⟨rfl, hb⟩]
          rfl
        · rw [if_neg hid]
          rfl
      · rfl
  · intro id
    rw [hits_concat]
    have hsome : (t.signalIds.get? c.chunkId).isSome ↔ hits seen c.chunkId ≠ [] := by
      rw [h.signal, isSome_map, isSome_head?]
    change (if (t.signalIds.get? c.chunkId).isSome = true then t.signalIds
      else t.signalIds.set c.chunkId c.signalId).get? id = _
    by_cases hid : id = c.chunkId
    · rw [if_pos hid.symm, hid]
      split_ifs with hseen
      · obtain ⟨first, rest, hfirst⟩ := exists_cons_of_ne_nil (hsome.mp hseen)
        rw [h.signal, hfirst]
        rfl
      · rw [Dict.get?_set, if_pos rfl, not_not.mp fun hne => hseen (hsome.mpr hne)]
        rfl
    · rw [if_neg (Ne.symm hid), append_nil, ← h.signal id]
      split_ifs
      · rfl
      · rw [Dict.get?_set, if_neg hid]

end

end OmniSense.Retrieval
