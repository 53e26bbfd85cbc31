import OmniSense.Models.Common
import Mathlib.Data.Finset.Insert
import Mathlib.Data.Int.Notation
import Mathlib.Data.Rat.Init

/-! `retrieval/types.py`: what the backends return, and what the agents are given. -/

namespace OmniSense.Retrieval

inductive Backend
  | keyword | vector | graph
  deriving DecidableEq, Repr

structure Candidate where
  chunkId : String
  backend : Backend
  rank : ℕ
  rawScore : ℚ
  signalId : String
  rank_pos : 1 ≤ rank
  deriving DecidableEq

structure Passage where
  chunkId : String
  signalId : String
  text : String
  charStart : ℤ
  charEnd : ℤ
  fusedScore : ℚ
  rerankScore : Option ℚ
  foundBy : Finset Backend
  duplicateOfCount : ℤ
  collapsedSignalIds : List String
  deriving DecidableEq

namespace Passage

def finalScore (p : Passage) : ℚ := p.rerankScore.getD p.fusedScore

def isCitable (p : Passage) : Bool :=
  (p.text.toList.any fun c => !isSpace c) && decide (p.charStart < p.charEnd)

end Passage

structure GraphFact where
  subjectId : String
  subjectName : String
  predicate : String
  objectId : String
  objectName : String
  -- Microseconds since the epoch.
  validFrom : Option ℤ
  validTo : Option ℤ
  confidence : ℚ
  supportingSignalIds : List String

def GraphFact.isCurrent (fact : GraphFact) : Bool := fact.validTo.isNone

structure EvidencePack where
  passages : List Passage
  graphFacts : List GraphFact
  tokenCount : ℤ
  tokenBudget : ℤ
  droppedPassages : ℕ
  droppedFacts : ℕ

end OmniSense.Retrieval
