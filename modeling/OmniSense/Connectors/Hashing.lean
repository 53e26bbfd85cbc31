import OmniSense.Library.Bits
import OmniSense.Library.Effect
import OmniSense.Library.UnionFind
import Mathlib.Algebra.Order.Ring.Rat
import Mathlib.Data.Prod.Lex
import Mathlib.Data.String.Basic

/-! `connectors/dedup/hashing.py`: near-duplicate clusters of 64-bit fingerprints, found through the
bands they share. -/

namespace OmniSense.Connectors
open Library

def SIMHASH_BITS : ℕ := 64

inductive HashingError
  | valueError (text : String)
  | duplicateId (signalId : String)
  | keyError (key : String)
  | indexError
  deriving DecidableEq, Repr

/-! ## Distances and bands -/

def checkFingerprint (name : String) (value : ℕ) : Except HashingError Unit :=
  if value < 2 ^ SIMHASH_BITS then .ok ()
  else .error (.valueError (s!"{name}={value} is not a {SIMHASH_BITS}-bit unsigned fingerprint; " ++
    "a signed round-trip through a bigint column is the usual cause"))

def hamming (a b : ℕ) : Except HashingError ℕ := do
  checkFingerprint "a" a
  checkFingerprint "b" b
  return bitCount (a ^^^ b)

def isNearDuplicate (a b : ℕ) (threshold : ℤ) : Except HashingError Bool :=
  if 0 ≤ threshold ∧ threshold ≤ SIMHASH_BITS then
    if a = 0 ∨ b = 0 then .ok false
    else (hamming a b).map fun distance => decide ((distance : ℤ) ≤ threshold)
  else .error (.valueError s!"threshold must be within 0..{SIMHASH_BITS}, got {threshold}")

def bandWidth (bands : ℤ) : Except HashingError ℕ :=
  if bands < 1 ∨ SIMHASH_BITS % bands ≠ 0 then
    .error (.valueError (s!"bands must divide {SIMHASH_BITS} evenly, got {bands}; " ++
      "unequal bands make the pigeonhole guarantee unstateable"))
  else
    let width := SIMHASH_BITS / bands.toNat
    if width % 4 ≠ 0 then
      .error (.valueError s!"band width {width} is not a whole number of hex digits")
    else .ok width

/-- Format as `0{digits}x`. -/
def zeroPaddedHex (digits value : ℕ) : String :=
  let hex := Nat.toDigits 16 value
  String.ofList (List.replicate (digits - hex.length) '0' ++ hex)

def bandKey (fingerprint width index : ℕ) : String :=
  s!"os:dedup:sim:{index}:" ++ zeroPaddedHex (width / 4) (bandOf fingerprint width index)

def simhashBandKeys (fingerprint : ℕ) (bands : ℤ) : Except HashingError (List String) :=
  (bandWidth bands).map fun width => (List.range bands.toNat).map (bandKey fingerprint width)

/-! ## Candidate index -/

abbrev BandedIndex := Dict String (List String)

def BandedIndex.add (index : BandedIndex) (memberId : String) (bandKeys : List String) :
    BandedIndex :=
  bandKeys.foldl (fun index key => index.alter key fun old => appendNew (old.getD []) [memberId])
    index

def BandedIndex.candidates (index : BandedIndex) (bandKeys : List String) (exclude : String) :
    List String :=
  (bandKeys.foldl (fun found key => appendNew found ((index.get? key).getD [])) []).filter
    fun memberId => memberId ≠ exclude

/-! ## Clusters -/

/-- What `__post_init__` refuses cannot be built. -/
structure ClusterMember where
  signalId : String
  timestamp : ℤ
  fingerprint : ℕ
  confidence : ℚ
  platform : Option String
  signalId_ne : signalId ≠ ""
  fingerprint_lt : fingerprint < 2 ^ SIMHASH_BITS
  confidence_mem : 0 ≤ confidence ∧ confidence ≤ 1
  deriving DecidableEq

structure Cluster where
  clusterId : String
  canonicalId : String
  members : List ClusterMember
  members_ne : members ≠ []
  deriving DecidableEq

/-- `sha256` gives the hex digest. -/
def clusterIdFor (sha256 : String → String) (canonicalId : String) : Except HashingError String :=
  if canonicalId = "" then .error (.valueError "canonical_id must be non-empty")
  else .ok ("dc_" ++ String.ofList ((sha256 canonicalId).toList.take 12))

def electionKey (member : ClusterMember) : ℚ ×ₗ ℚ ×ₗ String :=
  toLex ((member.timestamp : ℚ), toLex (-member.confidence, member.signalId))

structure SetOrder where
  visit : String → List String → List String
  perm : ∀ memberId found, (visit memberId found).Perm found

section

variable (order : SetOrder) (sha256 : String → String) (threshold bands : ℤ)

variable (byId : Dict String ClusterMember)

def unionCandidate (member : ClusterMember)
    (forest : Forest String) (candidateId : String) : Except HashingError (Forest String) :=
  match byId.get? candidateId with
  | none => .error (.keyError candidateId)
  | some candidate => do
    if ← isNearDuplicate member.fingerprint candidate.fingerprint threshold then
      return forest.union member.signalId candidateId
    else return forest

def indexMember (state : BandedIndex × Forest String)
    (member : ClusterMember) : Except HashingError (BandedIndex × Forest String) :=
  if member.fingerprint = 0 then .ok state
  else do
    let keys ← simhashBandKeys member.fingerprint bands
    let found := state.1.candidates keys member.signalId
    let forest ← (order.visit member.signalId found).foldlM
      (unionCandidate threshold byId member) state.2
    return (state.1.add member.signalId keys, forest)

def addMember (member : ClusterMember) :
    Except HashingError (Dict String ClusterMember) :=
  if (byId.get? member.signalId).isSome then .error (.duplicateId member.signalId)
  else .ok (byId.set member.signalId member)

def makeCluster (group : List ClusterMember) : Except HashingError Cluster :=
  match sortedBy electionKey group with
  | [] => .error .indexError
  | canonical :: rest => do
    let clusterId ← clusterIdFor sha256 canonical.signalId
    return ⟨clusterId, canonical.signalId, canonical :: rest, List.cons_ne_nil _ _⟩

def Cluster.sortKey (c : Cluster) : ℚ ×ₗ ℚ ×ₗ String := electionKey (c.members.head c.members_ne)

def assignClusters (members : List ClusterMember) : Except HashingError (List Cluster) := do
  if bands ≤ threshold then
    throw (.valueError (s!"threshold {threshold} needs more than {bands} bands: {threshold} " ++
      s!"differing bits can touch every one of {bands} disjoint bands, so " ++
      "banded lookup would miss real pairs. Use bands > threshold."))
  let _ ← bandWidth bands
  let byId ← members.foldlM addMember .empty
  let (_, forest) ← byId.values.foldlM (indexMember order threshold bands byId)
    (.empty, Forest.start byId.keys)
  let grouped := forest.group fun memberId => (byId.get? memberId).toList
  let clusters ← grouped.values.mapM (makeCluster sha256)
  return sortedBy Cluster.sortKey clusters

end

end OmniSense.Connectors
