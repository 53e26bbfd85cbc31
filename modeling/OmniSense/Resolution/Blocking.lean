import Mathlib.Algebra.Order.Ring.Rat
import Mathlib.Data.Finset.Card
import Mathlib.Data.Prod.Lex
import Mathlib.Data.String.Basic
import OmniSense.Library.Blocks
import OmniSense.Library.Dict
import OmniSense.Models.Common

/-! Records to resolve and the `BlockingIndex` that proposes pairs of them. Normalization,
phonetics, hyperplanes and string similarity are what the text tools supply. -/

namespace OmniSense.Resolution

open Library

structure ResolutionRecord where
  id : String
  type : EntityType
  name : String
  aliases : List String
  identifiers : Dict String String
  embedding : Option (List ℚ)
  context : Finset String
  firstSeen : Option ℤ
  lastSeen : Option ℤ
  mentionCount : ℤ
  mergedFrom : List String

inductive BlockKind
  | identifier | exact | alias_ | tokenSet | prefix_ | phonetic | embeddingLsh
  deriving DecidableEq

def BlockKind.value : BlockKind → String
  | .identifier => "ident"
  | .exact => "exact"
  | .alias_ => "alias"
  | .tokenSet => "tokens"
  | .prefix_ => "prefix"
  | .phonetic => "phon"
  | .embeddingLsh => "lsh"

def lowPrecisionKinds : List BlockKind := [.prefix_, .phonetic, .embeddingLsh]

structure BlockingKey where
  kind : BlockKind
  value : String
  deriving DecidableEq

def BlockingKey.rank (key : BlockingKey) : String ×ₗ String := toLex (key.kind.value, key.value)

abbrev Pair := String × String

variable (left right : String)

def pairKey : Pair := if left ≤ right then (left, right) else (right, left)

theorem pairKey_of_le {left right : String} (h : left ≤ right) :
    pairKey left right = (left, right) := if_pos h

theorem pairKey_le : (pairKey left right).1 ≤ (pairKey left right).2 := by
  unfold pairKey
  split_ifs with h
  · exact h
  · exact (le_total left right).resolve_left h

theorem pairKey_comm : pairKey left right = pairKey right left := by
  rcases lt_trichotomy left right with h | rfl | h
  · rw [pairKey_of_le h.le, pairKey, if_neg h.not_ge]
  · rfl
  · rw [pairKey_of_le h.le, pairKey, if_neg h.not_ge]

theorem pairKey_eq_iff {q : Pair} {left right : String} :
    pairKey q.1 q.2 = pairKey left right ↔ q = (left, right) ∨ q = (right, left) := by
  have hcases : ∀ a b, pairKey a b = (a, b) ∨ pairKey a b = (b, a) := by
    intro a b
    unfold pairKey
    split_ifs
    · exact .inl rfl
    · exact .inr rfl
  constructor
  · intro h
    rcases hcases q.1 q.2 with hq | hq <;> rcases hcases left right with hlr | hlr <;>
      rw [hq, hlr, Prod.mk.injEq] at h
    · exact .inl (Prod.ext h.1 h.2)
    · exact .inr (Prod.ext h.1 h.2)
    · exact .inr (Prod.ext h.2 h.1)
    · exact .inl (Prod.ext h.2 h.1)
  · rintro (rfl | rfl)
    · rfl
    · exact pairKey_comm right left

/-- Ratios are percentages, and the cosine of a zero vector is `none`. -/
structure TextTools where
  normalizeName : String → String
  nameTokens : String → List String
  phoneticCode : String → String
  lshKeys : Option (List ℚ) → List BlockingKey
  ratio : String → String → ℚ
  tokenSetRatio : String → String → ℚ
  tokenSortRatio : String → String → ℚ
  jaroWinkler : String → String → ℚ
  cosineSimilarity : List ℚ → List ℚ → Option ℚ

/-! ## Keys -/

def namePrefixLength : ℕ := 4
def minPhoneticTokenLength : ℕ := 4
def defaultMaxBlockSize : ℕ := 200

def genericTokens : List String :=
  ["ai", "analytics", "app", "apps", "cloud", "data", "digital", "global", "group", "holdings",
    "international", "labs", "media", "network", "networks", "online", "platform", "services",
    "software", "solutions", "systems", "tech", "technologies", "technology", "ventures"]

namespace TextTools

variable (tools : TextTools)

variable (r : ResolutionRecord)

def surfaces : List String :=
  ((r.name :: r.aliases).foldl (fun (seen : Dict String String) surface =>
    let normalized := tools.normalizeName surface
    if normalized = "" then seen else seen.alter normalized fun old => old.getD surface)
    .empty).values

def identifierKeys : List BlockingKey :=
  ((sortedBy (toLex : String × String → String ×ₗ String) r.identifiers.items).filter fun e =>
    e.2 ≠ "").map fun e => ⟨.identifier, e.1 ++ "=" ++ e.2⟩

def nameKeys : List BlockingKey :=
  let normalized := tools.normalizeName r.name
  let collapsed := normalized.toList.filter (· ≠ ' ')
  let tokens := tools.nameTokens r.name
  let whole := String.join (tokens.map tools.phoneticCode)
  let codes := ((sorted tokens.dedup).filter fun token =>
    ¬(token.length < minPhoneticTokenLength ∨ token ∈ genericTokens)).map tools.phoneticCode
  if normalized = "" then []
  else
    [⟨.exact, normalized⟩] ++
      (if 2 ≤ collapsed.length then
        [⟨.prefix_, String.ofList (collapsed.take namePrefixLength)⟩] else []) ++
      (if 1 < tokens.length then [⟨.tokenSet, " ".intercalate (sorted tokens)⟩] else []) ++
      (if whole = "" then [] else [⟨.phonetic, whole⟩]) ++
      (codes.filter fun code => code ≠ "" ∧ code ≠ whole).map (⟨.phonetic, ·⟩)

def aliasKeys : List BlockingKey :=
  (((tools.surfaces r).map tools.normalizeName).filter (· ≠ "")).map (⟨.alias_, ·⟩)

def blockingKeys : List BlockingKey :=
  appendNew [] (identifierKeys r ++ tools.nameKeys r ++ tools.aliasKeys r ++
    tools.lshKeys r.embedding)

end TextTools

/-! ## The index -/

structure BlockingStats where
  records : ℕ
  keys : ℕ
  blocks : ℕ
  largestBlock : ℕ
  candidatePairs : ℕ
  skippedBlocks : ℕ
  skippedPairs : ℕ
  deriving DecidableEq

/-- `keysOf` stands for `blocking_keys`. -/
structure BlockingIndex where
  keysOf : ResolutionRecord → List BlockingKey
  maxBlockSize : Option ℕ
  byKey : Dict BlockingKey (List String)
  records : Dict String ResolutionRecord

namespace BlockingIndex

def new (keysOf : ResolutionRecord → List BlockingKey) (maxBlockSize : Option ℕ) : BlockingIndex :=
  ⟨keysOf, maxBlockSize, .empty, .empty⟩

variable (index : BlockingIndex)

def dropFrom (rid : String) (byKey : Dict BlockingKey (List String)) (key : BlockingKey) :
    Dict BlockingKey (List String) :=
  match byKey.get? key with
  | none => byKey
  | some bucket =>
    let bucket := bucket.filter (· ≠ rid)
    if bucket = [] then byKey.erase key else byKey.set key bucket

def remove (rid : String) : BlockingIndex :=
  match index.records.get? rid with
  | none => index
  | some record =>
    { index with
      records := index.records.erase rid
      byKey := (index.keysOf record).foldl (dropFrom rid) index.byKey }

def add (record : ResolutionRecord) : BlockingIndex :=
  let index := if (index.records.get? record.id).isSome then index.remove record.id else index
  { index with
    records := index.records.set record.id record
    byKey := (index.keysOf record).foldl
      (fun byKey key => byKey.alter key fun bucket => bucket.getD [] ++ [record.id]) index.byKey }

def addAll (records : List ResolutionRecord) : BlockingIndex := records.foldl add index

def sharedKeys (left right : String) : List BlockingKey :=
  match index.records.get? left, index.records.get? right with
  | some l, some r =>
    sortedBy BlockingKey.rank ((index.keysOf l).filter (· ∈ index.keysOf r)).dedup
  | _, _ => []

def oversized (e : BlockingKey × List String) : Bool :=
  e.1.kind ∈ lowPrecisionKinds ∧ index.maxBlockSize.any (· < e.2.length)

/-- What `candidate_pairs` leaves in `oversized_blocks`. -/
def oversizedBlocks : List (BlockingKey × ℕ) :=
  ((index.byKey.items.filter fun e => 2 ≤ e.2.length).filter index.oversized).map fun e =>
    (e.1, e.2.length)

def candidatePairs : List Pair :=
  let usable := index.byKey.items.filter fun e => 2 ≤ e.2.length ∧ ¬index.oversized e
  sortedBy (toLex : Pair → String ×ₗ String) (usable.flatMap fun e => pairsOf (sorted e.2)).dedup

def stats : BlockingStats where
  records := index.records.items.length
  keys := index.byKey.items.length
  blocks := index.byKey.items.countP fun e => 1 < e.2.length
  largestBlock := (index.byKey.values.map List.length).foldl max 0
  candidatePairs := index.candidatePairs.length
  skippedBlocks := index.oversizedBlocks.length
  skippedPairs := (index.oversizedBlocks.map fun e => e.2 * (e.2 - 1) / 2).sum

end BlockingIndex

end OmniSense.Resolution
