import OmniSense.Library.Spans
import OmniSense.Models.Common

/-! `retrieval/chunking/splitter.py`: the text of a Signal cut into citable chunks. Everything works
in spans over the original text, a list of code points. -/

namespace OmniSense.Retrieval
open Library

inductive ChunkStrategy
  | whole | paragraph | heading | speakerTurn
  deriving DecidableEq, Repr

inductive SplitError
  | valueError (text : String)
  | notImplemented (text : String)
  deriving DecidableEq, Repr

def MIN_CHUNK_DIVISOR : ℕ := 4

def slice (text : List Char) (start stop : ℕ) : List Char := (text.take stop).drop start

/-- One retrievable span; what `__post_init__` refuses cannot be built. -/
structure Chunk where
  index : ℕ
  text : List Char
  charStart : ℕ
  charEnd : ℕ
  extent : charStart < charEnd
  visible : ¬ text.all isSpace
  deriving DecidableEq, Repr

/-- `Chunk(...)`. Offsets and indexes are natural numbers here, so only the two checks that can
fail remain. -/
def Chunk.make (index : ℕ) (text : List Char) (charStart charEnd : ℕ) : Except SplitError Chunk :=
  if hextent : charStart < charEnd then
    if hblank : text.all isSpace then
      .error (.valueError ("chunk text is blank; blank chunks cost an embedding call and " ++
        "are rejected outright by most providers"))
    else .ok ⟨index, text, charStart, charEnd, hextent, hblank⟩
  else
    .error (.valueError (s!"chunk span [{charStart}, {charEnd}) is empty or negative; " ++
      "a chunk with no extent cannot be cited"))

/-! ## Trimming and patterns -/

def tighten (text : List Char) (start stop : ℕ) : Option Span :=
  let start := runEnd isSpace text start stop
  let stop := trimEnd isSpace text start stop
  if start < stop then some (start, stop) else none

def isBlank (c : Char) : Bool := c == ' ' || c == '\t'

/-- `_TRAILING_CLOSERS`. -/
def isCloser (c : Char) : Bool :=
  c ∈ ['\x22', '\x27', '\u201d', '\u2019', ')', ']', '\x7d']

def isSentenceFinal (c : Char) : Bool := c == '.' || c == '!' || c == '?'

/-- `_PARAGRAPH_BREAK`, matched at `i`: a newline, blanks, a newline, any whitespace. -/
def paragraphBreak (text : List Char) (hi i : ℕ) : Option ℕ :=
  let j := runEnd isBlank text (i + 1) hi
  if i < hi ∧ holdsAt (· == '\n') text i ∧ j < hi ∧ holdsAt (· == '\n') text j then
    some (runEnd isSpace text (j + 1) hi)
  else none

/-- `_HEADING_LINE`, matched at `i`: up to three blanks, one to six `#`, blanks, a character. -/
def headingLine (text : List Char) (hi i : ℕ) : Option ℕ :=
  let a := runEnd isBlank text i hi
  let b := runEnd (· == '#') text a hi
  let c := runEnd isBlank text b hi
  if (i = 0 ∨ holdsAt (· == '\n') text (i - 1)) ∧ a ≤ i + 3 ∧ a < b ∧ b ≤ a + 6 ∧ b < c ∧ c < hi ∧
      holdsAt (fun ch => !isSpace ch) text c then
    some (c + 1)
  else none

/-- `_SENTENCE_END`, matched at `i`: closers and whitespace, behind a sentence-final character. -/
def sentenceEnd (text : List Char) (hi i : ℕ) : Option ℕ :=
  let j := runEnd isCloser text i hi
  let k := runEnd isSpace text j hi
  if 0 < i ∧ holdsAt isSentenceFinal text (i - 1) ∧ j < k then some k else none

def ABBREVIATIONS : List String :=
  ["mr", "mrs", "ms", "dr", "prof", "sr", "jr", "st",
    "e.g", "i.e", "etc", "vs", "cf", "al", "fig", "eq", "ref", "no",
    "inc", "ltd", "co", "corp", "dept", "est", "approx", "min", "max",
    "jan", "feb", "mar", "apr", "jun", "jul", "aug", "sep", "sept", "oct",
    "nov", "dec"]

/-- The last word, as `rsplit(maxsplit=1)[-1]` gives it. -/
def lastWord (text : List Char) : List Char :=
  ((text.reverse.dropWhile isSpace).takeWhile fun c => !isSpace c).reverse

section

variable (lower : String → String)

/-- `lower` is `str.lower`. -/
def endsWithAbbreviation (text : List Char) (boundary : ℕ) : Bool :=
  let tail := ((slice text (boundary - 16) boundary).reverse.dropWhile isCloser).reverse
  if tail.getLast? = some '.' then
    let token := (lower (String.ofList (lastWord tail.dropLast))).toList
    let token := token.dropWhile (· ∈ ['(', '\x22', '\x27'])
    token.length == 1 || String.ofList token ∈ ABBREVIATIONS
  else false

/-! ## Blocks -/

def pieces (text : List Char) (hi : ℕ) : ℕ → List Span → List Span
  | cursor, [] => (tighten text cursor hi).toList
  | cursor, (start, stop) :: found =>
    (tighten text cursor start).toList ++ pieces text hi stop found

def paragraphSpans (text : List Char) (lo hi : ℕ) : List Span :=
  pieces text hi lo (finditer (paragraphBreak text hi) lo hi)

/-- The sections between one boundary and the next; the last one ends at `hi`. -/
def sectionsFrom (text : List Char) (hi : ℕ) : List ℕ → List Span
  | [] => []
  | [start] => (tighten text start hi).toList
  | start :: next :: rest =>
    (tighten text start next).toList ++ sectionsFrom text hi (next :: rest)

def sectionSpans (text : List Char) (body : Span) : List Span :=
  match (finditer (headingLine text body.2) body.1 body.2).map Prod.fst with
  | [] => [body]
  | start :: starts =>
    sectionsFrom text body.2 (if start ≤ body.1 then start :: starts else body.1 :: start :: starts)

def groupsFor (text : List Char) (strategy : ChunkStrategy) (maxChars : ℕ) : List (List Span) :=
  match tighten text 0 text.length with
  | none => []
  | some body =>
    match strategy with
    | .whole =>
      if body.2 - body.1 ≤ maxChars then [[body]] else [paragraphSpans text body.1 body.2]
    | .heading => (sectionSpans text body).map fun s => paragraphSpans text s.1 s.2
    | _ => [paragraphSpans text body.1 body.2]

/-! ## Units -/

def sentencesFrom (text : List Char) (hi : ℕ) : ℕ → List Span → List Span
  | cursor, [] => (tighten text cursor hi).toList
  | cursor, (boundary, stop) :: found =>
    if boundary ≤ cursor ∨ endsWithAbbreviation lower text boundary then
      sentencesFrom text hi cursor found
    else (tighten text cursor boundary).toList ++ sentencesFrom text hi stop found

def sentenceSpans (text : List Char) (lo hi : ℕ) : List Span :=
  sentencesFrom lower text hi lo (finditer (sentenceEnd text hi) lo hi)

/-- `text.find(" ", lo, lo + n)`. -/
def findSpace (text : List Char) (lo n : ℕ) : Option ℕ :=
  (List.range' lo n).find? fun i => holdsAt (· == ' ') text i

/-- `text.rfind(" ", lo, lo + n)`. -/
def rfindSpace (text : List Char) (lo n : ℕ) : Option ℕ :=
  (List.range' lo n).reverse.find? fun i => holdsAt (· == ' ') text i

/-- Where `_hard_cut` ends the piece that starts at `cursor`. -/
def cutPoint (text : List Char) (maxChars cursor : ℕ) : ℕ :=
  let fifth := maxChars * 4 / 5
  match rfindSpace text (cursor + fifth) (maxChars - fifth) with
  | some pivot => if cursor < pivot then pivot else cursor + maxChars
  | none => cursor + maxChars

def hardCutFrom (text : List Char) (maxChars hi : ℕ) : ℕ → ℕ → List Span
  | 0, cursor => (tighten text cursor hi).toList
  | fuel + 1, cursor =>
    if maxChars < hi - cursor then
      (tighten text cursor (cutPoint text maxChars cursor)).toList ++
        hardCutFrom text maxChars hi fuel (cutPoint text maxChars cursor)
    else (tighten text cursor hi).toList

/-- Every pass of the loop moves the cursor, so `hi - lo` of them are enough. -/
def hardCut (text : List Char) (lo hi maxChars : ℕ) : List Span :=
  hardCutFrom text maxChars hi (hi - lo) lo

def sentenceUnits (text : List Char) (maxChars : ℕ) (s : Span) : List Span :=
  if s.2 - s.1 ≤ 2 * maxChars then [s] else hardCut text s.1 s.2 maxChars

def blockUnits (text : List Char) (maxChars : ℕ) (s : Span) : List Span :=
  if s.2 - s.1 ≤ maxChars then [s]
  else (sentenceSpans lower text s.1 s.2).flatMap (sentenceUnits text maxChars)

def unitSpans (text : List Char) (blocks : List Span) (maxChars : ℕ) : List Span :=
  blocks.flatMap (blockUnits lower text maxChars)

/-! ## Packing -/

/-- `units[0]` opens the first chunk; `split_text` packs no empty list. -/
def pack (units : List Span) (maxChars : ℕ) : List Span :=
  match units with
  | [] => []
  | first :: rest => coalesce (fun current next => next.2 - current.1 ≤ maxChars) first rest

def mergeRunts (spans : List Span) (minChars : ℕ) : List Span :=
  match spans with
  | [] => []
  | first :: rest => coalesce (fun _ next => next.2 - next.1 < minChars) first rest

def snapToBoundary (text : List Char) (windowStart hardStart : ℕ) : ℕ :=
  if hardStart ≤ windowStart then hardStart
  else
    let sentenceStarts := (finditer (sentenceEnd text hardStart) windowStart hardStart).filter
      fun found => found.2 < hardStart ∧ !endsWithAbbreviation lower text found.1
    match sentenceStarts with
    | found :: _ => found.2
    | [] =>
      match findSpace text windowStart (hardStart - windowStart) with
      | some space => if space + 1 < hardStart then space + 1 else hardStart
      | none => hardStart

/-- Where the chunk behind `previous` starts once it overlaps it. -/
def overlapStart (text : List Char) (overlapChars : ℕ) (previous s : Span) : ℕ :=
  snapToBoundary lower text (max previous.1 (s.1 - overlapChars)) s.1

def overlapFrom (text : List Char) (overlapChars : ℕ) : Span → List Span → List Span
  | _, [] => []
  | previous, s :: rest =>
    (overlapStart lower text overlapChars previous s, s.2) :: overlapFrom text overlapChars s rest

def applyOverlap (text : List Char) (spans : List Span) (overlapChars : ℕ) : List Span :=
  match spans with
  | [] => []
  | first :: rest => first :: overlapFrom lower text overlapChars first rest

/-! ## Splitting -/

def packedSpans (text : List Char) (maxChars floor : ℕ) (group : List Span) : List Span :=
  mergeRunts (pack (unitSpans lower text group maxChars) maxChars) floor

def groupSpans (text : List Char) (maxChars overlapChars floor : ℕ) (group : List Span) :
    List Span :=
  let spans := packedSpans lower text maxChars floor group
  if overlapChars = 0 then spans else applyOverlap lower text spans overlapChars

def makeChunks (text : List Char) (spans : List Span) : Except SplitError (List Chunk) :=
  spans.zipIdx.mapM fun s => Chunk.make s.2 (slice text s.1.1 s.1.2) s.1.1 s.1.2

/-- `min_chars`, or a quarter of the target. -/
def chunkFloor (maxChars : ℤ) (minChars : Option ℤ) : ℤ :=
  minChars.getD (maxChars / MIN_CHUNK_DIVISOR)

def splitText (text : List Char) (strategy : ChunkStrategy) (maxChars overlapChars : ℤ)
    (minChars : Option ℤ) : Except SplitError (List Chunk) := do
  if maxChars < 1 then
    throw (.valueError s!"max_chars must be positive, got {maxChars}")
  if overlapChars < 0 then
    throw (.valueError s!"overlap_chars must be non-negative, got {overlapChars}")
  if maxChars ≤ overlapChars then
    throw (.valueError (s!"overlap_chars ({overlapChars}) must be smaller than max_chars " ++
      s!"({maxChars}), otherwise every chunk restarts inside its predecessor"))
  if strategy = .speakerTurn then
    throw (.notImplemented ("speaker-turn chunking needs turn boundaries, and nothing produces " ++
      "them yet: `MediaRef.transcript_ref` points at an R2 object that no stage loads, and " ++
      "stage 1 collapses any speaker labels that survived into plain paragraphs. Implement " ++
      "transcript loading in services/signal_engine/cleaning.py first, then this branch."))
  if chunkFloor maxChars minChars < 0 then
    throw (.valueError s!"min_chars must be non-negative, got {chunkFloor maxChars minChars}")
  makeChunks text ((groupsFor text strategy maxChars.toNat).flatMap
    (groupSpans lower text maxChars.toNat overlapChars.toNat (chunkFloor maxChars minChars).toNat))

end

end OmniSense.Retrieval
