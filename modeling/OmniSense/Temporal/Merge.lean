import Mathlib.Algebra.Order.Ring.Int
import Mathlib.Algebra.Order.Ring.Rat
import Mathlib.Data.Int.Order.Basic
import Mathlib.Data.List.AList
import Mathlib.Data.List.Lex
import Mathlib.Data.List.Sort
import Mathlib.Data.Prod.Lex
import Mathlib.Data.String.Basic
import Mathlib.Order.Lattice
import Mathlib.Order.MinMax
import OmniSense.Library.Dict

/-! Validity intervals and the merge of assertions about them. -/

namespace OmniSense.Temporal

/-! Validity intervals `[valid_from, valid_to)`. An instant is a UTC datetime counted in
microseconds from the epoch; an `Interval` cannot be built inverted or out of range. -/

/-- First microsecond of 1900, and of the year after `MAX_REASONABLE_YEAR`. -/
def minInstant : ℤ := -2208988800000000
def maxInstant : ℤ := 7289654400000000

/-- What `coerce_instant` lets through. -/
def Reasonable (t : ℤ) : Prop := minInstant ≤ t ∧ t < maxInstant

instance (t : ℤ) : Decidable (Reasonable t) := inferInstanceAs (Decidable (_ ∧ _))

/-- The `ValueError`s (and the one `IndexError`) of this module. -/
inductive ValidityError
  | beyondMaxYear (field : String)
  | beforeMinYear (field : String)
  | notAfterStart
  | closeNotAfterStart
  | closeExtends
  | sourceRequired
  | confidenceRange
  | noSources
  deriving DecidableEq, Repr

def coerceInstant (t : ℤ) (field : String) : Except ValidityError ℤ :=
  if maxInstant ≤ t then .error (.beyondMaxYear field)
  else if t < minInstant then .error (.beforeMinYear field)
  else .ok t

theorem coerceInstant_eq_ok {t : ℤ} (h : Reasonable t) (field : String) :
    coerceInstant t field = .ok t := by
  simp only [coerceInstant, not_le.mpr h.2, not_lt.mpr h.1, if_false]

theorem Reasonable.min {a b : ℤ} (ha : Reasonable a) (hb : Reasonable b) :
    Reasonable (min a b) := by
  rcases min_choice a b with h | h <;> rwa [h]

theorem Reasonable.max {a b : ℤ} (ha : Reasonable a) (hb : Reasonable b) :
    Reasonable (max a b) := by
  rcases max_choice a b with h | h <;> rwa [h]

inductive Precision
  | exact | day | month | quarter | year
  deriving DecidableEq, Repr

namespace Precision

def rank : Precision → ℕ
  | .exact => 0
  | .day => 1
  | .month => 2
  | .quarter => 3
  | .year => 4

theorem rank_injective : Function.Injective rank := by
  intro p q h
  cases p <;> cases q <;> first | rfl | cases h

variable (p q : Precision)

/-- `max(p, q, key=rank)`: Python keeps the first of equals. -/
def coarser : Precision := if p.rank < q.rank then q else p

theorem coarser_rank : (p.coarser q).rank = max p.rank q.rank := by
  unfold coarser
  split <;> omega

theorem coarser_right_comm (p q r : Precision) :
    (p.coarser q).coarser r = (p.coarser r).coarser q := by
  apply rank_injective
  rw [coarser_rank, coarser_rank, coarser_rank, coarser_rank, max_right_comm]

theorem coarser_comm : p.coarser q = q.coarser p := by
  apply rank_injective
  rw [coarser_rank, coarser_rank, max_comm]

end Precision

@[ext]
structure Interval where
  validFrom : ℤ
  validTo : Option ℤ
  precision : Precision
  from_reasonable : Reasonable validFrom
  to_reasonable : ∀ e ∈ validTo, Reasonable e ∧ validFrom < e

instance : DecidableEq Interval := fun a b =>
  decidable_of_iff (a.validFrom = b.validFrom ∧ a.validTo = b.validTo ∧ a.precision = b.precision)
    ⟨fun h => Interval.ext h.1 h.2.1 h.2.2, fun h => h ▸ ⟨rfl, rfl, rfl⟩⟩

/-- `covers`: the as-of predicate over bare instants. -/
def covers (validFrom : ℤ) (validTo : Option ℤ) (moment : ℤ) : Prop :=
  ¬validFrom > moment ∧ ∀ e ∈ validTo, e > moment

instance (f : ℤ) (e : Option ℤ) (t : ℤ) : Decidable (covers f e t) :=
  inferInstanceAs (Decidable (¬f > t ∧ ∀ x ∈ e, x > t))

namespace Interval

/-- The dataclass constructor with `__post_init__`. -/
def make (validFrom : ℤ) (validTo : Option ℤ) (precision : Precision) :
    Except ValidityError Interval :=
  if hf : Reasonable validFrom then
    match validTo with
    | none => .ok ⟨validFrom, none, precision, hf, by simp⟩
    | some e =>
      if he : Reasonable e then
        if h : validFrom < e then .ok ⟨validFrom, some e, precision, hf, by simp [he, h]⟩
        else .error .notAfterStart
      else (coerceInstant e "valid_to").bind fun _ => .error .notAfterStart
  else (coerceInstant validFrom "valid_from").bind fun _ => .error .notAfterStart

variable (i : Interval)

theorem make_eq_ok : make i.validFrom i.validTo i.precision = .ok i := by
  obtain ⟨f, e, p, hf, he⟩ := i
  cases e with
  | none => simp [make, hf]
  | some e => simp [make, hf, (he e rfl).1, (he e rfl).2]

def isOpen : Prop := i.validTo = none

def contains (moment : ℤ) : Prop := covers i.validFrom i.validTo moment

variable (i j : Interval)

def overlaps : Prop :=
  if ∃ e ∈ j.validTo, e ≤ i.validFrom then False else ¬∃ e ∈ i.validTo, e ≤ j.validFrom

def meets : Prop := i.validTo = some j.validFrom

instance (i : Interval) : Decidable i.isOpen := inferInstanceAs (Decidable (_ = _))
instance (i : Interval) (t : ℤ) : Decidable (i.contains t) :=
  inferInstanceAs (Decidable (covers _ _ _))
instance (i j : Interval) : Decidable (i.meets j) := inferInstanceAs (Decidable (_ = _))
instance (i j : Interval) : Decidable (i.overlaps j) :=
  inferInstanceAs (Decidable
    (if ∃ e ∈ j.validTo, e ≤ i.validFrom then False else ¬∃ e ∈ i.validTo, e ≤ j.validFrom))

/-- `close` without a precision override. -/
def close (moment : ℤ) : Except ValidityError Interval := do
  let moment ← coerceInstant moment "close.at"
  if moment ≤ i.validFrom then .error .closeNotAfterStart
  else if ∃ e ∈ i.validTo, moment > e then .error .closeExtends
  else make i.validFrom (some moment) i.precision

theorem contains_iff (t : ℤ) :
    i.contains t ↔ i.validFrom ≤ t ∧ ∀ e ∈ i.validTo, t < e := by
  simp only [contains, covers, not_lt, gt_iff_lt]

theorem overlaps_iff :
    i.overlaps j ↔ (∀ e ∈ j.validTo, i.validFrom < e) ∧ ∀ e ∈ i.validTo, j.validFrom < e := by
  simp [overlaps]

/-! ## The two operations the merge performs, once their arguments are known to be sound -/

def truncate (t : ℤ) (hr : Reasonable t) (h : i.validFrom < t) : Interval :=
  ⟨i.validFrom, some t, i.precision, i.from_reasonable, by simp [hr, h]⟩

variable {t : ℤ}

theorem close_eq_truncate {i : Interval} (hr : Reasonable t) (h : i.validFrom < t)
    (hto : ∀ e ∈ i.validTo, t ≤ e) : i.close t = .ok (i.truncate t hr h) := by
  have hext : ¬∃ e ∈ i.validTo, t > e := by
    rintro ⟨e, he, hlt⟩
    exact absurd (hto e he) (not_le.mpr hlt)
  rw [close, coerceInstant_eq_ok hr]
  change (if t ≤ i.validFrom then _ else if _ then _ else _) = _
  rw [if_neg (not_le.mpr h), if_neg hext]
  exact make_eq_ok (i.truncate t hr h)

/-- `None if end is None or other_end is None else max(end, other_end)`. -/
def mergedEnd : Option ℤ → Option ℤ → Option ℤ
  | some a, some b => some (max a b)
  | _, _ => none

/-- The interval `absorb` builds: the union when the two overlap or meet. -/
def hull : Interval where
  validFrom := min i.validFrom j.validFrom
  validTo := mergedEnd i.validTo j.validTo
  precision := i.precision.coarser j.precision
  from_reasonable := i.from_reasonable.min j.from_reasonable
  to_reasonable := by
    intro e he
    cases hi : i.validTo with
    | none => simp [mergedEnd, hi] at he
    | some a =>
      cases hj : j.validTo with
      | none => simp [mergedEnd, hj] at he
      | some b =>
        simp only [mergedEnd, hi, hj, Option.mem_def, Option.some.injEq] at he
        obtain ⟨hra, hla⟩ := i.to_reasonable a hi
        obtain ⟨hrb, -⟩ := j.to_reasonable b hj
        exact he ▸ ⟨hra.max hrb, (min_le_left _ _).trans_lt (hla.trans_le (le_max_left _ _))⟩

theorem hull_contains {i j : Interval} (h : i.contains t ∨ j.contains t) :
    (i.hull j).contains t := by
  simp only [contains_iff, hull] at h ⊢
  constructor
  · exact min_le_iff.mpr (h.imp And.left And.left)
  · cases hi : i.validTo <;> cases hj : j.validTo <;>
      simp only [hi, hj, mergedEnd, Option.mem_def, reduceCtorEq, false_imp_iff, implies_true,
        Option.some.injEq, forall_eq', lt_max_iff] at h ⊢
    exact h.imp And.right And.right

theorem contains_of_hull {i j : Interval} (h : i.overlaps j ∨ i.meets j)
    (ht : (i.hull j).contains t) : i.contains t ∨ j.contains t := by
  rw [overlaps_iff] at h
  simp only [contains_iff, hull, meets] at *
  cases hie : i.validTo <;> cases hje : j.validTo <;>
    simp only [hie, hje, mergedEnd, Option.mem_def, reduceCtorEq, false_imp_iff, implies_true,
      and_true, Option.some.injEq, forall_eq', true_and, or_false, min_le_iff, lt_max_iff] at * <;>
    omega

end Interval

/-! `merge_assertions` and the working state it folds over. Confidences are exact rationals; a
property value is known by its `repr`, which is all the merge ever reads of it. -/

section

open Library

structure PropertyValue where
  repr : String
  deriving DecidableEq

abbrev Properties := AList fun _ : String => PropertyValue

abbrev Fingerprint := List (String ×ₗ String)

/-- `tuple(sorted((str(key), repr(value)) ...))`. -/
def Properties.fingerprint (ps : Properties) : Fingerprint :=
  (ps.entries.map fun kv => toLex (kv.1, kv.2.repr)).insertionSort (· ≤ ·)

structure Assertion where
  source : String
  interval : Interval
  observedAt : ℤ
  confidence : ℚ
  properties : Properties
  signalIds : List String
  source_ne : source ≠ ""
  observed_reasonable : Reasonable observedAt
  confidence_range : 0 ≤ confidence ∧ confidence ≤ 1

namespace Assertion

/-- The dataclass constructor with `__post_init__`; `eraseDups` is `tuple(dict.fromkeys(..))`. -/
def make (source : String) (interval : Interval) (observedAt : ℤ) (confidence : ℚ)
    (properties : Properties) (signalIds : List String) : Except ValidityError Assertion :=
  if hs : source = "" then .error .sourceRequired
  else if ho : Reasonable observedAt then
    if hc : 0 ≤ confidence ∧ confidence ≤ 1 then
      .ok ⟨source, interval, observedAt, confidence, properties, signalIds.eraseDups, hs, ho, hc⟩
    else .error .confidenceRange
  else (coerceInstant observedAt "observed_at").bind fun _ => .error .confidenceRange

def fingerprint (a : Assertion) : Fingerprint := a.properties.fingerprint

abbrev SortKey := ℤ ×ₗ Bool ×ₗ ℤ ×ₗ ℤ ×ₗ String ×ₗ Fingerprint

/-- `_sort_key`: valid time, open intervals last, then observation, source and properties. -/
def sortKey (a : Assertion) : SortKey :=
  toLex (a.interval.validFrom, toLex (a.interval.validTo.isNone,
    toLex (a.interval.validTo.getD a.interval.validFrom,
      toLex (a.observedAt, toLex (a.source, a.fingerprint)))))

end Assertion

inductive ContradictionKind
  | overlap | simultaneous
  deriving DecidableEq, Repr

inductive Resolution
  | closedEarlier | keptHigherConfidence | unresolved
  deriving DecidableEq, Repr

structure Contradiction where
  kind : ContradictionKind
  earlier : Assertion
  later : Assertion
  resolution : Resolution
  at_ : Option ℤ
  discardedTail : Option ℤ

structure ResolvedInterval where
  interval : Interval
  properties : Properties
  sources : List String
  signalIds : List String
  confidence : ℚ
  observedFirst : ℤ
  observedLast : ℤ
  supersededBy : Option String

structure IntervalSet where
  intervals : List ResolvedInterval
  contradictions : List Contradiction

structure Accumulator where
  interval : Interval
  fingerprint : Fingerprint
  properties : Properties
  sources : List String
  signalIds : List String
  confidence : ℚ
  observedFirst : ℤ
  observedLast : ℤ
  supersededBy : Option String

namespace Accumulator

def of (a : Assertion) : Accumulator where
  interval := a.interval
  fingerprint := a.fingerprint
  properties := a.properties
  sources := [a.source]
  signalIds := a.signalIds
  confidence := a.confidence
  observedFirst := a.observedAt
  observedLast := a.observedAt
  supersededBy := none

variable (acc : Accumulator)

/-- `absorb` once the union interval is built. -/
def absorbOver (a : Assertion) (interval : Interval) : Accumulator :=
  { acc with
    interval := interval
    sources := appendNew acc.sources [a.source]
    signalIds := appendNew acc.signalIds a.signalIds
    confidence := max acc.confidence a.confidence
    observedFirst := min acc.observedFirst a.observedAt
    observedLast := max acc.observedLast a.observedAt }

def absorb (a : Assertion) : Except ValidityError Accumulator := do
  let interval ← Interval.make (min acc.interval.validFrom a.interval.validFrom)
    (Interval.mergedEnd acc.interval.validTo a.interval.validTo)
    (acc.interval.precision.coarser a.interval.precision)
  .ok (acc.absorbOver a interval)

def truncateAt (moment : ℤ) (supersededBy : String) :
    Except ValidityError Accumulator := do
  let interval ← acc.interval.close moment
  .ok { acc with interval := interval, supersededBy := some supersededBy }

def asAssertion : Except ValidityError Assertion :=
  match acc.sources with
  | [] => .error .noSources
  | source :: _ =>
    Assertion.make source acc.interval acc.observedFirst acc.confidence acc.properties
      acc.signalIds

def finish : ResolvedInterval where
  interval := acc.interval
  properties := acc.properties
  sources := acc.sources.insertionSort (· ≤ ·)
  signalIds := acc.signalIds
  confidence := acc.confidence
  observedFirst := acc.observedFirst
  observedLast := acc.observedLast
  supersededBy := acc.supersededBy

end Accumulator

abbrev RankKey := ℚ ×ₗ ℤ ×ₗ String

/-- `right_key > left_key` in `_rank_simultaneous`; the sources are cross-referenced. -/
def outranks (right left : Assertion) : Prop :=
  (toLex (right.confidence, toLex (right.observedAt, left.source)) : RankKey) >
    toLex (left.confidence, toLex (left.observedAt, right.source))

instance (right left : Assertion) : Decidable (outranks right left) :=
  inferInstanceAs (Decidable ((_ : RankKey) > _))

/-- `_rank_simultaneous`: `(loser, winner)`. -/
def rankSimultaneous (left right : Assertion) : Assertion × Assertion :=
  if outranks right left then (left, right) else (right, left)

/-- The loop's two lists; `resolved` is kept newest first, so its head is `resolved[-1]`. -/
structure Walk where
  resolved : List Accumulator
  conflicts : List Contradiction

def Walk.start : Walk := ⟨[], []⟩

def overlapContradiction (last : Accumulator) (earlier a : Assertion) : Contradiction :=
  let dropped := last.interval.validTo
  let keepsTail := dropped = none ∨ ∃ d ∈ dropped, ∃ e ∈ a.interval.validTo, d > e
  ⟨.overlap, earlier, a, .closedEarlier, some a.interval.validFrom,
    if keepsTail then dropped else none⟩

def simultaneousContradiction (left a : Assertion) : Contradiction :=
  let (loser, winner) := rankSimultaneous left a
  ⟨.simultaneous, loser, winner, .keptHigherConfidence, some a.interval.validFrom, none⟩

/-- One iteration of the loop of `merge_assertions`. -/
def mergeStep (s : Walk) (a : Assertion) : Except ValidityError Walk :=
  match s.resolved with
  | [] => .ok { s with resolved := [.of a] }
  | last :: older =>
    if last.fingerprint = a.fingerprint then
      if last.interval.overlaps a.interval ∨ last.interval.meets a.interval then do
        let absorbed ← last.absorb a
        .ok { s with resolved := absorbed :: older }
      else .ok { s with resolved := .of a :: last :: older }
    else if ¬last.interval.overlaps a.interval then
      .ok { s with resolved := .of a :: last :: older }
    else if a.interval.validFrom > last.interval.validFrom then do
      let earlier ← last.asAssertion
      let truncated ← last.truncateAt a.interval.validFrom a.source
      .ok
        { resolved := .of a :: truncated :: older
          conflicts := s.conflicts ++ [overlapContradiction last earlier a] }
    else do
      let left ← last.asAssertion
      .ok
        { resolved := if outranks a left then .of a :: older else last :: older
          conflicts := s.conflicts ++ [simultaneousContradiction left a] }

variable (as : List Assertion)

/-- The loop over a list already in `_sort_key` order. -/
def walk : Except ValidityError Walk := as.foldlM mergeStep .start

/-- `sorted(assertions, key=Assertion._sort_key)`, which is stable. -/
def sortAssertions : List Assertion :=
  as.insertionSort fun a b => a.sortKey ≤ b.sortKey

def mergeAssertions : Except ValidityError IntervalSet := do
  let s ← walk (sortAssertions as)
  .ok ⟨s.resolved.reverse.map Accumulator.finish, s.conflicts⟩

end

end OmniSense.Temporal
