import Mathlib.Data.Prod.Lex
import OmniSense.Enrichment.Pipeline

/-! `pipeline_version_ordinal`: a pipeline version as a number that orders like it. The characters
that Unicode counts as digits are a parameter. -/

namespace OmniSense.Enrichment

open Pipeline

/-- `str.isdigit`, and the value that `int` reads in a character; superscripts, for one, are digits
without such a value. -/
structure Digits where
  isDigit : Char → Bool
  decimal : Char → Option ℕ
  decimal_isDigit : ∀ c n, decimal c = some n → isDigit c = true ∧ n < 10

inductive Stop
  | unparseable | valueError
  deriving DecidableEq

/-- The digits that `int` accepts at once, `sys.get_int_max_str_digits()`. -/
def INT_MAX_STR_DIGITS : ℕ := 4300

def components (version : String) : List (List Char) := (strip version).toList.splitOn '.'

namespace Digits

variable (py : Digits)

/-- `int` of a text of digits. -/
def int (digits : List Char) : Except Stop ℕ :=
  match digits.mapM py.decimal with
  | some values =>
    if digits.length ≤ INT_MAX_STR_DIGITS then .ok (values.foldl (fun n d => 10 * n + d) 0)
    else .error .valueError
  | none => .error .valueError

/-- The digits before a suffix such as `-rc1`. -/
def leadingDigits (part : List Char) : List Char := part.takeWhile py.isDigit

def number (part : List Char) : Except Stop ℕ :=
  if py.leadingDigits part = [] then .error .unparseable else py.int (py.leadingDigits part)

/-- `while len(numbers) < 3`. -/
def padded (numbers : List ℕ) : List ℕ := numbers ++ List.replicate (3 - numbers.length) 0

def encode (numbers : List ℕ) : ℕ :=
  numbers.getD 0 0 * 1000000 + numbers.getD 1 0 * 1000 + numbers.getD 2 0

/-- `none` is a `ValueError`. -/
def ordinalOf (parts : List (List Char)) : Option ℕ :=
  match parts.mapM py.number with
  | .ok numbers => some (encode (padded numbers))
  | .error .unparseable => some 0
  | .error .valueError => none

def pipelineVersionOrdinal (version : String) : Option ℕ :=
  py.ordinalOf ((components version).take 3)

/-! ## Totality -/

/-- What `int` can read. -/
def IsReadable (digits : List Char) : Prop :=
  digits.length ≤ INT_MAX_STR_DIGITS ∧ ∀ c ∈ digits, (py.decimal c).isSome

def IsConvertible : List (List Char) → Prop
  | [] => True
  | part :: rest =>
    py.leadingDigits part = [] ∨ py.IsReadable (py.leadingDigits part) ∧ IsConvertible rest

variable {py} {digits part : List Char} {parts : List (List Char)}

theorem mapM_decimal_isSome :
    (digits.mapM py.decimal).isSome = true ↔ ∀ c ∈ digits, (py.decimal c).isSome := by
  induction digits with
  | nil => simp
  | cons c digits ih =>
    rw [List.mapM_cons, List.forall_mem_cons, ← ih]
    cases py.decimal c with
    | none => simp
    | some n =>
      cases digits.mapM py.decimal with
      | none | some => simp

theorem int_readable (h : py.IsReadable digits) : ∃ n, py.int digits = .ok n := by
  obtain ⟨values, hvalues⟩ := Option.isSome_iff_exists.mp (mapM_decimal_isSome.mpr h.2)
  exact ⟨values.foldl (fun n d => 10 * n + d) 0, by rw [int, hvalues]; exact if_pos h.1⟩

theorem int_unreadable (h : ¬py.IsReadable digits) : py.int digits = .error .valueError := by
  unfold int
  cases hvalues : digits.mapM py.decimal with
  | none => rfl
  | some values =>
    have hsome : (digits.mapM py.decimal).isSome = true := by rw [hvalues]; rfl
    exact if_neg fun hle => h ⟨hle, mapM_decimal_isSome.mp hsome⟩

theorem mapM_number_cases (py : Digits) (parts : List (List Char)) :
    (py.IsConvertible parts ∧ (∀ part ∈ parts, py.leadingDigits part ≠ []) ∧
        ∃ numbers, parts.mapM py.number = .ok numbers) ∨
      (py.IsConvertible parts ∧ (∃ part ∈ parts, py.leadingDigits part = []) ∧
        parts.mapM py.number = .error .unparseable) ∨
      (¬py.IsConvertible parts ∧ parts.mapM py.number = .error .valueError) := by
  induction parts with
  | nil => exact .inl ⟨trivial, fun _ h => absurd h List.not_mem_nil, [], rfl⟩
  | cons part rest ih =>
    rw [List.mapM_cons]
    by_cases hnil : py.leadingDigits part = []
    · have hstop : py.number part = .error .unparseable := if_pos hnil
      rw [hstop]
      exact .inr (.inl ⟨.inl hnil, ⟨part, List.mem_cons_self, hnil⟩, rfl⟩)
    · have hnumber : py.number part = py.int (py.leadingDigits part) := if_neg hnil
      rw [hnumber]
      by_cases hread : py.IsReadable (py.leadingDigits part)
      · obtain ⟨n, hn⟩ := int_readable hread
        rw [hn]
        rcases ih with ⟨hconv, hall, numbers, heq⟩ | ⟨hconv, ⟨stop, hmem, hstop⟩, heq⟩ |
          ⟨hconv, heq⟩
        · refine .inl ⟨.inr ⟨hread, hconv⟩, ?_, n :: numbers, by rw [heq]; rfl⟩
          exact List.forall_mem_cons.mpr ⟨hnil, hall⟩
        · exact .inr (.inl ⟨.inr ⟨hread, hconv⟩, ⟨stop, List.mem_cons_of_mem _ hmem, hstop⟩,
            by rw [heq]; rfl⟩)
        · refine .inr (.inr ⟨?_, by rw [heq]; rfl⟩)
          rintro (h | ⟨-, h⟩)
          · exact hnil h
          · exact hconv h
      · rw [int_unreadable hread]
        refine .inr (.inr ⟨?_, rfl⟩)
        rintro (h | ⟨h, -⟩)
        · exact hnil h
        · exact hread h

theorem ordinalOf_cases (py : Digits) (parts : List (List Char)) :
    (py.IsConvertible parts ∧ ∃ n, py.ordinalOf parts = some n ∧
        ((∃ part ∈ parts, py.leadingDigits part = []) → n = 0)) ∨
      (¬py.IsConvertible parts ∧ py.ordinalOf parts = none) := by
  unfold ordinalOf
  rcases mapM_number_cases py parts with
    ⟨hconv, hall, numbers, heq⟩ | ⟨hconv, -, heq⟩ | ⟨hconv, heq⟩
  · refine .inl ⟨hconv, encode (padded numbers), by rw [heq], ?_⟩
    rintro ⟨part, hpart, hnil⟩
    exact absurd hnil (hall part hpart)
  · exact .inl ⟨hconv, 0, by rw [heq], fun _ => rfl⟩
  · exact .inr ⟨hconv, by rw [heq]⟩

theorem ordinalOf_isSome (parts : List (List Char)) :
    (∃ n, py.ordinalOf parts = some n) ↔ py.IsConvertible parts := by
  rcases ordinalOf_cases py parts with ⟨hconv, n, hn, -⟩ | ⟨hconv, hnone⟩
  · exact iff_of_true ⟨n, hn⟩ hconv
  · refine iff_of_false ?_ hconv
    rintro ⟨n, hn⟩
    rw [hnone] at hn
    cases hn

theorem ordinalOf_unparseable {parts : List (List Char)} (hconv : py.IsConvertible parts)
    (h : ∃ part ∈ parts, py.leadingDigits part = []) : py.ordinalOf parts = some 0 := by
  rcases ordinalOf_cases py parts with ⟨-, n, hn, hzero⟩ | ⟨hnot, -⟩
  · rw [hn, hzero h]
  · exact absurd hconv hnot

/-! ## Order -/

structure IsTriple (py : Digits) (version : String) (major minor patch : ℕ) : Prop where
  short : (components version).length ≤ 3
  numbers : ∃ numbers, (components version).mapM py.number = .ok numbers ∧
    padded numbers = [major, minor, patch]
  small : major < 1000 ∧ minor < 1000 ∧ patch < 1000

theorem IsTriple.ordinal {version : String} {major minor patch : ℕ}
    (h : IsTriple py version major minor patch) :
    py.pipelineVersionOrdinal version = some (major * 1000000 + minor * 1000 + patch) := by
  obtain ⟨numbers, hread, hpadded⟩ := h.numbers
  unfold pipelineVersionOrdinal ordinalOf
  rw [List.take_of_length_le h.short, hread]
  change some (encode (padded numbers)) = _
  rw [hpadded]
  rfl

theorem radix_lt_iff {r a a' b b' : ℕ} (hb : b < r) (hb' : b' < r) :
    a * r + b < a' * r + b' ↔ a < a' ∨ a = a' ∧ b < b' := by
  rcases lt_trichotomy a a' with hlt | rfl | hlt
  · have hstep : (a + 1) * r ≤ a' * r := Nat.mul_le_mul_right r hlt
    rw [Nat.succ_mul] at hstep
    exact iff_of_true (by omega) (.inl hlt)
  · rw [Nat.add_lt_add_iff_left]
    exact ⟨fun h => .inr ⟨rfl, h⟩, fun h => (h.resolve_left (lt_irrefl a)).2⟩
  · have hstep : (a' + 1) * r ≤ a * r := Nat.mul_le_mul_right r hlt
    rw [Nat.succ_mul] at hstep
    exact iff_of_false (by omega) (by omega)

abbrev rank (major minor patch : ℕ) : ℕ ×ₗ ℕ ×ₗ ℕ := toLex (major, toLex (minor, patch))

theorem ordinal_lt_iff (a a' : ℕ) {b c b' c' : ℕ} (hb : b < 1000) (hc : c < 1000) (hb' : b' < 1000)
    (hc' : c' < 1000) : a * 1000000 + b * 1000 + c < a' * 1000000 + b' * 1000 + c' ↔
      rank a b c < rank a' b' c' := by
  have hcut : ∀ x y z : ℕ, x * 1000000 + y * 1000 + z = (x * 1000 + y) * 1000 + z := by
    intro x y z
    omega
  rw [hcut, hcut, radix_lt_iff hc hc', radix_lt_iff hb hb', Prod.Lex.toLex_lt_toLex,
    Prod.Lex.toLex_lt_toLex]
  constructor
  · rintro ((h | ⟨rfl, h⟩) | ⟨heq, h⟩)
    · exact .inl h
    · exact .inr ⟨rfl, .inl h⟩
    · exact .inr ⟨by omega, .inr ⟨by omega, h⟩⟩
  · rintro (h | ⟨rfl, h | ⟨rfl, h⟩⟩)
    · exact .inl (.inl h)
    · exact .inl (.inr ⟨rfl, h⟩)
    · exact .inr ⟨rfl, h⟩

/-- **A version has an ordinal** when `int` can read the digits that are looked at, 0 when a component
has none; and ordinals compare as the versions do, for the guard of the upsert as well. -/
theorem pipelineVersionOrdinal_orders (py : Digits) (version : String) :
    ((∃ n, py.pipelineVersionOrdinal version = some n) ↔
        py.IsConvertible ((components version).take 3)) ∧
      (py.IsConvertible ((components version).take 3) →
        (∃ part ∈ (components version).take 3, py.leadingDigits part = []) →
        py.pipelineVersionOrdinal version = some 0) ∧
      ∀ (other : String) (a b c a' b' c' : ℕ), IsTriple py version a b c →
        IsTriple py other a' b' c' → ∃ n n', py.pipelineVersionOrdinal version = some n ∧
          py.pipelineVersionOrdinal other = some n' ∧ (n < n' ↔ rank a b c < rank a' b' c') ∧
          (n = n' ↔ rank a b c = rank a' b' c') ∧
          ∀ {ρ β : Type} (S : Stages ρ β) (table : String → Option SignalRow)
            (signal : Pipeline.Signal β) (row : SignalRow), table signal.id = some row →
            row.pipelineVersionOrd = n →
            S.ordinal signal.lineage.pipelineVersion = n' →
            ((upsert S table signal).isSome ↔ rank a b c ≤ rank a' b' c') := by
  refine ⟨ordinalOf_isSome _, ordinalOf_unparseable, ?_⟩
  intro other a b c a' b' c' h h'
  have hlt := ordinal_lt_iff a a' h.small.2.1 h.small.2.2 h'.small.2.1 h'.small.2.2
  have hgt := ordinal_lt_iff a' a h'.small.2.1 h'.small.2.2 h.small.2.1 h.small.2.2
  refine ⟨_, _, h.ordinal, h'.ordinal, hlt, ?_, ?_⟩
  · rw [eq_iff_le_not_lt, ← not_lt, hgt, hlt, not_lt, ← eq_iff_le_not_lt]
  · intro ρ β S table signal row htable hrow hordinal
    have hguard : (upsert S table signal).isSome ↔
        row.pipelineVersionOrd ≤ S.ordinal signal.lineage.pipelineVersion := by
      unfold upsert
      rw [htable]
      dsimp only
      split_ifs with hle
      · exact iff_of_true rfl hle
      · exact iff_of_false Bool.false_ne_true hle
    rw [hguard, hrow, hordinal, ← not_lt, hgt, not_lt]

def isLatinDigit (c : Char) : Bool :=
  c.isDigit || c.toNat = 0xb2 || c.toNat = 0xb3 || c.toNat = 0xb9

def latinDecimal (c : Char) : Option ℕ := if c.isDigit then some (c.toNat - 48) else none

theorem latinDecimal_isDigit (c : Char) (n : ℕ) (h : latinDecimal c = some n) :
    isLatinDigit c = true ∧ n < 10 := by
  unfold latinDecimal at h
  split_ifs at h with hdigit
  refine ⟨by unfold isLatinDigit; rw [hdigit]; rfl, ?_⟩
  simp only [Char.isDigit, Bool.and_eq_true, decide_eq_true_eq, UInt32.le_iff_toNat_le] at hdigit
  have hle : c.toNat ≤ 57 := hdigit.2
  have heq := Option.some.inj h
  omega

def latin : Digits := ⟨isLatinDigit, latinDecimal, latinDecimal_isDigit⟩

theorem minor_nine : IsTriple latin "1.9.0" 1 9 0 where
  short := by decide
  numbers := ⟨[1, 9, 0], by decide⟩
  small := by decide

theorem minor_ten : IsTriple latin "1.10.0-rc1" 1 10 0 where
  short := by decide
  numbers := ⟨[1, 10, 0], by decide⟩
  small := by decide

/-- As texts these compare the other way. -/
theorem nine_before_ten : ∃ n n', latin.pipelineVersionOrdinal "1.9.0" = some n ∧
    latin.pipelineVersionOrdinal "1.10.0-rc1" = some n' ∧ n < n' := by
  obtain ⟨n, n', hn, hn', hlt, -⟩ :=
    (pipelineVersionOrdinal_orders latin "1.9.0").2.2 _ _ _ _ _ _ _ minor_nine minor_ten
  exact ⟨n, n', hn, hn', hlt.mpr (by decide)⟩

/-- `int` reads no superscript. -/
theorem superscript_raises : latin.pipelineVersionOrdinal "1.²" = none := by decide

end Digits

end OmniSense.Enrichment
