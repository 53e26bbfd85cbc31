import Mathlib.Data.List.DropRight
import Mathlib.Data.List.Infix
import Mathlib.Tactic.Common

/-! Base64 in the URL alphabet, its padding taken off and put back, and a decoder that passes over
whatever is not in the alphabet. -/

namespace OmniSense.Library.Base64

open List

def letter (n : ℕ) : Char :=
  if n < 26 then Char.ofNat (n + 65)
  else if n < 52 then Char.ofNat (n + 71)
  else if n < 62 then Char.ofNat (n - 4)
  else if n = 62 then '-'
  else '_'

/-- `+` and `/` stand for `-` and `_`. -/
def sextet (c : Char) : Option ℕ :=
  let n := c.toNat
  if 65 ≤ n ∧ n ≤ 90 then some (n - 65)
  else if 97 ≤ n ∧ n ≤ 122 then some (n - 71)
  else if 48 ≤ n ∧ n ≤ 57 then some (n + 4)
  else if c = '-' ∨ c = '+' then some 62
  else if c = '_' ∨ c = '/' then some 63
  else none

variable (bytes : List UInt8) (a b c : UInt8) {n : ℕ}

theorem sextet_letter (hn : n < 64) : sextet (letter n) = some n := by
  have key : ∀ n < 64, sextet (letter n) = some n := by decide
  exact key n hn

theorem letter_ne_pad (hn : n < 64) : letter n ≠ '=' := by
  have key : ∀ n < 64, letter n ≠ '=' := by decide
  exact key n hn

theorem letter_ascii (hn : n < 64) : (letter n).toNat < 128 := by
  have key : ∀ n < 64, (letter n).toNat < 128 := by decide
  exact key n hn

/-! ## Encoding -/

def first (a : UInt8) : ℕ := a.toNat / 4

def second (a b : UInt8) : ℕ := a.toNat % 4 * 16 + b.toNat / 16

def third (b c : UInt8) : ℕ := b.toNat % 16 * 4 + c.toNat / 64

def fourth (c : UInt8) : ℕ := c.toNat % 64

theorem first_lt (a : UInt8) : first a < 64 := by
  have ha := a.toNat_lt
  unfold first
  omega

theorem second_lt (a b : UInt8) : second a b < 64 := by
  have hb := b.toNat_lt
  unfold second
  omega

theorem third_lt (b c : UInt8) : third b c < 64 := by
  have hc := c.toNat_lt
  unfold third
  omega

theorem fourth_lt (c : UInt8) : fourth c < 64 := Nat.mod_lt _ (by decide)

@[grind =] def letters : List UInt8 → List Char
  | [] => []
  | [a] => [letter (first a), letter (second a 0)]
  | [a, b] => [letter (first a), letter (second a b), letter (third b 0)]
  | a :: b :: c :: rest =>
    letter (first a) :: letter (second a b) :: letter (third b c) :: letter (fourth c) ::
      letters rest

/-- `cs + "=" * (-len(cs) % 4)`. -/
def pad (cs : List Char) : List Char := cs ++ List.replicate ((4 - cs.length % 4) % 4) '='

def encode (bytes : List UInt8) : List Char := pad (letters bytes)

/-- `rstrip("=")`. -/
def strip (cs : List Char) : List Char := cs.rdropWhile (· = '=')

theorem mem_letters {bytes : List UInt8} {c : Char} (hc : c ∈ letters bytes) :
    ∃ n < 64, letter n = c := by
  induction bytes using letters.induct with
  | case1 => exact absurd hc not_mem_nil
  | case2 a =>
    simp only [letters, mem_cons, not_mem_nil, or_false] at hc
    rcases hc with rfl | rfl
    · exact ⟨_, first_lt a, rfl⟩
    · exact ⟨_, second_lt a 0, rfl⟩
  | case3 a b =>
    simp only [letters, mem_cons, not_mem_nil, or_false] at hc
    rcases hc with rfl | rfl | rfl
    · exact ⟨_, first_lt a, rfl⟩
    · exact ⟨_, second_lt a b, rfl⟩
    · exact ⟨_, third_lt b 0, rfl⟩
  | case4 a b c rest ih =>
    simp only [letters, mem_cons] at hc
    rcases hc with rfl | rfl | rfl | rfl | hc
    · exact ⟨_, first_lt a, rfl⟩
    · exact ⟨_, second_lt a b, rfl⟩
    · exact ⟨_, third_lt b c, rfl⟩
    · exact ⟨_, fourth_lt c, rfl⟩
    · exact ih hc

theorem strip_encode : strip (encode bytes) = letters bytes := by
  have hpads : ∀ n, strip (letters bytes ++ List.replicate n '=') = letters bytes := by
    intro n
    induction n with
    | zero =>
      rw [replicate_zero, append_nil]
      unfold strip
      rw [rdropWhile_eq_self_iff]
      intro hne
      obtain ⟨m, hm, heq⟩ := mem_letters (getLast_mem hne)
      rw [← heq]
      simpa using letter_ne_pad hm
    | succ n ih =>
      unfold strip at ih ⊢
      rw [replicate_succ', ← append_assoc, rdropWhile_concat_pos _ _ _ (by simp)]
      exact ih
  exact hpads _

theorem strip_encode_ne_nil {bytes : List UInt8} (h : bytes ≠ []) : strip (encode bytes) ≠ [] := by
  rw [strip_encode]
  induction bytes using letters.induct with
  | case1 => exact absurd rfl h
  | case2 | case3 | case4 => exact cons_ne_nil _ _

/-! ## Decoding -/

/-- `position` counts the letters of the group begun, `left` are its bits not yet given out, `pads`
the pads since its last letter. -/
@[grind =] def decodeFrom : List Char → ℕ → ℕ → ℕ → Option (List UInt8)
  | [], position, _, _ => if position = 0 then some [] else none
  | c :: cs, position, left, pads =>
    if c = '=' then
      if position < 2 then decodeFrom cs position left pads
      else if 4 ≤ position + (pads + 1) then some []
      else decodeFrom cs position left (pads + 1)
    else
      match sextet c with
      | none => decodeFrom cs position left pads
      | some n =>
        if position = 0 then decodeFrom cs 1 n 0
        else if position = 1 then
          (decodeFrom cs 2 (n % 16) 0).map (UInt8.ofNat (left * 4 + n / 16) :: ·)
        else if position = 2 then
          (decodeFrom cs 3 (n % 4) 0).map (UInt8.ofNat (left * 16 + n / 4) :: ·)
        else (decodeFrom cs 0 0 0).map (UInt8.ofNat (left * 64 + n) :: ·)

def decode (cs : List Char) : Option (List UInt8) :=
  if cs.all fun c => c.toNat < 128 then decodeFrom cs 0 0 0 else none

theorem decodeFrom_letter (hn : n < 64) (cs : List Char) (position left pads : ℕ) :
    decodeFrom (letter n :: cs) position left pads =
      if position = 0 then decodeFrom cs 1 n 0
      else if position = 1 then
        (decodeFrom cs 2 (n % 16) 0).map (UInt8.ofNat (left * 4 + n / 16) :: ·)
      else if position = 2 then
        (decodeFrom cs 3 (n % 4) 0).map (UInt8.ofNat (left * 16 + n / 4) :: ·)
      else (decodeFrom cs 0 0 0).map (UInt8.ofNat (left * 64 + n) :: ·) := by
  rw [decodeFrom, if_neg (letter_ne_pad hn), sextet_letter hn]

theorem byte_first (a b : UInt8) : UInt8.ofNat (first a * 4 + second a b / 16) = a := by
  have hb := b.toNat_lt
  have hsum : first a * 4 + second a b / 16 = a.toNat := by
    unfold first second
    omega
  rw [hsum, UInt8.ofNat_toNat]

theorem byte_second : UInt8.ofNat (second a b % 16 * 16 + third b c / 4) = b := by
  have hb := b.toNat_lt
  have hc := c.toNat_lt
  have hsum : second a b % 16 * 16 + third b c / 4 = b.toNat := by
    unfold second third
    omega
  rw [hsum, UInt8.ofNat_toNat]

theorem byte_third (b c : UInt8) : UInt8.ofNat (third b c % 4 * 64 + fourth c) = c := by
  have hc := c.toNat_lt
  have hsum : third b c % 4 * 64 + fourth c = c.toNat := by
    unfold third fourth
    omega
  rw [hsum, UInt8.ofNat_toNat]

theorem decodeFrom_group (cs : List Char) :
    decodeFrom (letter (first a) :: letter (second a b) :: letter (third b c) ::
      letter (fourth c) :: cs) 0 0 0 =
        (decodeFrom cs 0 0 0).map fun rest => a :: b :: c :: rest := by
  rw [decodeFrom_letter (first_lt a), if_pos rfl, decodeFrom_letter (second_lt a b),
    if_neg Nat.one_ne_zero, if_pos rfl, byte_first, decodeFrom_letter (third_lt b c),
    if_neg (by decide), if_neg (by decide), if_pos rfl, byte_second,
    decodeFrom_letter (fourth_lt c), if_neg (by decide), if_neg (by decide), if_neg (by decide),
    byte_third, Option.map_map, Option.map_map]
  rfl

theorem pad_letters_group (rest : List UInt8) : pad (letters (a :: b :: c :: rest)) =
      letter (first a) :: letter (second a b) :: letter (third b c) :: letter (fourth c) ::
        pad (letters rest) := by
  unfold pad
  have hlength : (letters (a :: b :: c :: rest)).length % 4 = (letters rest).length % 4 := by
    simp only [letters, length_cons]
    omega
  rw [hlength]
  rfl

theorem decodeFrom_encode : decodeFrom (encode bytes) 0 0 0 = some bytes := by
  unfold encode
  induction bytes using letters.induct with
  | case1 => rfl
  | case2 a =>
    change decodeFrom (letter (first a) :: letter (second a 0) :: ['=', '=']) 0 0 0 = _
    rw [decodeFrom_letter (first_lt a), if_pos rfl, decodeFrom_letter (second_lt a 0),
      if_neg Nat.one_ne_zero, if_pos rfl, byte_first]
    rfl
  | case3 a b =>
    change decodeFrom (letter (first a) :: letter (second a b) :: letter (third b 0) :: ['=']) 0 0 0
      = _
    rw [decodeFrom_letter (first_lt a), if_pos rfl, decodeFrom_letter (second_lt a b),
      if_neg Nat.one_ne_zero, if_pos rfl, byte_first, decodeFrom_letter (third_lt b 0),
      if_neg (by decide), if_neg (by decide), if_pos rfl, byte_second]
    rfl
  | case4 a b c rest ih => rw [pad_letters_group, decodeFrom_group, ih, Option.map_some]

theorem decode_pad_strip_encode : decode (pad (strip (encode bytes))) = some bytes := by
  have hpad : pad (strip (encode bytes)) = encode bytes := by rw [strip_encode]; rfl
  have hascii : (encode bytes).all fun c => c.toNat < 128 := by
    rw [all_eq_true]
    intro c hc
    rcases mem_append.mp hc with hletter | hpads
    · obtain ⟨n, hn, rfl⟩ := mem_letters hletter
      exact decide_eq_true (letter_ascii hn)
    · rw [eq_of_mem_replicate hpads]
      rfl
  unfold decode
  rw [hpad, if_pos hascii, decodeFrom_encode]

end OmniSense.Library.Base64
