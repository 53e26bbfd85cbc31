/-! What several components share: the node labels, `str.strip`, and letters. -/

namespace OmniSense

inductive EntityType
  | company | product | person | topic | technology | region | event | unknown
  deriving DecidableEq, Repr

def EntityType.label : EntityType → String
  | .company => "Company"
  | .product => "Product"
  | .person => "Person"
  | .topic => "Topic"
  | .technology => "Technology"
  | .region => "Region"
  | .event => "Event"
  | .unknown => "Unknown"

/-- What `str.isspace` accepts. -/
def isSpace (c : Char) : Bool :=
  let n := c.toNat
  (9 ≤ n ∧ n ≤ 13) ∨ (28 ≤ n ∧ n ≤ 32) ∨ n = 0x85 ∨ n = 0xa0 ∨ n = 0x1680 ∨
    (0x2000 ≤ n ∧ n ≤ 0x200a) ∨ n = 0x2028 ∨ n = 0x2029 ∨ n = 0x202f ∨ n = 0x205f ∨ n = 0x3000

def strip (s : String) : String :=
  String.ofList ((s.toList.dropWhile isSpace).reverse.dropWhile isSpace).reverse

/-! ## Letters -/

theorem forall_mem_of_all {p : Char → Prop} [DecidablePred p] {text : List Char}
    (h : text.all fun c => decide (p c)) : ∀ c ∈ text, p c := fun c hc =>
  of_decide_eq_true (List.all_eq_true.mp h c hc)

theorem ascii_or (P : Char → Prop) (h : ∀ n < 128, P (Char.ofNat n))
    (h' : ∀ c : Char, 128 ≤ c.toNat → P c) (c : Char) : P c := by
  by_cases hc : c.toNat < 128
  · rw [← Char.ofNat_toNat c]
    exact h _ hc
  · exact h' c (Nat.not_lt.mp hc)

theorem toLower_of_not_ascii {c : Char} (h : 128 ≤ c.toNat) : c.toLower = c := by
  apply dif_neg
  rintro ⟨-, hle⟩
  have hz : c.toNat ≤ 90 := UInt32.le_iff_toNat_le.mp hle
  omega

theorem toLower_toLower (c : Char) : c.toLower.toLower = c.toLower := by
  refine ascii_or (fun c => c.toLower.toLower = c.toLower) (by decide) (fun c hc => ?_) c
  rw [toLower_of_not_ascii hc, toLower_of_not_ascii hc]

theorem isAlpha_toLower (c : Char) : c.toLower.isAlpha = c.isAlpha := by
  refine ascii_or (fun c => c.toLower.isAlpha = c.isAlpha) (by decide) (fun c hc => ?_) c
  rw [toLower_of_not_ascii hc]

theorem toNat_of_isAlphanum {c : Char} (h : c.isAlphanum = true) :
    (48 ≤ c.toNat ∧ c.toNat ≤ 57) ∨ (65 ≤ c.toNat ∧ c.toNat ≤ 90) ∨
      (97 ≤ c.toNat ∧ c.toNat ≤ 122) := by
  unfold Char.isAlphanum Char.isAlpha Char.isUpper Char.isLower Char.isDigit at h
  simp only [Bool.or_eq_true, Bool.and_eq_true, decide_eq_true_eq, ge_iff_le,
    UInt32.le_iff_toNat_le] at h
  rcases h with (h | h) | h
  · exact .inr (.inl h)
  · exact .inr (.inr h)
  · exact .inl h

end OmniSense
