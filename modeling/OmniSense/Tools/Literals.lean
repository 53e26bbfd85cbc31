import Mathlib.Algebra.GroupWithZero.Nat
import Mathlib.Data.List.DropRight
import OmniSense.Tools.Untrusted

/-! Texts as Python writes them out: `repr` of a string, and `json.dumps` with `indent=2`. -/

namespace OmniSense.Tools

open Library

def backslash : Char := Char.ofNat 92

def hexDigits (width n : ℕ) : List Char :=
  (List.range width).reverse.map fun i => (n / 16 ^ i % 16).digitChar

/-! ## Strings -/

/-- A character as `json.dumps` writes it, which leaves printable ASCII only. -/
def jsonChar (c : Char) : List Char :=
  let n := c.toNat
  if c = quote ∨ c = backslash then [backslash, c]
  else if c = '\n' then [backslash, 'n']
  else if c = '\r' then [backslash, 'r']
  else if c = '\t' then [backslash, 't']
  else if n = 8 then [backslash, 'b']
  else if n = 12 then [backslash, 'f']
  else if 0x20 ≤ n ∧ n ≤ 0x7e then [c]
  else if n < 0x10000 then backslash :: 'u' :: hexDigits 4 n
  else
    -- A surrogate pair.
    backslash :: 'u' :: (hexDigits 4 (0xd800 + (n - 0x10000) / 0x400) ++
      backslash :: 'u' :: hexDigits 4 (0xdc00 + (n - 0x10000) % 0x400))

/-- `json.dumps` of a string. -/
def jsonText (s : List Char) : List Char := quote :: (s.flatMap jsonChar ++ [quote])

/-- A character as `repr` writes it between the quotes `q`. -/
def reprChar (isPrintable : Char → Bool) (q c : Char) : List Char :=
  let n := c.toNat
  if c = q ∨ c = backslash then [backslash, c]
  else if c = '\n' then [backslash, 'n']
  else if c = '\r' then [backslash, 'r']
  else if c = '\t' then [backslash, 't']
  else if isPrintable c then [c]
  else if n ≤ 0xff then backslash :: 'x' :: hexDigits 2 n
  else if n ≤ 0xffff then backslash :: 'u' :: hexDigits 4 n
  else backslash :: 'U' :: hexDigits 8 n

/-- `repr` of a string; `isPrintable` is `str.isprintable` of a character. -/
def reprText (isPrintable : Char → Bool) (s : List Char) : List Char :=
  let q := if apostrophe ∈ s ∧ quote ∉ s then quote else apostrophe
  q :: (s.flatMap (reprChar isPrintable q) ++ [q])

/-! ## Arrays and objects -/

def jsonBool (b : Bool) : List Char := if b then "true".toList else "false".toList

def jsonArray (items : List (List Char)) : List Char :=
  if items = [] then "[]".toList
  else
    "[\n".toList ++
      ([',', '\n'].intercalate (items.map fun item => "    ".toList ++ jsonText item) ++
        "\n  ]".toList)

def jsonObject (fields : List (List Char × List Char)) : List Char :=
  "\x7b\n".toList ++
    ([',', '\n'].intercalate (fields.map fun field =>
      "  ".toList ++ (jsonText field.1 ++ ": ".toList ++ field.2)) ++ "\n\x7d".toList)

/-- `value.rstrip()`. -/
def rstrip (value : List Char) : List Char := value.rdropWhile isSpace

/-! ## Angle brackets -/

theorem less_not_mem_hexDigits (width n : ℕ) : '<' ∉ hexDigits width n := by
  intro hmem
  obtain ⟨i, -, heq⟩ := List.mem_map.mp hmem
  have hdigit : ∀ k < 16, Nat.digitChar k ≠ '<' := by decide
  exact hdigit _ (Nat.mod_lt _ (by decide)) heq

theorem less_not_mem_jsonChar {c : Char} (h : c ≠ '<') : '<' ∉ jsonChar c := by
  have hhex := less_not_mem_hexDigits
  have hback : '<' ≠ backslash := by decide
  unfold jsonChar
  dsimp only
  split_ifs <;> simp [hback, hhex, h.symm]

theorem less_not_mem_reprChar {isPrintable : Char → Bool} {q c : Char} (h : c ≠ '<') :
    '<' ∉ reprChar isPrintable q c := by
  have hhex := less_not_mem_hexDigits
  have hback : '<' ≠ backslash := by decide
  unfold reprChar
  dsimp only
  split_ifs <;> simp [hback, hhex, h.symm]

theorem less_not_mem_flatMap {s : List Char} {f : Char → List Char} (hs : '<' ∉ s)
    (hf : ∀ c, c ≠ '<' → '<' ∉ f c) : '<' ∉ s.flatMap f := by
  intro hmem
  obtain ⟨c, hc, hin⟩ := List.mem_flatMap.mp hmem
  exact hf c (fun heq => hs (heq ▸ hc)) hin

theorem less_not_mem_reprText {isPrintable : Char → Bool} {s : List Char} (hs : '<' ∉ s) :
    '<' ∉ reprText isPrintable s := by
  have hinner : ∀ q, '<' ∉ s.flatMap (reprChar isPrintable q) := fun q =>
    less_not_mem_flatMap hs fun c hc => less_not_mem_reprChar hc
  have hquotes : '<' ≠ quote ∧ '<' ≠ apostrophe := by decide
  unfold reprText
  split_ifs <;> simp [hinner, hquotes]

abbrev IsSingle (l : List Char) : Prop := IsFree [['<', '<']] id l

theorem nil_not_mem_double : [] ∉ [['<', '<']] := by decide

theorem isApart_of_ne {c : Char} (h : c ≠ '<') : IsApart [['<', '<']] id c := by
  intro w hw hmem
  obtain rfl := List.mem_singleton.mp hw
  simp [h] at hmem

theorem isSingle_of_not_mem {l : List Char} (h : '<' ∉ l) : IsSingle l := by
  intro w hw hin
  obtain rfl := List.mem_singleton.mp hw
  rw [List.map_id] at hin
  exact h (hin.subset List.mem_cons_self)

theorem isSingle_append {l l' : List Char} (h : IsSingle l) (h' : IsSingle l')
    (hhead : l'.head? ≠ some '<') : IsSingle (l ++ l') :=
  h.append h' fun _ hc => isApart_of_ne fun heq => hhead (heq ▸ hc)

end OmniSense.Tools
