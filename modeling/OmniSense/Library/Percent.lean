import Mathlib.Data.List.SplitBy
import Mathlib.Data.Sum.Basic
import Mathlib.Tactic.Common

/-! Percent-encoding: the UTF-8 bytes of a text quoted outside a safe set, what reads them back, and
the normal form of the escapes a text has. -/

namespace OmniSense.Library.Percent

open List

/-! ## Bytes and their digits -/

def hexDigits : List Char :=
  ['0', '1', '2', '3', '4', '5', '6', '7', '8', '9', 'A', 'B', 'C', 'D', 'E', 'F']

def hexDigit (n : ℕ) : Char := hexDigits.getD n '0'

def hexValue (c : Char) : Option ℕ :=
  let n := c.toNat
  if 48 ≤ n ∧ n ≤ 57 then some (n - 48)
  else if 65 ≤ n ∧ n ≤ 70 then some (n - 55)
  else if 97 ≤ n ∧ n ≤ 102 then some (n - 87)
  else none

def hexByte (a b : Char) : Option UInt8 :=
  match hexValue a, hexValue b with
  | some hi, some lo => some (UInt8.ofNat (16 * hi + lo))
  | _, _ => none

/-- `%XX`, in upper case. -/
def escape (byte : UInt8) : List Char :=
  ['%', hexDigit (byte.toNat / 16), hexDigit (byte.toNat % 16)]

def isAscii (c : Char) : Bool := c.toNat < 128

def charOf (byte : UInt8) : Char := Char.ofNat byte.toNat

def utf8 (s : List Char) : List UInt8 := s.flatMap String.utf8EncodeChar

theorem hexValue_hexDigit : ∀ n < 16, hexValue (hexDigit n) = some n := by decide

theorem hexByte_hexDigit (byte : UInt8) :
    hexByte (hexDigit (byte.toNat / 16)) (hexDigit (byte.toNat % 16)) = some byte := by
  have hlt : byte.toNat < 256 := byte.toNat_lt
  have hsum : 16 * (byte.toNat / 16) + byte.toNat % 16 = byte.toNat := Nat.div_add_mod ..
  unfold hexByte
  rw [hexValue_hexDigit _ (by omega), hexValue_hexDigit _ (by omega)]
  simp [hsum]

theorem toNat_charOf (byte : UInt8) : (charOf byte).toNat = byte.toNat := by
  have hlt : byte.toNat < 256 := byte.toNat_lt
  unfold charOf Char.ofNat
  rw [dif_pos (Or.inl (by omega))]
  rfl

variable {c : Char}

theorem utf8EncodeChar_ascii (h : isAscii c) : String.utf8EncodeChar c = [UInt8.ofNat c.toNat] := by
  have hsize : c.utf8Size = 1 := by
    rw [Char.utf8Size_eq_one_iff]
    simpa [isAscii, UInt32.le_iff_toNat_le, Nat.lt_succ_iff] using h
  rw [String.utf8EncodeChar_eq_singleton hsize]
  rfl

theorem utf8EncodeChar_high (h : isAscii c = false) :
    ∀ byte ∈ String.utf8EncodeChar c, 128 ≤ byte.toNat := by
  have hor : ∀ a b : UInt8, 128 ≤ b.toNat → 128 ≤ (a ||| b).toNat := by
    intro a b hb
    rw [UInt8.toNat_or]
    exact hb.trans Nat.right_le_or
  have hone : c.utf8Size ≠ 1 := by
    intro hsize
    have hle := UInt32.le_iff_toNat_le.mp (Char.utf8Size_eq_one_iff.mp hsize)
    have hlt : c.toNat < 128 := Nat.lt_succ_of_le hle
    exact absurd (decide_eq_true hlt) (ne_true_of_eq_false h)
  rcases c.utf8Size_eq with hsize | hsize | hsize | hsize
  · exact absurd hsize hone
  · rw [String.utf8EncodeChar_eq_cons_cons hsize]
    simp only [forall_mem_cons]
    exact ⟨hor _ _ (by decide), hor _ _ (by decide), by simp⟩
  · rw [String.utf8EncodeChar_eq_cons_cons_cons hsize]
    simp only [forall_mem_cons]
    exact ⟨hor _ _ (by decide), hor _ _ (by decide), hor _ _ (by decide), by simp⟩
  · rw [String.utf8EncodeChar_eq_cons_cons_cons_cons hsize]
    simp only [forall_mem_cons]
    exact ⟨hor _ _ (by decide), hor _ _ (by decide), hor _ _ (by decide), hor _ _ (by decide),
      by simp⟩

theorem charOf_ofNat (h : isAscii c) : charOf (UInt8.ofNat c.toNat) = c := by
  have hlt : c.toNat < 128 := by simpa [isAscii] using h
  unfold charOf
  rw [UInt8.toNat_ofNat', Nat.mod_eq_of_lt (by omega), Char.ofNat_toNat]

/-! ## Quoting -/

section

variable (safe : Char → Bool)

/-- `_Quoter.__missing__`. -/
def quoteByte (byte : UInt8) : List Char :=
  if safe (charOf byte) then [charOf byte] else escape byte

def quote (s : List Char) : List Char := (utf8 s).flatMap (quoteByte safe)

/-! ## Reading escapes back -/

@[grind =] def unquoteToBytes : List Char → List UInt8
  | '%' :: a :: b :: rest =>
    match hexByte a b with
    | some byte => byte :: unquoteToBytes rest
    | none => String.utf8EncodeChar '%' ++ unquoteToBytes (a :: b :: rest)
  | c :: rest => String.utf8EncodeChar c ++ unquoteToBytes rest
  | [] => []

/-- How many bytes a replacement character stands for: as many as some character starts with, or
the one that starts none. -/
def malformedLength : List UInt8 → ℕ
  | lead :: second :: rest =>
    let (lo, hi) : UInt8 × UInt8 :=
      if lead = 0xe0 then (0xa0, 0xbf)
      else if lead = 0xed then (0x80, 0x9f)
      else if lead = 0xf0 then (0x90, 0xbf)
      else if lead = 0xf4 then (0x80, 0x8f)
      else (0x80, 0xbf)
    if lead < 0xe0 ∨ 0xf4 < lead ∨ second < lo ∨ hi < second then 1
    else if lead < 0xf0 then 2
    else 2 + ((rest.take 1).takeWhile fun b => 0x80 ≤ b ∧ b ≤ 0xbf).length
  | _ => 1

theorem malformedLength_pos (bytes : List UInt8) : 0 < malformedLength bytes := by
  unfold malformedLength
  split
  · dsimp only
    split_ifs <;> omega
  · omega

/-- `bytes.decode("utf-8", "replace")`. -/
@[grind =] def decodeReplacing (bytes : List UInt8) : List Char :=
  if bytes = [] then []
  else
    match bytes.toByteArray.utf8DecodeChar? 0 with
    | some c => c :: decodeReplacing (bytes.drop c.utf8Size)
    | none => Char.ofNat 0xfffd :: decodeReplacing (bytes.drop (malformedLength bytes))
termination_by bytes.length
decreasing_by
  all_goals
    rw [length_drop]
    have hlength : 0 < bytes.length := length_pos_iff.mpr ‹_›
  · have hsize := c.utf8Size_pos
    omega
  · have hmalformed := malformedLength_pos bytes
    omega

/-- `unquote`: the runs of ASCII characters are read back one by one. -/
def unquote (s : List Char) : List Char :=
  if '%' ∉ s then s
  else ((s.splitBy fun a b => isAscii a == isAscii b).map fun run =>
    if run.all isAscii then decodeReplacing (unquoteToBytes run) else run).flatten

/-! ## Escapes in normal form -/

variable (plain : Char → Bool)

/-- Escapes of `plain` characters are read, the others are written in upper case, and what is no
escape is quoted. -/
@[grind =] def normalizeEscapes : List Char → List Char
  | '%' :: a :: b :: rest =>
    match hexByte a b with
    | some byte =>
      (if plain (charOf byte) then [charOf byte] else escape byte) ++ normalizeEscapes rest
    | none => quote safe ['%'] ++ normalizeEscapes (a :: b :: rest)
  | c :: rest => quote safe [c] ++ normalizeEscapes rest
  | [] => []

inductive Symbol
  | raw (c : Char)
  | escaped (byte : UInt8)
  deriving DecidableEq

def Symbol.spelling : Symbol → List Char
  | .raw c => [c]
  | .escaped byte => escape byte

def symbolOf (kept : Char → Bool) (byte : UInt8) : Symbol :=
  if kept (charOf byte) then .raw (charOf byte) else .escaped byte

@[grind =] def symbols : List Char → List Symbol
  | '%' :: a :: b :: rest =>
    match hexByte a b with
    | some byte => symbolOf plain byte :: symbols rest
    | none => (String.utf8EncodeChar '%').map (symbolOf safe) ++ symbols (a :: b :: rest)
  | c :: rest => (String.utf8EncodeChar c).map (symbolOf safe) ++ symbols rest
  | [] => []

end

section

variable {safe plain : Char → Bool} {s t : List Char}

theorem quote_append (s t : List Char) : quote safe (s ++ t) = quote safe s ++ quote safe t := by
  unfold quote utf8
  rw [flatMap_append, flatMap_append]

/-! ## Reading back what was quoted -/

theorem decodeReplacing_utf8 (s : List Char) : decodeReplacing (utf8 s) = s := by
  induction s with
  | nil =>
    rw [decodeReplacing]
    exact if_pos rfl
  | cons c s ih =>
    have hbytes : utf8 (c :: s) = String.utf8EncodeChar c ++ utf8 s := flatMap_cons
    have hne : utf8 (c :: s) ≠ [] := by
      rw [hbytes]
      exact append_ne_nil_of_left_ne_nil String.utf8EncodeChar_ne_nil _
    have hfirst : (utf8 (c :: s)).toByteArray.utf8DecodeChar? 0 = some c :=
      List.utf8DecodeChar?_utf8Encode_cons
    have hdrop : (utf8 (c :: s)).drop c.utf8Size = utf8 s := by
      rw [hbytes, ← String.length_utf8EncodeChar, drop_left]
    rw [decodeReplacing, if_neg hne, hfirst]
    dsimp only
    rw [hdrop, ih]

theorem utf8_injective : Function.Injective utf8 :=
  Function.LeftInverse.injective decodeReplacing_utf8

theorem unquoteToBytes_escape (byte : UInt8) (s : List Char) :
    unquoteToBytes (escape byte ++ s) = byte :: unquoteToBytes s := by
  rw [escape, cons_append, cons_append, cons_append, nil_append, unquoteToBytes,
    hexByte_hexDigit]

variable {c : Char}

theorem unquoteToBytes_raw (h : c ≠ '%') (s : List Char) :
    unquoteToBytes (c :: s) = String.utf8EncodeChar c ++ unquoteToBytes s := by
  rw [unquoteToBytes]
  intro a b rest hc
  exact absurd hc h

theorem unquoteToBytes_plain (h : '%' ∉ s) : unquoteToBytes s = utf8 s := by
  induction s with
  | nil => rfl
  | cons c s ih =>
    obtain ⟨hc, hs⟩ := not_or.mp (mt mem_cons.mpr h)
    rw [unquoteToBytes_raw (Ne.symm hc), ih hs]
    rfl

theorem unquoteToBytes_quote (hascii : ∀ c, safe c → isAscii c) (hpercent : safe '%' = false)
    (s : List Char) : unquoteToBytes (quote safe s) = utf8 s := by
  have hbytes : ∀ bytes : List UInt8,
      unquoteToBytes (bytes.flatMap (quoteByte safe)) = bytes := by
    intro bytes
    induction bytes with
    | nil => rfl
    | cons byte bytes ih =>
      rw [flatMap_cons, quoteByte]
      split_ifs with hsafe
      · have hne : charOf byte ≠ '%' := by
          intro heq
          rw [heq, hpercent] at hsafe
          cases hsafe
        rw [singleton_append, unquoteToBytes_raw hne, utf8EncodeChar_ascii (hascii _ hsafe), ih,
          toNat_charOf, UInt8.ofNat_toNat]
        rfl
      · rw [unquoteToBytes_escape, ih]
  exact hbytes (utf8 s)

theorem mem_escape {byte : UInt8} (h : c ∈ escape byte) : c = '%' ∨ c ∈ hexDigits := by
  have hlt : byte.toNat < 256 := byte.toNat_lt
  have hdigit : ∀ n < 16, hexDigit n ∈ hexDigits := by decide
  rcases mem_cons.mp h with rfl | h
  · exact Or.inl rfl
  · rcases mem_cons.mp h with rfl | h
    · exact Or.inr (hdigit _ (by omega))
    · rw [mem_singleton] at h
      exact Or.inr (h ▸ hdigit _ (by omega))

theorem mem_quote (h : c ∈ quote safe s) : safe c ∨ c = '%' ∨ c ∈ hexDigits := by
  obtain ⟨byte, -, hc⟩ := mem_flatMap.mp h
  unfold quoteByte at hc
  split_ifs at hc with hsafe
  · rw [mem_singleton] at hc
    exact Or.inl (hc ▸ hsafe)
  · exact Or.inr (mem_escape hc)

theorem isAscii_quote (hascii : ∀ c, safe c → isAscii c) (h : c ∈ quote safe s) : isAscii c := by
  rcases mem_quote h with hsafe | rfl | hdigit
  · exact hascii c hsafe
  · decide
  · exact all_eq_true.mp (by decide : hexDigits.all isAscii) c hdigit

theorem unquote_quote (hascii : ∀ c, safe c → isAscii c) (hpercent : safe '%' = false)
    (s : List Char) : unquote (quote safe s) = s := by
  have hbytes := unquoteToBytes_quote hascii hpercent s
  unfold unquote
  by_cases h : '%' ∈ quote safe s
  · have hne : quote safe s ≠ [] := ne_nil_of_mem h
    have hchain : (quote safe s).IsChain fun a b => (isAscii a == isAscii b) = true := by
      apply List.Pairwise.isChain
      apply List.Pairwise.imp_of_mem _ (pairwise_of_forall fun _ _ => trivial)
      intro a b ha hb _
      rw [isAscii_quote hascii ha, isAscii_quote hascii hb]
      rfl
    have hall : (quote safe s).all isAscii := all_eq_true.mpr fun c hc => isAscii_quote hascii hc
    rw [if_neg (not_not.mpr h), splitBy_of_isChain hne hchain, map_singleton, if_pos hall,
      flatten_singleton, hbytes, decodeReplacing_utf8]
  · rw [if_pos h]
    apply utf8_injective
    rw [← hbytes, unquoteToBytes_plain h]

/-! ## The normal form -/

def Symbol.Settled (safe plain : Char → Bool) : Symbol → Prop
  | .raw c => safe c
  | .escaped byte => plain (charOf byte) = false

theorem symbols_escape (byte : UInt8) (s : List Char) :
    symbols safe plain (escape byte ++ s) = symbolOf plain byte :: symbols safe plain s := by
  rw [escape, cons_append, cons_append, cons_append, nil_append, symbols,
    hexByte_hexDigit]

theorem symbols_raw (h : c ≠ '%') (s : List Char) : symbols safe plain (c :: s) =
      (String.utf8EncodeChar c).map (symbolOf safe) ++ symbols safe plain s := by
  rw [symbols]
  intro a b rest hc
  exact absurd hc h

theorem symbols_append {sep : Char} (hsep : hexValue sep = none) (s t : List Char) :
    symbols safe plain (s ++ sep :: t) = symbols safe plain s ++ symbols safe plain (sep :: t) := by
  have hleft : ∀ b, hexByte sep b = none := by
    intro b
    unfold hexByte
    rw [hsep]
  have hright : ∀ a, hexByte a sep = none := by
    intro a
    unfold hexByte
    rw [hsep]
    cases hexValue a <;> rfl
  induction s using symbols.induct with
  | case1 a b rest byte hbyte ih =>
    rw [cons_append, cons_append, cons_append, symbols, symbols, hbyte]
    rw [ih, cons_append]
  | case2 a b rest hnone ih =>
    rw [cons_append] at ih
    rw [cons_append, cons_append, cons_append, symbols, symbols, hnone]
    rw [← cons_append, ← cons_append, append_assoc]
    exact congrArg _ ih
  | case3 c rest hnot ih =>
    by_cases hc : c = '%'
    · subst hc
      -- An escape that the text breaks off is none: the separator ends it.
      rcases rest with _ | ⟨x, _ | ⟨b, rest⟩⟩
      · cases t with
        | nil => rfl
        | cons b t =>
          rw [singleton_append, symbols, hleft]
          rfl
      · rw [cons_append, cons_append, nil_append, symbols, hright]
        rw [← singleton_append, ih]
        rfl
      · exact absurd rfl (hnot x b rest rfl)
    · rw [cons_append, symbols_raw hc, symbols_raw hc, ih, append_assoc]
  | case4 => rfl

theorem spelling_quote (c : Char) :
    ((String.utf8EncodeChar c).map (symbolOf safe)).flatMap Symbol.spelling = quote safe [c] := by
  have hbyte : ∀ byte, (symbolOf safe byte).spelling = quoteByte safe byte := by
    intro byte
    unfold symbolOf quoteByte
    split_ifs <;> rfl
  have hutf8 : utf8 [c] = String.utf8EncodeChar c := flatMap_singleton ..
  unfold quote
  rw [hutf8, flatMap_map]
  exact flatMap_congr fun byte _ => hbyte byte

theorem normalizeEscapes_eq (s : List Char) :
    normalizeEscapes safe plain s = (symbols safe plain s).flatMap Symbol.spelling := by
  induction s using symbols.induct with
  | case1 a b rest byte hbyte ih =>
    rw [normalizeEscapes, symbols, hbyte]
    dsimp only
    rw [ih, flatMap_cons]
    congr 1
    unfold symbolOf
    split_ifs <;> rfl
  | case2 a b rest hnone ih =>
    rw [normalizeEscapes, symbols, hnone]
    rw [ih, flatMap_append, spelling_quote]
  | case3 c rest hnot ih =>
    rw [normalizeEscapes, symbols, ih, flatMap_append, spelling_quote]
    · exact hnot
    · exact hnot
  | case4 => rfl

/-- The safe characters are ASCII, hold the plain ones, and the one that starts an escape is not
among them. -/
structure Quotable (safe plain : Char → Bool) : Prop where
  ascii : ∀ c, safe c → isAscii c
  percent : safe '%' = false
  plain_safe : ∀ c, plain c → safe c

theorem Quotable.ne_percent (h : Quotable safe plain) (hc : safe c) : c ≠ '%' := by
  rintro rfl
  rw [h.percent] at hc
  cases hc

theorem Quotable.settled (h : Quotable safe plain) (s : List Char) :
    ∀ x ∈ symbols safe plain s, x.Settled safe plain := by
  have hplain : ∀ byte, (symbolOf plain byte).Settled safe plain := by
    intro byte
    unfold symbolOf
    split_ifs with hbyte
    · exact h.plain_safe _ hbyte
    · exact eq_false_of_ne_true hbyte
  have hsafe : ∀ byte, (symbolOf safe byte).Settled safe plain := by
    intro byte
    unfold symbolOf
    split_ifs with hbyte
    · exact hbyte
    · exact eq_false_of_ne_true (mt (h.plain_safe _) hbyte)
  have hquoted : ∀ c, ∀ x ∈ (String.utf8EncodeChar c).map (symbolOf safe),
      x.Settled safe plain := by
    intro c x hx
    obtain ⟨byte, -, rfl⟩ := mem_map.mp hx
    exact hsafe byte
  induction s using symbols.induct with
  | case1 a b rest byte hbyte ih =>
    rw [symbols, hbyte]
    exact forall_mem_cons.mpr ⟨hplain byte, ih⟩
  | case2 a b rest hnone ih =>
    rw [symbols, hnone]
    exact forall_mem_append.mpr ⟨hquoted _, ih⟩
  | case3 c rest hnot ih =>
    rw [symbols]
    · exact forall_mem_append.mpr ⟨hquoted _, ih⟩
    · exact hnot
  | case4 =>
    intro x hx
    cases hx

theorem Quotable.symbols_spelling (h : Quotable safe plain) {xs : List Symbol}
    (hxs : ∀ x ∈ xs, x.Settled safe plain) :
    symbols safe plain (xs.flatMap Symbol.spelling) = xs := by
  induction xs with
  | nil => rfl
  | cons x xs ih =>
    obtain ⟨hx, hrest⟩ := forall_mem_cons.mp hxs
    rw [flatMap_cons]
    cases x with
    | raw c =>
      have hc : safe c := hx
      have hself : symbolOf safe (UInt8.ofNat c.toNat) = .raw c := by
        unfold symbolOf
        rw [charOf_ofNat (h.ascii c hc), if_pos hc]
      rw [Symbol.spelling, singleton_append, symbols_raw (h.ne_percent hc),
        utf8EncodeChar_ascii (h.ascii c hc), map_singleton, hself, ih hrest]
      rfl
    | escaped byte =>
      have hself : symbolOf plain byte = .escaped byte := if_neg (ne_true_of_eq_false hx)
      rw [Symbol.spelling, symbols_escape, hself, ih hrest]

theorem symbols_ne_nil (h : s ≠ []) : symbols safe plain s ≠ [] := by
  have hquoted : ∀ c : Char, (String.utf8EncodeChar c).map (symbolOf safe) ≠ [] := fun c => by
    simp
  unfold symbols
  split
  · split
    · exact cons_ne_nil _ _
    · exact append_ne_nil_of_left_ne_nil (hquoted _) _
  · exact append_ne_nil_of_left_ne_nil (hquoted _) _
  · exact absurd rfl h

theorem Quotable.normalizeEscapes_idem (h : Quotable safe plain) (s : List Char) :
    normalizeEscapes safe plain (normalizeEscapes safe plain s) = normalizeEscapes safe plain s := by
  have hread := h.symbols_spelling (h.settled s)
  rw [← normalizeEscapes_eq] at hread
  rw [normalizeEscapes_eq, hread, ← normalizeEscapes_eq]

theorem Quotable.normalizeEscapes_inj (h : Quotable safe plain) :
    normalizeEscapes safe plain s = normalizeEscapes safe plain t ↔
      symbols safe plain s = symbols safe plain t := by
  constructor
  · intro heq
    rw [normalizeEscapes_eq, normalizeEscapes_eq] at heq
    rw [← h.symbols_spelling (h.settled s), heq, h.symbols_spelling (h.settled t)]
  · intro heq
    rw [normalizeEscapes_eq, normalizeEscapes_eq, heq]

theorem Quotable.normalizeEscapes_append (h : Quotable safe plain) {sep : Char} (hsafe : safe sep)
    (hsep : hexValue sep = none) (s t : List Char) :
    normalizeEscapes safe plain (s ++ sep :: t) =
      normalizeEscapes safe plain s ++ sep :: normalizeEscapes safe plain t := by
  have hself : symbolOf safe (UInt8.ofNat sep.toNat) = .raw sep := by
    unfold symbolOf
    rw [charOf_ofNat (h.ascii sep hsafe), if_pos hsafe]
  rw [normalizeEscapes_eq, symbols_append hsep, symbols_raw (h.ne_percent hsafe),
    utf8EncodeChar_ascii (h.ascii sep hsafe), map_singleton, hself, flatMap_append,
    singleton_append, flatMap_cons, normalizeEscapes_eq s, normalizeEscapes_eq t]
  rfl

theorem raw_of_mem_symbols (h : Quotable safe plain) (hc : .raw c ∈ symbols safe plain s) :
    c ∈ s ∨ plain c := by
  have hquoted : ∀ d : Char, .raw c ∈ (String.utf8EncodeChar d).map (symbolOf safe) → c = d := by
    intro d hd
    obtain ⟨byte, hbyte, hraw⟩ := mem_map.mp hd
    unfold symbolOf at hraw
    split_ifs at hraw with hsafe
    have hcode : charOf byte = c := Symbol.raw.inj hraw
    by_cases hascii : isAscii d
    · rw [utf8EncodeChar_ascii hascii, mem_singleton] at hbyte
      rw [← hcode, hbyte, charOf_ofNat hascii]
    · have hhigh := utf8EncodeChar_high (eq_false_of_ne_true hascii) byte hbyte
      have hlow : (charOf byte).toNat < 128 := of_decide_eq_true (h.ascii _ hsafe)
      rw [toNat_charOf] at hlow
      omega
  induction s using symbols.induct with
  | case1 a b rest byte hbyte ih =>
    rw [symbols, hbyte] at hc
    rcases mem_cons.mp hc with hfirst | hrest
    · unfold symbolOf at hfirst
      split_ifs at hfirst with hplain
      rw [Symbol.raw.inj hfirst]
      exact Or.inr hplain
    · exact (ih hrest).imp_left fun hmem => by simp [hmem]
  | case2 a b rest hnone ih =>
    rw [symbols, hnone] at hc
    rcases mem_append.mp hc with hfirst | hrest
    · exact Or.inl (hquoted _ hfirst ▸ mem_cons_self ..)
    · exact (ih hrest).imp_left (mem_cons_of_mem _)
  | case3 d rest hnot ih =>
    rw [symbols] at hc
    · rcases mem_append.mp hc with hfirst | hrest
      · exact Or.inl (hquoted _ hfirst ▸ mem_cons_self ..)
      · exact (ih hrest).imp_left (mem_cons_of_mem _)
    · exact hnot
  | case4 => cases hc

theorem mem_normalizeEscapes (h : Quotable safe plain) (hc : c ∈ normalizeEscapes safe plain s) :
    safe c ∧ (c ∈ s ∨ plain c) ∨ c = '%' ∨ c ∈ hexDigits := by
  rw [normalizeEscapes_eq] at hc
  obtain ⟨x, hx, hc⟩ := mem_flatMap.mp hc
  have hsettled := h.settled s x hx
  cases x with
  | raw b =>
    obtain rfl := mem_singleton.mp hc
    exact Or.inl ⟨hsettled, raw_of_mem_symbols h hx⟩
  | escaped byte => exact Or.inr (mem_escape hc)

end

end OmniSense.Library.Percent
