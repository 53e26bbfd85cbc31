import OmniSense.Library.Words
import OmniSense.Schema.Migrator
import Mathlib.Data.List.TakeWhile

/-! The lexical grammar of version files, apart from the scanner: tokens, how a text is made of them,
and what it means to leave a quote or a comment open. -/

namespace OmniSense.Schema

open Library List Option

/-! ## The grammar -/

inductive Token
  | plain (char : Char)
  | quoted (quote : Char) (body : List Char)
  | lineComment (body : List Char)
  | blockComment (body : List Char)
  | semicolon
  deriving DecidableEq

inductive Escaped (quote : Char) : List Char → Prop
  | nil : Escaped quote []
  | char {c : Char} {body : List Char} (hquote : c ≠ quote) (hescape : c ≠ '\x5c')
      (hbody : Escaped quote body) : Escaped quote (c :: body)
  | escape {c : Char} {body : List Char} (hbody : Escaped quote body) :
      Escaped quote ('\x5c' :: c :: body)

namespace Token

def text : Token → List Char
  | plain char => [char]
  | quoted quote body => quote :: (body ++ [quote])
  | lineComment body => '/' :: '/' :: body
  | blockComment body => '/' :: '*' :: (body ++ ['*', '/'])
  | semicolon => [';']

/-- The token before the rest of the text: a slash starts no comment, a line comment ends with its
line, a quoted span and a block comment where they are first closed. -/
def Ok : Token → List Char → Prop
  | plain char, rest =>
    char ∉ QUOTES ∧ char ≠ ';' ∧
      (char = '/' → rest.head? ≠ some '/' ∧ rest.head? ≠ some '*')
  | quoted quote body, _ => quote ∈ QUOTES ∧ Escaped quote body
  | lineComment body, rest => '\n' ∉ body ∧ ∀ c ∈ rest.head?, c = '\n'
  | blockComment body, _ => ¬['*', '/'] <:+: body
  | semicolon, _ => True

def isComment : Token → Bool
  | lineComment _ | blockComment _ => true
  | _ => false

def isBlank : Token → Bool
  | plain char => isSpace char
  | _ => false

def isSolid : Token → Bool
  | plain char => !isSpace char
  | quoted _ _ => true
  | _ => false

end Token

def Reads (input : List Char) (tokens : List Token) : Prop :=
  input = spell Token.text tokens ∧ Lexed Token.text Token.Ok tokens []

def Open (tail : List Char) : Prop :=
  (∃ quote ∈ QUOTES, ∃ behind, tail = quote :: behind ∧
    ∀ body rest, Escaped quote body → behind ≠ body ++ quote :: rest) ∨
  ∃ behind, tail = '/' :: '*' :: behind ∧ ¬['*', '/'] <:+: behind

def Unterminated (input : List Char) : Prop :=
  ∃ tokens tail, input = spell Token.text tokens ++ tail ∧ Lexed Token.text Token.Ok tokens tail ∧
    Open tail

/-! ## The grammar, read -/

@[grind =] def closing (quote : Char) : List Char → Option (List Char × List Char)
  | [] => none
  | char :: rest =>
    if char = quote then some ([], rest)
    else if char = '\x5c' then
      match rest with
      | [] => none
      | escaped :: rest => (closing quote rest).map fun p => (char :: escaped :: p.1, p.2)
    else (closing quote rest).map fun p => (char :: p.1, p.2)

@[grind =] def closingComment : List Char → Option (List Char × List Char)
  | '*' :: '/' :: rest => some ([], rest)
  | char :: rest => (closingComment rest).map fun p => (char :: p.1, p.2)
  | [] => none

def nextToken : List Char → Option (Token × List Char)
  | [] => none
  | char :: rest =>
    if char ∈ QUOTES then (closing char rest).map fun p => (.quoted char p.1, p.2)
    else if char = '/' ∧ rest.head? = some '/' then
      some (.lineComment (rest.tail.takeWhile (· ≠ '\n')), rest.tail.dropWhile (· ≠ '\n'))
    else if char = '/' ∧ rest.head? = some '*' then
      (closingComment rest.tail).map fun p => (.blockComment p.1, p.2)
    else if char = ';' then some (.semicolon, rest)
    else some (.plain char, rest)

variable {quote : Char} {input : List Char}

theorem quotes_no_escape (h : quote ∈ QUOTES) : quote ≠ '\x5c' := by
  rintro rfl
  revert h
  decide

theorem quotes_no_slash (h : quote ∈ QUOTES) : quote ≠ '/' := by
  rintro rfl
  revert h
  decide

theorem closing_complete (hquote : quote ≠ '\x5c') {body : List Char}
    (h : Escaped quote body) (rest : List Char) :
    closing quote (body ++ quote :: rest) = some (body, rest) := by
  induction h with
  | nil =>
    rw [nil_append, closing.eq_def]
    exact if_pos rfl
  | char hne hescape _ ih =>
    rw [cons_append, closing.eq_def]
    dsimp only
    rw [if_neg hne, if_neg hescape, ih]
    rfl
  | escape _ ih =>
    rw [cons_append, cons_append, closing.eq_def]
    dsimp only
    rw [if_neg (Ne.symm hquote), if_pos rfl, ih]
    rfl

theorem closing_sound {input body rest : List Char} (h : closing quote input = some (body, rest)) :
    input = body ++ quote :: rest ∧ Escaped quote body := by
  fun_induction closing quote input generalizing body with
  | case1 => cases h
  | case2 rest' =>
    obtain ⟨rfl, rfl⟩ := Prod.mk.inj (Option.some.inj h)
    exact ⟨rfl, .nil⟩
  | case3 => cases h
  | case4 hne escaped rest' ih =>
    obtain ⟨⟨body', behind⟩, hclosing, heq⟩ := map_eq_some_iff.mp h
    obtain ⟨rfl, rfl⟩ := Prod.mk.inj heq
    obtain ⟨rfl, hbody⟩ := ih hclosing
    exact ⟨rfl, .escape hbody⟩
  | case5 char rest' hne hescape ih =>
    obtain ⟨⟨body', behind⟩, hclosing, heq⟩ := map_eq_some_iff.mp h
    obtain ⟨rfl, rfl⟩ := Prod.mk.inj heq
    obtain ⟨rfl, hbody⟩ := ih hclosing
    exact ⟨rfl, .char hne hescape hbody⟩

theorem closingComment_complete {body : List Char} (h : ¬['*', '/'] <:+: body) (rest : List Char) :
    closingComment (body ++ '*' :: '/' :: rest) = some (body, rest) := by
  induction body with
  | nil => rfl
  | cons char body ih =>
    rw [infix_cons_iff, not_or] at h
    rw [cons_append, closingComment, ih h.2]
    · rfl
    · intro behind hchar hbehind
      cases body with
      | nil => cases hbehind
      | cons second body =>
        obtain ⟨rfl, -⟩ := List.cons.inj hbehind
        exact h.1 ⟨body, by rw [hchar]; rfl⟩

theorem closingComment_sound {input body rest : List Char}
    (h : closingComment input = some (body, rest)) :
    input = body ++ '*' :: '/' :: rest ∧ ¬['*', '/'] <:+: body := by
  fun_induction closingComment input generalizing body with
  | case1 behind =>
    obtain ⟨rfl, rfl⟩ := Prod.mk.inj (Option.some.inj h)
    exact ⟨rfl, fun hinside => nomatch infix_nil.mp hinside⟩
  | case2 char rest' hnot ih =>
    obtain ⟨⟨body', behind⟩, hclosing, heq⟩ := map_eq_some_iff.mp h
    obtain ⟨rfl, rfl⟩ := Prod.mk.inj heq
    obtain ⟨rfl, hbody⟩ := ih hclosing
    refine ⟨rfl, ?_⟩
    rw [infix_cons_iff, not_or]
    refine ⟨?_, hbody⟩
    rintro ⟨tail, htail⟩
    obtain ⟨rfl, rfl⟩ := List.cons.inj htail
    exact hnot _ rfl rfl
  | case3 => cases h

theorem line_ends {body rest : List Char} (hbody : '\n' ∉ body)
    (hrest : ∀ c ∈ rest.head?, c = '\n') :
    (body ++ rest).takeWhile (· ≠ '\n') = body ∧
      (body ++ rest).dropWhile (· ≠ '\n') = rest := by
  have hall : ∀ c ∈ body, decide (c ≠ '\n') = true := by
    intro c hc
    exact decide_eq_true fun heq => hbody (heq ▸ hc)
  rw [takeWhile_append_of_pos hall, dropWhile_append_of_pos hall]
  cases rest with
  | nil => exact ⟨append_nil _, rfl⟩
  | cons c rest =>
    obtain rfl := hrest c rfl
    exact ⟨append_nil _, rfl⟩

theorem takeWhile_line (l : List Char) : '\n' ∉ l.takeWhile (· ≠ '\n') := by
  intro h
  have hne := mem_takeWhile_imp h
  exact of_decide_eq_true hne rfl

theorem dropWhile_line (l : List Char) : ∀ c ∈ (l.dropWhile (· ≠ '\n')).head?, c = '\n' := by
  intro c hc
  have hnot := List.head?_dropWhile_not (fun c : Char => decide (c ≠ '\n')) l
  rw [mem_def.mp hc] at hnot
  exact not_not.mp (of_decide_eq_false (by simpa using hnot))

theorem reader : Reader Token.text Token.Ok nextToken where
  spelled := fun t => by cases t <;> exact cons_ne_nil _ _
  complete := by
    intro t rest h
    cases t with
    | plain char =>
      obtain ⟨hquote, hsemicolon, hslash⟩ := h
      change nextToken (char :: rest) = _
      rw [nextToken, if_neg hquote, if_neg fun hc => (hslash hc.1).1 hc.2,
        if_neg fun hc => (hslash hc.1).2 hc.2, if_neg hsemicolon]
    | quoted quote body =>
      obtain ⟨hquote, hbody⟩ := h
      change nextToken (quote :: (body ++ [quote] ++ rest)) = _
      rw [nextToken, if_pos hquote, append_assoc]
      change (closing quote (body ++ quote :: rest)).map _ = _
      rw [closing_complete (quotes_no_escape hquote) hbody]
      rfl
    | lineComment body =>
      obtain ⟨htake, hdrop⟩ := line_ends h.1 h.2
      change nextToken ('/' :: '/' :: (body ++ rest)) = _
      rw [nextToken, if_neg (by decide), if_pos ⟨rfl, rfl⟩, tail_cons, htake, hdrop]
    | blockComment body =>
      change nextToken ('/' :: '*' :: (body ++ ['*', '/'] ++ rest)) = _
      rw [nextToken, if_neg (by decide), if_neg (by simp), if_pos ⟨rfl, rfl⟩, append_assoc]
      change (closingComment (body ++ '*' :: '/' :: rest)).map _ = _
      rw [closingComment_complete h]
      rfl
    | semicolon =>
      change nextToken (';' :: rest) = _
      rw [nextToken, if_neg (by decide), if_neg (by simp), if_neg (by simp), if_pos rfl]
  sound := by
    intro input t rest h
    cases input with
    | nil => cases h
    | cons char behind =>
      rw [nextToken] at h
      split_ifs at h with hquote hline hblock hsemicolon
      · obtain ⟨⟨body, rest'⟩, hclosing, heq⟩ := map_eq_some_iff.mp h
        obtain ⟨rfl, rfl⟩ := Prod.mk.inj heq
        obtain ⟨rfl, hbody⟩ := closing_sound hclosing
        exact ⟨by simp [Token.text], hquote, hbody⟩
      · obtain ⟨rfl, hhead⟩ := hline
        obtain ⟨tail, rfl⟩ := List.head?_eq_some_iff.mp hhead
        obtain ⟨rfl, rfl⟩ := Prod.mk.inj (Option.some.inj h)
        refine ⟨?_, takeWhile_line tail, dropWhile_line tail⟩
        change '/' :: '/' :: tail = '/' :: '/' :: (tail.takeWhile _ ++ tail.dropWhile _)
        rw [takeWhile_append_dropWhile]
      · obtain ⟨rfl, hhead⟩ := hblock
        obtain ⟨tail, rfl⟩ := List.head?_eq_some_iff.mp hhead
        obtain ⟨⟨body, rest'⟩, hclosing, heq⟩ := map_eq_some_iff.mp h
        obtain ⟨rfl, rfl⟩ := Prod.mk.inj heq
        obtain ⟨htail, hbody⟩ := closingComment_sound hclosing
        rw [tail_cons] at htail
        exact ⟨by simp [Token.text, htail], hbody⟩
      · obtain ⟨rfl, rfl⟩ := Prod.mk.inj (Option.some.inj h)
        exact ⟨by rw [hsemicolon]; rfl, trivial⟩
      · obtain ⟨rfl, rfl⟩ := Prod.mk.inj (Option.some.inj h)
        exact ⟨rfl, hquote, hsemicolon, fun hc =>
          ⟨fun hh => hline ⟨hc, hh⟩, fun hh => hblock ⟨hc, hh⟩⟩⟩

theorem closing_none (hquote : quote ≠ '\x5c') : closing quote input = none ↔
      ∀ body rest, Escaped quote body → input ≠ body ++ quote :: rest := by
  constructor
  · rintro h body rest hbody rfl
    rw [closing_complete hquote hbody] at h
    cases h
  · intro h
    cases hclosing : closing quote input with
    | none => rfl
    | some p =>
      obtain ⟨heq, hbody⟩ := closing_sound hclosing
      exact absurd heq (h _ _ hbody)

theorem closingComment_none : closingComment input = none ↔ ¬['*', '/'] <:+: input := by
  constructor
  · fun_induction closingComment input with
    | case1 => exact fun h => nomatch h
    | case2 char rest hnot ih =>
      intro h
      rw [infix_cons_iff, not_or]
      refine ⟨?_, ih (map_eq_none_iff.mp h)⟩
      rintro ⟨tail, htail⟩
      obtain ⟨rfl, rfl⟩ := List.cons.inj htail
      exact hnot _ rfl rfl
    | case3 => exact fun _ h => nomatch infix_nil.mp h
  · intro h
    cases hclosing : closingComment input with
    | none => rfl
    | some p =>
      obtain ⟨heq, -⟩ := closingComment_sound hclosing
      exact absurd ⟨p.1, p.2, by simp [heq]⟩ h

theorem not_open {char : Char} {rest : List Char} (hquote : char ∉ QUOTES)
    (hblock : ¬(char = '/' ∧ rest.head? = some '*')) : ¬Open (char :: rest) := by
  rintro (⟨quote, hq, behind, heq, -⟩ | ⟨behind, heq, -⟩)
  · exact hquote ((List.cons.inj heq).1 ▸ hq)
  · obtain ⟨rfl, rfl⟩ := List.cons.inj heq
    exact hblock ⟨rfl, rfl⟩

theorem open_iff {tail : List Char} (hne : tail ≠ []) : nextToken tail = none ↔ Open tail := by
  obtain ⟨char, rest, rfl⟩ := exists_cons_of_ne_nil hne
  rw [nextToken]
  split_ifs with hquote hline hblock hsemicolon
  · rw [map_eq_none_iff, closing_none (quotes_no_escape hquote)]
    constructor
    · exact fun h => .inl ⟨char, hquote, rest, rfl, h⟩
    · rintro (⟨quote, -, behind, heq, h⟩ | ⟨behind, heq, -⟩)
      · obtain ⟨rfl, rfl⟩ := List.cons.inj heq
        exact h
      · exact absurd (List.cons.inj heq).1 (quotes_no_slash hquote)
  · refine iff_of_false (fun h => nomatch h) (not_open hquote fun h => ?_)
    rw [hline.2] at h
    exact absurd h.2 (by decide)
  · obtain ⟨rfl, hhead⟩ := hblock
    obtain ⟨tail, rfl⟩ := List.head?_eq_some_iff.mp hhead
    rw [map_eq_none_iff, tail_cons, closingComment_none]
    constructor
    · exact fun h => .inr ⟨tail, rfl, h⟩
    · rintro (⟨quote, hq, behind, heq, -⟩ | ⟨behind, heq, h⟩)
      · exact absurd ((List.cons.inj heq).1 ▸ hq) hquote
      · obtain ⟨-, hrest⟩ := List.cons.inj heq
        obtain ⟨-, rfl⟩ := List.cons.inj hrest
        exact h
  · exact iff_of_false (fun h => nomatch h) (not_open hquote hblock)
  · exact iff_of_false (fun h => nomatch h) (not_open hquote hblock)

theorem reads_unique {tokens tokens' : List Token} (h : Reads input tokens)
    (h' : Reads input tokens') : tokens = tokens' :=
  (reader.unique h.2 h'.2 reader.at_end reader.at_end (by rw [← h.1, ← h'.1])).1

theorem reads_or_unterminated (input : List Char) :
    (∃ tokens, Reads input tokens) ∨ Unterminated input := by
  obtain ⟨tokens, rest, rfl, hlexed, hnext⟩ := reader.read input
  by_cases hrest : rest = []
  · subst hrest
    exact .inl ⟨tokens, append_nil _, hlexed⟩
  · exact .inr ⟨tokens, rest, rfl, hlexed, (open_iff hrest).mp hnext⟩

end OmniSense.Schema
