import OmniSense.Schema.Tokens

/-! The scanner of `split_statements` over the tokens of a text: what one token does to the statement
under way, and what is rejected. -/

namespace OmniSense.Schema

open Library List

/-! ## The scanner -/

def scan (quote : Option Char) (current : List Char) (statements : List String)
    (text : List Char) : Except MigrationError (List String) :=
  splitFrom text.length quote current statements text

section

variable {quote : Option Char} {current : List Char} {statements : List String}
  {text rest : List Char}

theorem afterBlockComment_eq (text : List Char) :
    afterBlockComment text = (closingComment text).map Prod.snd := by
  fun_induction closingComment text with
  | case1 => rfl
  | case2 char rest hnot ih =>
    rw [afterBlockComment, ih, Option.map_map]
    · rfl
    · exact hnot
  | case3 => rfl

theorem closingComment_length {body : List Char} (h : closingComment text = some (body, rest)) :
    rest.length < text.length := by
  obtain ⟨rfl, -⟩ := closingComment_sound h
  rw [length_append, length_cons, length_cons]
  omega

theorem splitFrom_unescaped {fuel : ℕ} {char q : Char} (h : char = '\x5c' → rest = []) :
    splitFrom (fuel + 1) (some q) current statements (char :: rest) =
      splitFrom fuel (if char = q then none else some q) (current ++ [char]) statements rest := by
  by_cases hc : char = '\x5c'
  · obtain rfl := h hc
    subst hc
    rfl
  · rw [splitFrom]
    exact fun _ _ h _ => hc h

theorem splitFrom_rounds {fuel fuel' : ℕ} (h : text.length ≤ fuel) (h' : text.length ≤ fuel') :
    splitFrom fuel quote current statements text =
      splitFrom fuel' quote current statements text := by
  induction fuel generalizing fuel' quote current statements text with
  | zero =>
    obtain rfl := length_eq_zero_iff.mp (Nat.le_zero.mp h)
    cases fuel' <;> cases quote <;> rfl
  | succ fuel ih =>
    cases fuel' with
    | zero =>
      obtain rfl := length_eq_zero_iff.mp (Nat.le_zero.mp h')
      cases quote <;> rfl
    | succ fuel' =>
      cases text with
      | nil => cases quote <;> rfl
      | cons char rest =>
        rw [length_cons] at h h'
        cases quote with
        | some q =>
          by_cases hescape : char = '\x5c' → rest = []
          · rw [splitFrom_unescaped hescape, splitFrom_unescaped hescape]
            exact ih (by omega) (by omega)
          · rw [Classical.not_imp] at hescape
            obtain ⟨rfl, hne⟩ := hescape
            obtain ⟨escaped, rest, rfl⟩ := exists_cons_of_ne_nil hne
            rw [length_cons] at h h'
            exact ih (by omega) (by omega)
        | none =>
          have hline := length_dropWhile_le (fun c : Char => decide (c ≠ '\n')) rest
          rw [splitFrom, splitFrom, afterBlockComment_eq]
          split_ifs
          · exact ih (by omega) (by omega)
          · exact ih (by omega) (by omega)
          · cases hclosing : closingComment rest.tail with
            | none => rfl
            | some p =>
              have hlt := closingComment_length hclosing
              rw [length_tail] at hlt
              exact ih (by omega) (by omega)
          · exact ih (by omega) (by omega)
          · exact ih (by omega) (by omega)

theorem scan_eq {fuel : ℕ} (h : text.length ≤ fuel) :
    splitFrom fuel quote current statements text = scan quote current statements text :=
  splitFrom_rounds h le_rfl

/-! ## One token -/

theorem scan_body {q : Char} (hq : q ≠ '\x5c') {body : List Char} (hbody : Escaped q body)
    (current : List Char) : scan (some q) current statements (body ++ q :: rest) =
      scan none (current ++ body ++ [q]) statements rest := by
  induction hbody generalizing current with
  | nil =>
    rw [scan, nil_append, length_cons, splitFrom_unescaped fun h => absurd h hq,
      if_pos rfl, scan_eq le_rfl, append_nil]
  | @char c body hne hescape _ ih =>
    rw [scan, cons_append, length_cons, splitFrom_unescaped fun h => absurd h hescape,
      if_neg hne, scan_eq le_rfl, ih, append_assoc current, singleton_append]
  | @escape c body _ ih =>
    change splitFrom (List.length (c :: (body ++ q :: rest))) (some q) (current ++ ['\x5c', c])
      statements (body ++ q :: rest) = _
    have hle : (body ++ q :: rest).length ≤ (c :: (body ++ q :: rest)).length := Nat.le_succ _
    rw [scan_eq hle, ih, append_assoc current, append_assoc current,
      append_assoc current]
    rfl

def Token.kept (t : Token) : List Char := if t.isComment then [] else t.text

def afterToken (s : List Char × List String) (t : Token) : List Char × List String :=
  if t = .semicolon then ([], s.2 ++ flush s.1) else (s.1 ++ t.kept, s.2)

theorem scan_token {t : Token} (h : t.Ok rest) (s : List Char × List String) :
    scan none s.1 s.2 (t.text ++ rest) =
      scan none (afterToken s t).1 (afterToken s t).2 rest := by
  obtain ⟨current, statements⟩ := s
  cases t with
  | plain char =>
    obtain ⟨hquote, hsemicolon, hslash⟩ := h
    change scan none current statements (char :: rest) = scan none (current ++ [char]) statements rest
    rw [scan, length_cons, splitFrom, if_neg hquote, if_neg fun hc => (hslash hc.1).1 hc.2,
      if_neg fun hc => (hslash hc.1).2 hc.2, if_neg hsemicolon]
    rfl
  | quoted q body =>
    obtain ⟨hquote, hbody⟩ := h
    change splitFrom ((body ++ [q] ++ rest).length + 1) none current statements
      (q :: (body ++ [q] ++ rest)) = scan none (current ++ q :: (body ++ [q])) statements rest
    rw [splitFrom, if_pos hquote, append_assoc body, singleton_append,
      scan_eq le_rfl, scan_body (quotes_no_escape hquote) hbody]
    simp only [append_assoc, cons_append, nil_append]
  | lineComment body =>
    have hdrop := (line_ends h.1 h.2).2
    change splitFrom (('/' :: (body ++ rest)).length + 1) none current statements
      ('/' :: '/' :: (body ++ rest)) = scan none (current ++ []) statements rest
    rw [splitFrom, if_neg (by decide), if_pos ⟨rfl, rfl⟩, dropWhile_cons_of_pos (by decide),
      hdrop, append_nil]
    refine scan_eq ?_
    rw [length_cons, length_append]
    omega
  | blockComment body =>
    change splitFrom (('*' :: (body ++ ['*', '/'] ++ rest)).length + 1) none current statements
      ('/' :: '*' :: (body ++ ['*', '/'] ++ rest)) = scan none (current ++ []) statements rest
    have hclosing : afterBlockComment (body ++ ['*', '/'] ++ rest) = some rest := by
      rw [afterBlockComment_eq, append_assoc]
      exact congrArg _ (closingComment_complete h rest)
    rw [splitFrom, if_neg (by decide), if_neg (by simp), if_pos ⟨rfl, rfl⟩, tail_cons,
      hclosing, append_nil]
    refine scan_eq ?_
    rw [length_cons, length_append]
    omega
  | semicolon =>
    change splitFrom (rest.length + 1) none current statements (';' :: rest) = _
    rw [splitFrom, if_neg (by decide), if_neg (by simp), if_neg (by simp), if_pos rfl]
    rfl

theorem scan_tokens {tokens : List Token} (h : Lexed Token.text Token.Ok tokens rest)
    (s : List Char × List String) :
    scan none s.1 s.2 (spell Token.text tokens ++ rest) =
      scan none (tokens.foldl afterToken s).1 (tokens.foldl afterToken s).2 rest := by
  induction tokens generalizing s with
  | nil => rfl
  | cons t tokens ih =>
    rw [spell_cons, append_assoc, scan_token h.1, ih h.2]
    rfl

theorem scan_unclosed {q : Char}
    (h : ∀ body rest, Escaped q body → text ≠ body ++ q :: rest) :
    scan (some q) current statements text = .error (.unterminatedLiteral q) := by
  induction hn : text.length using Nat.strongRecOn generalizing text current with
  | _ n ih =>
    cases text with
    | nil => rfl
    | cons char rest =>
      have hne : char ≠ q := fun heq => h [] rest .nil (by rw [heq]; rfl)
      rw [length_cons] at hn
      rw [scan, length_cons]
      by_cases hescape : char = '\x5c' → rest = []
      · rw [splitFrom_unescaped hescape, if_neg hne, scan_eq le_rfl]
        by_cases hc : char = '\x5c'
        · rw [hescape hc]
          rfl
        · refine ih rest.length (by omega) (fun body behind hbody heq => ?_) rfl
          exact h (char :: body) behind (.char hne hc hbody) (by rw [heq]; rfl)
      · rw [Classical.not_imp] at hescape
        obtain ⟨rfl, hrest⟩ := hescape
        obtain ⟨escaped, rest, rfl⟩ := exists_cons_of_ne_nil hrest
        rw [length_cons] at hn
        change splitFrom (rest.length + 1) (some q) (current ++ ['\x5c', escaped]) statements rest = _
        rw [scan_eq (Nat.le_succ _)]
        refine ih rest.length (by omega) (fun body behind hbody heq => ?_) rfl
        exact h ('\x5c' :: escaped :: body) behind (.escape hbody) (by rw [heq]; rfl)

theorem scan_open (h : Open text) : ∃ e, scan none current statements text = .error e := by
  rcases h with ⟨q, hquote, behind, rfl, h⟩ | ⟨behind, rfl, h⟩
  · refine ⟨.unterminatedLiteral q, ?_⟩
    rw [scan, length_cons, splitFrom, if_pos hquote, scan_eq le_rfl]
    exact scan_unclosed h
  · refine ⟨.unterminatedComment, ?_⟩
    have hclosing : afterBlockComment behind = none := by
      rw [afterBlockComment_eq, closingComment_none.mpr h]
      rfl
    rw [scan, length_cons, splitFrom, if_neg (by decide), if_neg (by simp),
      if_pos ⟨rfl, rfl⟩, tail_cons, hclosing]

end

/-! ## The statements -/

@[grind =] def statementsFrom (pending : List Token) : List Token → List (List Token)
  | [] => [pending]
  | .semicolon :: rest => pending :: statementsFrom [] rest
  | t :: rest => statementsFrom (pending ++ [t]) rest

def statementsOf (tokens : List Token) : List (List Token) := statementsFrom [] tokens

theorem foldl_afterToken (tokens pending : List Token) (statements : List String) :
    (tokens.foldl afterToken (pending.flatMap Token.kept, statements)).2 ++
        flush (tokens.foldl afterToken (pending.flatMap Token.kept, statements)).1 =
      statements ++ (statementsFrom pending tokens).flatMap fun s => flush (s.flatMap Token.kept) := by
  induction tokens generalizing pending statements with
  | nil => simp [statementsFrom]
  | cons t tokens ih =>
    rw [foldl_cons]
    by_cases ht : t = .semicolon
    · subst ht
      change (tokens.foldl afterToken ([], statements ++ flush (pending.flatMap Token.kept))).2 ++ _ =
        _ ++ (pending :: statementsFrom [] tokens).flatMap _
      rw [flatMap_cons, ← append_assoc]
      exact ih [] _
    · rw [afterToken, if_neg ht, statementsFrom]
      · have hpending : pending.flatMap Token.kept ++ t.kept =
            (pending ++ [t]).flatMap Token.kept := by
          rw [flatMap_append, flatMap_singleton]
        rw [hpending]
        exact ih _ _
      · exact ht

theorem split_reads {text : String} {tokens : List Token} (h : Reads text.toList tokens) :
    splitStatements text =
      .ok ((statementsOf tokens).flatMap fun s => flush (s.flatMap Token.kept)) := by
  have hscan := scan_tokens h.2 ([], [])
  rw [append_nil, ← h.1] at hscan
  have hlength : text.length = text.toList.length := String.length_toList.symm
  have hsplit := foldl_afterToken tokens [] []
  rw [splitStatements, scan_eq hlength.ge, hscan]
  exact congrArg Except.ok hsplit

theorem split_unterminated {text : String} (h : Unterminated text.toList) :
    ∃ e, splitStatements text = .error e := by
  obtain ⟨tokens, tail, heq, hlexed, hopen⟩ := h
  have hlength : text.length = text.toList.length := String.length_toList.symm
  rw [splitStatements, scan_eq hlength.ge, heq, scan_tokens hlexed ([], [])]
  exact scan_open hopen

theorem split_rejects (text : String) :
    (∃ e, splitStatements text = .error e) ↔ Unterminated text.toList := by
  refine ⟨fun ⟨e, he⟩ => ?_, split_unterminated⟩
  refine (reads_or_unterminated text.toList).resolve_left ?_
  rintro ⟨tokens, h⟩
  rw [split_reads h] at he
  cases he

end OmniSense.Schema
