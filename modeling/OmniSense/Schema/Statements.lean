import OmniSense.Library.Reflow
import OmniSense.Schema.Scanner
import Mathlib.Data.List.Forall2

/-! `split_statements` against the lexical grammar of version files: what it makes of each statement,
and when dropping the comments leaves the words apart. -/

namespace OmniSense.Schema

open Library List Token

/-! ## The words of a statement -/

/-- The solid tokens, each with whether it stands right behind the one before it: comments are
whitespace here. -/
@[grind =] def wordsFrom : Bool → List Token → List (Token × Bool)
  | _, [] => []
  | joined, t :: rest =>
    if t.isSolid then (t, joined) :: wordsFrom true rest else wordsFrom false rest

variable (tokens : List Token)

def words : List (Token × Bool) := wordsFrom false tokens

def uncommented : List Token := tokens.filter fun t => !t.isComment

variable (tokens : List Token) {t : Token}

theorem uncommented_comment (h : t.isComment = true) (rest : List Token) :
    uncommented (t :: rest) = uncommented rest :=
  filter_cons_of_neg (by simp [h])

theorem uncommented_cons (h : t.isComment = false) (rest : List Token) :
    uncommented (t :: rest) = t :: uncommented rest :=
  filter_cons_of_pos (by simp [h])

def Joins : Prop :=
  ∃ a comments b, a :: (comments ++ [b]) <:+: tokens ∧ a.isSolid ∧ comments ≠ [] ∧
    (∀ c ∈ comments, c.isComment) ∧ b.isSolid

def LeadsSolid : List Token → Prop
  | [] => False
  | t :: rest => t.isSolid ∨ t.isComment ∧ LeadsSolid rest

def JoinsBehind : List Token → Prop
  | [] => False
  | t :: rest => t.isComment ∧ LeadsSolid rest

theorem leadsSolid_iff {tokens : List Token} : LeadsSolid tokens ↔
    ∃ comments b, comments ++ [b] <+: tokens ∧ (∀ c ∈ comments, c.isComment) ∧ b.isSolid := by
  induction tokens with
  | nil =>
    refine iff_of_false id ?_
    rintro ⟨comments, b, hstart, -⟩
    exact absurd (prefix_nil.mp hstart) (by simp)
  | cons t rest ih =>
    rw [LeadsSolid, ih]
    constructor
    · rintro (hsolid | ⟨hcomment, comments, b, ⟨tail, rfl⟩, hall, hb⟩)
      · exact ⟨[], t, ⟨rest, rfl⟩, forall_mem_nil _, hsolid⟩
      · exact ⟨t :: comments, b, ⟨tail, rfl⟩, forall_mem_cons.mpr ⟨hcomment, hall⟩, hb⟩
    · rintro ⟨comments, b, ⟨tail, htail⟩, hall, hb⟩
      cases comments with
      | nil =>
        obtain ⟨rfl, -⟩ := List.cons.inj htail
        exact .inl hb
      | cons c comments =>
        obtain ⟨rfl, rfl⟩ := List.cons.inj htail
        obtain ⟨hc, hall⟩ := forall_mem_cons.mp hall
        exact .inr ⟨hc, comments, b, ⟨tail, rfl⟩, hall, hb⟩

theorem joinsBehind_iff {tokens : List Token} : JoinsBehind tokens ↔
    ∃ comments b, comments ++ [b] <+: tokens ∧ comments ≠ [] ∧
      (∀ c ∈ comments, c.isComment) ∧ b.isSolid := by
  cases tokens with
  | nil =>
    refine iff_of_false id ?_
    rintro ⟨comments, b, hstart, -⟩
    exact absurd (prefix_nil.mp hstart) (by simp)
  | cons t rest =>
    rw [JoinsBehind, leadsSolid_iff]
    constructor
    · rintro ⟨hcomment, comments, b, ⟨tail, rfl⟩, hall, hb⟩
      exact ⟨t :: comments, b, ⟨tail, rfl⟩, cons_ne_nil _ _,
        forall_mem_cons.mpr ⟨hcomment, hall⟩, hb⟩
    · rintro ⟨comments, b, ⟨tail, htail⟩, hne, hall, hb⟩
      obtain ⟨c, comments, rfl⟩ := exists_cons_of_ne_nil hne
      obtain ⟨rfl, rfl⟩ := List.cons.inj htail
      obtain ⟨hc, hall⟩ := forall_mem_cons.mp hall
      exact ⟨hc, comments, b, ⟨tail, rfl⟩, hall, hb⟩

theorem joins_cons {rest : List Token} :
    Joins (t :: rest) ↔ (t.isSolid ∧ JoinsBehind rest) ∨ Joins rest := by
  rw [joinsBehind_iff]
  constructor
  · rintro ⟨a, comments, b, hinside, ha, hne, hall, hb⟩
    rcases infix_cons_iff.mp hinside with hstart | hinside
    · obtain ⟨rfl, hrest⟩ := cons_prefix_cons.mp hstart
      exact .inl ⟨ha, comments, b, hrest, hne, hall, hb⟩
    · exact .inr ⟨a, comments, b, hinside, ha, hne, hall, hb⟩
  · rintro (⟨ht, comments, b, hstart, hne, hall, hb⟩ |
      ⟨a, comments, b, hinside, ha, hne, hall, hb⟩)
    · refine ⟨t, comments, b, ?_, ht, hne, hall, hb⟩
      exact (cons_prefix_cons.mpr ⟨rfl, hstart⟩).isInfix
    · exact ⟨a, comments, b, infix_cons hinside, ha, hne, hall, hb⟩

theorem not_solid_of_comment (h : t.isComment = true) : t.isSolid = false := by
  cases t <;> first | rfl | cases h

theorem wordsFrom_uncommented :
    (wordsFrom false (uncommented tokens) = wordsFrom false tokens ↔ ¬Joins tokens) ∧
    (wordsFrom true (uncommented tokens) = wordsFrom true tokens ↔
      ¬JoinsBehind tokens ∧ ¬Joins tokens) ∧
    (wordsFrom true (uncommented tokens) = wordsFrom false tokens ↔
      ¬LeadsSolid tokens ∧ ¬Joins tokens) := by
  induction tokens with
  | nil =>
    have hnone : ¬Joins [] := by
      rintro ⟨a, comments, b, hinside, -⟩
      cases infix_nil.mp hinside
    exact ⟨iff_of_true rfl hnone, iff_of_true rfl ⟨id, hnone⟩, iff_of_true rfl ⟨id, hnone⟩⟩
  | cons t rest ih =>
    obtain ⟨hopen, hbehind, hsplit⟩ := ih
    rw [joins_cons, JoinsBehind, LeadsSolid]
    cases hcomment : t.isComment with
    | true =>
      -- The comment is whitespace on one side and nothing on the other.
      have hsolid := not_solid_of_comment hcomment
      have hwords : ∀ joined, wordsFrom joined (t :: rest) = wordsFrom false rest :=
        fun _ => if_neg (by simp [hsolid])
      rw [uncommented_comment hcomment, hwords, hwords, hsolid, hopen, hsplit]
      simp
    | false =>
      rw [uncommented_cons hcomment]
      cases hsolid : t.isSolid with
      | true =>
        have hwords : ∀ joined (l : List Token), wordsFrom joined (t :: l) =
            (t, joined) :: wordsFrom true l := fun _ _ => if_pos hsolid
        simp only [hwords, List.cons.injEq, Prod.mk.injEq, true_and, hbehind]
        simp
      | false =>
        have hwords : ∀ joined (l : List Token), wordsFrom joined (t :: l) = wordsFrom false l :=
          fun _ _ => if_neg (by simp [hsolid])
        simp only [hwords, hopen]
        simp

/-! ## What is left of a statement -/

theorem not_solid_of_blank (h : t.isBlank = true) : t.isSolid = false := by
  cases t with
  | plain char => exact congrArg not h
  | quoted quote body => cases h
  | lineComment | blockComment | semicolon => rfl

theorem wordsFrom_concat (h : t.isSolid = false) (joined : Bool) (l : List Token) :
    wordsFrom joined (l ++ [t]) = wordsFrom joined l := by
  induction l generalizing joined with
  | nil => exact if_neg (by simp [h])
  | cons u l ih => rw [cons_append, wordsFrom, wordsFrom, ih, ih]

theorem words_strip : words (stripEnds isBlank tokens) = words tokens := by
  have hfront : ∀ l : List Token, words (l.dropWhile isBlank) = words l := by
    intro l
    induction l with
    | nil => rfl
    | cons t l ih =>
      cases ht : t.isBlank with
      | true =>
        rw [dropWhile_cons_of_pos ht, ih, words, words, wordsFrom,
          if_neg (by simp [not_solid_of_blank ht])]
      | false => rw [dropWhile_cons_of_neg (by simp [ht])]
  have hback : ∀ l : List Token, words (l.rdropWhile isBlank) = words l := by
    intro l
    induction l using List.reverseRecOn with
    | nil => rfl
    | append_singleton l t ih =>
      rw [rdropWhile_concat]
      split_ifs with ht
      · rw [ih]
        exact (wordsFrom_concat (not_solid_of_blank ht) false l).symm
      · rfl
  rw [stripEnds, hback, hfront]

theorem spell_uncommented : tokens.flatMap kept = spell Token.text (uncommented tokens) := by
  induction tokens with
  | nil => rfl
  | cons t rest ih =>
    rw [flatMap_cons, ih, kept]
    cases hcomment : t.isComment with
    | true =>
      rw [uncommented_comment hcomment]
      rfl
    | false =>
      rw [uncommented_cons hcomment, spell_cons]
      rfl

theorem head_uncommented {tokens : List Token} {rest : List Char} (c : Char)
    (hslash : (spell Token.text tokens ++ rest).head? ≠ some '/')
    (h : (spell Token.text tokens ++ rest).head? ≠ some c) :
    (spell Token.text (uncommented tokens) ++ []).head? ≠ some c := by
  cases tokens with
  | nil => exact fun hnone => nomatch hnone
  | cons t tokens =>
    have hhead : ∀ (ts : List Token) (behind : List Char),
        (spell Token.text (t :: ts) ++ behind).head? = t.text.head? := by
      intro ts behind
      rw [spell_cons, append_assoc]
      exact List.head?_append_of_ne_nil _ (reader.spelled t)
    rw [hhead] at hslash h
    have hcomment : t.isComment = false := by
      cases t with
      | lineComment | blockComment => exact absurd rfl hslash
      | _ => rfl
    rw [uncommented_cons hcomment, hhead]
    exact h

theorem lexed_uncommented {tokens : List Token} {rest : List Char}
    (h : Lexed Token.text Token.Ok tokens rest) :
    Lexed Token.text Token.Ok (uncommented tokens) [] := by
  induction tokens with
  | nil => trivial
  | cons t tokens ih =>
    obtain ⟨hok, hlexed⟩ := h
    cases hcomment : t.isComment with
    | true =>
      rw [uncommented_comment hcomment]
      exact ih hlexed
    | false =>
      rw [uncommented_cons hcomment]
      refine ⟨?_, ih hlexed⟩
      cases t with
      | plain char =>
        obtain ⟨hquote, hsemicolon, hslash⟩ := hok
        refine ⟨hquote, hsemicolon, fun hchar => ?_⟩
        obtain ⟨hline, hblock⟩ := hslash hchar
        exact ⟨head_uncommented '/' hline hline, head_uncommented '*' hline hblock⟩
      | quoted quote body => exact hok
      | lineComment | blockComment => cases hcomment
      | semicolon => trivial

theorem toList_strip (l : List Char) : (strip (String.ofList l)).toList = stripEnds isSpace l := by
  rw [strip, String.toList_ofList, String.toList_ofList]
  rfl

theorem quotes_solid {quote : Char} (h : quote ∈ QUOTES) : isSpace quote = false := by
  have hall : QUOTES.all (fun c => !isSpace c) = true := by decide
  simpa using all_eq_true.mp hall quote h

theorem strip_spell {tokens : List Token} (hlexed : Lexed Token.text Token.Ok tokens [])
    (hplain : ∀ t ∈ tokens, t.isComment = false) :
    stripEnds isSpace (spell Token.text tokens) =
      spell Token.text (stripEnds isBlank tokens) := by
  have hblank : ∀ t ∈ tokens, t.isBlank = true → ∀ c ∈ t.text, isSpace c = true := by
    intro t _ ht c hc
    cases t with
    | plain char =>
      obtain rfl := mem_singleton.mp hc
      exact ht
    | _ => cases ht
  have hends : ∀ t ∈ tokens, t.isBlank = false →
      ∃ c, isSpace c = false ∧ t.text.head? = some c ∧ t.text.getLast? = some c := by
    intro t hmem ht
    obtain ⟨behind, hok⟩ := hlexed.mem t hmem
    have hcomment := hplain t hmem
    cases t with
    | plain char => exact ⟨char, ht, rfl, rfl⟩
    | quoted quote body =>
      refine ⟨quote, quotes_solid hok.1, rfl, ?_⟩
      change (quote :: (body ++ [quote])).getLast? = _
      rw [← cons_append, List.getLast?_concat]
    | lineComment | blockComment => cases hcomment
    | semicolon => exact ⟨';', by decide, rfl, rfl⟩
  refine stripEnds_flatMap hblank (fun t ht hb => ?_) fun t ht hb => ?_
  · obtain ⟨c, hc, hhead, -⟩ := hends t ht hb
    exact ⟨c, hhead, hc⟩
  · obtain ⟨c, hc, -, hlast⟩ := hends t ht hb
    exact ⟨c, hlast, hc⟩

/-! ## Against the grammar -/

/-- The text of the statement but for the comments and the blanks at its ends, with the words that
the statement has when comments count as whitespace. -/
structure Renders (result : String) (source : List Token) : Prop where
  verbatim : result = strip (String.ofList (spell Token.text (uncommented source)))
  words : ∃ tokens, Reads result.toList tokens ∧ words tokens = words source

/-- `split_statements` does what the grammar says. -/
structure Implements (text : String) : Prop where
  rejects : (∃ e, splitStatements text = .error e) ↔ Unterminated text.toList
  splits : ∀ tokens, Reads text.toList tokens → ∃ results, splitStatements text = .ok results ∧
    List.Forall₂ Renders results ((statementsOf tokens).filter fun s => s.any Token.isSolid)

section

variable {pending tokens s l : List Token}

theorem statement_inside (h : s ∈ statementsFrom pending tokens) : s <:+: pending ++ tokens := by
  fun_induction statementsFrom pending tokens with
  | case1 pending =>
    rw [mem_singleton.mp h, append_nil]
  | case2 pending rest ih =>
    rcases mem_cons.mp h with rfl | h
    · exact (prefix_append _ _).isInfix
    · exact (ih h).trans ((suffix_cons _ _).trans (suffix_append _ _)).isInfix
  | case3 pending t rest _ ih =>
    have hinside := ih h
    rwa [append_assoc] at hinside

theorem statement_plain (hpending : .semicolon ∉ pending) (h : s ∈ statementsFrom pending tokens) :
    .semicolon ∉ s := by
  fun_induction statementsFrom pending tokens with
  | case1 pending =>
    rw [mem_singleton.mp h]
    exact hpending
  | case2 pending rest ih =>
    rcases mem_cons.mp h with rfl | h
    · exact hpending
    · exact ih not_mem_nil h
  | case3 pending t rest ht ih =>
    refine ih (fun hmem => ?_) h
    rcases mem_append.mp hmem with hmem | hmem
    · exact hpending hmem
    · exact ht (mem_singleton.mp hmem).symm

theorem infix_statement (hplain : .semicolon ∉ l) (h : l <:+: pending ++ tokens) :
    ∃ s ∈ statementsFrom pending tokens, l <:+: s := by
  fun_induction statementsFrom pending tokens with
  | case1 pending =>
    rw [append_nil] at h
    exact ⟨pending, mem_singleton_self _, h⟩
  | case2 pending rest ih =>
    rcases infix_append_cons h hplain with h | h
    · exact ⟨pending, mem_cons_self, h⟩
    · obtain ⟨s, hs, hinside⟩ := ih h
      exact ⟨s, mem_cons_of_mem _ hs, hinside⟩
  | case3 pending t rest _ ih =>
    refine ih ?_
    rwa [append_assoc]

theorem joins_iff : Joins tokens ↔ ∃ s ∈ statementsOf tokens, Joins s := by
  constructor
  · rintro ⟨a, comments, b, hinside, ha, hne, hall, hb⟩
    have hplain : .semicolon ∉ a :: (comments ++ [b]) := by
      intro hmem
      rcases mem_cons.mp hmem with rfl | hmem
      · cases ha
      · rcases mem_append.mp hmem with hmem | hmem
        · cases hall _ hmem
        · cases (mem_singleton.mp hmem) ▸ hb
    obtain ⟨s, hs, hin⟩ := @infix_statement [] _ _ hplain hinside
    exact ⟨s, hs, a, comments, b, hin, ha, hne, hall, hb⟩
  · rintro ⟨s, hs, a, comments, b, hinside, hrest⟩
    exact ⟨a, comments, b, hinside.trans (statement_inside hs), hrest⟩

def rendered (s : List Token) : List Token := stripEnds isBlank (uncommented s)

def renderedText (s : List Token) : String := strip (String.ofList (spell Token.text (uncommented s)))

variable {rest : List Char}

theorem rendered_reads (h : Lexed Token.text Token.Ok s rest) :
    Reads (renderedText s).toList (rendered s) := by
  have hplain : ∀ t ∈ uncommented s, t.isComment = false := by
    intro t ht
    simpa using (mem_filter.mp ht).2
  have hlexed := lexed_uncommented h
  constructor
  · rw [renderedText, toList_strip]
    exact strip_spell hlexed hplain
  · have hinside := stripEnds_within isBlank (uncommented s)
    obtain ⟨behind, hin⟩ := hlexed.inside hinside
    have hself : uncommented (rendered s) = rendered s :=
      filter_eq_self.mpr fun t ht => by simp [hplain t (hinside.subset ht)]
    rw [← hself]
    exact lexed_uncommented hin

theorem renders_iff (h : Lexed Token.text Token.Ok s rest) :
    Renders (renderedText s) s ↔ ¬Joins s := by
  have hreads := rendered_reads h
  rw [← (wordsFrom_uncommented s).1]
  change _ ↔ words (uncommented s) = words s
  rw [← words_strip (uncommented s)]
  constructor
  · rintro ⟨-, tokens, htokens, hwords⟩
    rwa [reads_unique htokens hreads] at hwords
  · exact fun hwords => ⟨rfl, rendered s, hreads, hwords⟩

theorem flush_eq (h : Lexed Token.text Token.Ok s rest) (hplain : .semicolon ∉ s) :
    flush (s.flatMap kept) = if s.any Token.isSolid then [renderedText s] else [] := by
  have hblank : rendered s = [] ↔ ¬(s.any Token.isSolid = true) := by
    rw [rendered, stripEnds_eq_nil, any_eq_true]
    constructor
    · rintro h ⟨t, ht, hsolid⟩
      cases hcomment : t.isComment with
      | true => cases hsolid.symm.trans (not_solid_of_comment hcomment)
      | false =>
        have hmem : t ∈ uncommented s := mem_filter.mpr ⟨ht, by rw [hcomment]; rfl⟩
        cases hsolid.symm.trans (not_solid_of_blank (h t hmem))
    · intro h t ht
      obtain ⟨hmem, hcomment⟩ := mem_filter.mp ht
      cases t with
      | plain char =>
        cases hspace : isSpace char with
        | true => exact hspace
        | false => exact absurd ⟨_, hmem, congrArg not hspace⟩ h
      | quoted quote body => exact absurd ⟨_, hmem, rfl⟩ h
      | lineComment | blockComment => cases hcomment
      | semicolon => exact absurd hmem hplain
  have hempty : renderedText s = "" ↔ rendered s = [] := by
    rw [← String.toList_inj, (rendered_reads h).1]
    constructor
    · intro hnil
      by_contra hne
      obtain ⟨t, ts, hts⟩ := exists_cons_of_ne_nil hne
      rw [hts, spell_cons] at hnil
      exact reader.spelled t (append_eq_nil_iff.mp hnil).1
    · intro hnil
      rw [hnil]
      rfl
  rw [spell_uncommented, flush]
  change (if renderedText s = "" then [] else [renderedText s]) = _
  by_cases hany : s.any Token.isSolid = true
  · rw [if_pos hany, if_neg fun he => hblank.mp (hempty.mp he) hany]
  · rw [if_neg hany, if_pos (hempty.mpr (hblank.mpr hany))]

theorem results_eq {statements : List (List Token)}
    (h : ∀ s ∈ statements, (∃ rest, Lexed Token.text Token.Ok s rest) ∧ .semicolon ∉ s) :
    (statements.flatMap fun s => flush (s.flatMap kept)) =
      (statements.filter fun s => s.any Token.isSolid).map renderedText := by
  induction statements with
  | nil => rfl
  | cons s statements ih =>
    obtain ⟨⟨⟨rest, hlexed⟩, hplain⟩, hrest⟩ := forall_mem_cons.mp h
    rw [flatMap_cons, flush_eq hlexed hplain, ih hrest, filter_cons]
    split_ifs
    · rfl
    · rfl

end

section

variable {text : String} {tokens : List Token}

theorem reads_statements (h : Reads text.toList tokens) : ∀ s ∈ statementsOf tokens,
    (∃ rest, Lexed Token.text Token.Ok s rest) ∧ .semicolon ∉ s := fun _ hs =>
  ⟨h.2.inside (statement_inside hs), statement_plain not_mem_nil hs⟩

theorem split_rendered (h : Reads text.toList tokens) : splitStatements text =
    .ok (((statementsOf tokens).filter fun s => s.any Token.isSolid).map renderedText) := by
  rw [split_reads h, results_eq (reads_statements h)]

theorem Implements.apart (h : Implements text) (hreads : Reads text.toList tokens) :
    ¬Joins tokens := by
  intro hjoins
  obtain ⟨results, hok, hrenders⟩ := h.splits tokens hreads
  obtain rfl := Except.ok.inj ((split_rendered hreads).symm.trans hok)
  obtain ⟨s, hs, hin⟩ := joins_iff.mp hjoins
  obtain ⟨a, comments, b, hinside, ha, -⟩ := id hin
  obtain ⟨⟨rest, hlexed⟩, -⟩ := reads_statements hreads s hs
  have hsolid : s.any Token.isSolid = true :=
    any_eq_true.mpr ⟨a, hinside.subset mem_cons_self, ha⟩
  rw [List.forall₂_map_left_iff, List.forall₂_same] at hrenders
  exact (renders_iff hlexed).mp (hrenders s (mem_filter.mpr ⟨hs, hsolid⟩)) hin

end

/-- The grammar is implemented just where no comments stand directly between two words. -/
theorem split_implements_iff (text : String) :
    Implements text ↔ ∀ tokens, Reads text.toList tokens → ¬Joins tokens := by
  constructor
  · exact fun h tokens hreads => h.apart hreads
  · refine fun h => ⟨split_rejects text, fun tokens hreads => ⟨_, split_rendered hreads, ?_⟩⟩
    rw [List.forall₂_map_left_iff, List.forall₂_same]
    intro s hs
    have hmem := (mem_filter.mp hs).1
    obtain ⟨⟨rest, hlexed⟩, -⟩ := reads_statements hreads s hmem
    exact (renders_iff hlexed).mpr fun hjoins => h tokens hreads (joins_iff.mpr ⟨s, hmem, hjoins⟩)

/-- Nothing but the comment stands between the two. -/
theorem comment_joins : ¬Implements "a/**/b" := by
  have hplain : ∀ c : Char, c ∉ QUOTES → c ≠ ';' → c ≠ '/' → ∀ rest, (plain c).Ok rest :=
    fun c hquote hsemicolon hslash _ => ⟨hquote, hsemicolon, fun h => absurd h hslash⟩
  have hreads : Reads "a/**/b".toList [.plain 'a', .blockComment [], .plain 'b'] := by
    refine ⟨by decide, hplain 'a' (by decide) (by decide) (by decide) _, fun h => ?_,
      hplain 'b' (by decide) (by decide) (by decide) _, trivial⟩
    cases infix_nil.mp h
  intro h
  refine h.apart hreads ⟨.plain 'a', [.blockComment []], .plain 'b', ⟨[], [], rfl⟩, ?_⟩
  exact ⟨by decide, cons_ne_nil _ _, by decide, by decide⟩

end OmniSense.Schema
