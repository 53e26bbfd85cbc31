import Mathlib.Data.Set.Card
import OmniSense.Library.Reflow
import OmniSense.Retrieval.Splitter

/-! Whether a citation's quote is in the stored text, up to blanks, and where. -/

namespace OmniSense.Evidence

open Library List Option
open Retrieval (slice)

/-- `unicodedata.category(character) == "Zs"`. -/
def isSpaceSeparator (c : Char) : Bool :=
  let n := c.toNat
  n = 0x20 ∨ n = 0xa0 ∨ n = 0x1680 ∨ (0x2000 ≤ n ∧ n ≤ 0x200a) ∨ n = 0x202f ∨ n = 0x205f ∨
    n = 0x3000

def isSpace (c : Char) : Bool := OmniSense.isSpace c || isSpaceSeparator c

/-! ## Texts without their blanks -/

/-- `while index < length`. The three lists grow and shrink together and are one list here. -/
@[grind =] def normalizeFrom (text : List Char) : ℕ → ℕ → List (Kept Char) → List (Kept Char)
  | 0, _, kept => kept
  | n + 1, index, kept =>
    match text[index]? with
    | none => kept
    | some character =>
      if isSpace character then
        let stop := runEnd isSpace text index text.length
        normalizeFrom text n stop
          (if kept.isEmpty then kept else kept ++ [⟨' ', index, stop⟩])
      else normalizeFrom text n (index + 1) (kept ++ [⟨character, index, index + 1⟩])

def dropTrailing (kept : List (Kept Char)) : List (Kept Char) :=
  match kept.getLast? with
  | some last => if last.symbol = ' ' then kept.dropLast else kept
  | none => kept

variable (text : List Char)

def normalizeWithOffsets : List Char × List ℕ × List ℕ :=
  let kept := dropTrailing (normalizeFrom text text.length 0 [])
  (kept.map Kept.symbol, kept.map Kept.start, kept.map Kept.stop)

def normalizeWhitespace : List Char := (normalizeWithOffsets text).1

/-! ## Finding a quote -/

structure QuoteSpan where
  charStart : ℕ
  charEnd : ℕ
  occurrences : ℕ
  exact : Bool
  deriving DecidableEq, Repr

/-- `text.find(sub, start)`. -/
def find (text sub : List Char) (start : ℕ) : Option ℕ :=
  (List.range' start (text.length + 1 - start)).find? fun index => sub.isPrefixOf (text.drop index)

/-- `while cursor >= 0`. -/
@[grind =] def countFrom (text sub : List Char) : ℕ → Option ℕ → ℕ
  | 0, _ => 0
  | _ + 1, none => 0
  | n + 1, some cursor => 1 + countFrom text sub n (find text sub (cursor + 1))

def findQuote (content quote : List Char) : Option QuoteSpan :=
  if (stripEnds OmniSense.isSpace quote).isEmpty || content.isEmpty then none
  else
    let (normalizedContent, starts, ends) := normalizeWithOffsets content
    let normalizedQuote := normalizeWhitespace quote
    if normalizedQuote.isEmpty then none
    else
      (find normalizedContent normalizedQuote 0).map fun first =>
        let charStart := starts.getD first 0
        let charEnd := ends.getD (first + normalizedQuote.length - 1) 0
        { charStart
          charEnd
          occurrences := countFrom normalizedContent normalizedQuote
            (normalizedContent.length + 1) (some first)
          exact := slice content charStart charEnd = quote }

/-! ## Verifying a citation -/

structure Citation where
  signalId : String
  quote : List Char
  charStart : Option ℤ
  charEnd : Option ℤ

inductive VerificationOutcome
  | verified | relocated | misquoted | signalMissing | emptyQuote
  deriving DecidableEq, Repr

structure QuoteVerification where
  signalId : String
  quote : List Char
  outcome : VerificationOutcome
  span : Option QuoteSpan
  claimedStart : Option ℤ
  claimedEnd : Option ℤ
  detail : String
  deriving DecidableEq

def withinClaimedSpan (content : List Char) (citation : Citation) : Option QuoteSpan :=
  match citation.charStart, citation.charEnd with
  | some start, some stop =>
    if start < 0 ∨ content.length < stop ∨ stop ≤ start then none
    else
      (findQuote (slice content start.toNat stop.toNat) citation.quote).map fun inner =>
        { charStart := start.toNat + inner.charStart
          charEnd := start.toNat + inner.charEnd
          -- Counted within the window.
          occurrences := inner.occurrences
          exact := inner.exact }
  | _, _ => none

def verify (citation : Citation) (signal : Option (List Char)) : QuoteVerification :=
  let base : QuoteVerification :=
    ⟨citation.signalId, citation.quote, .emptyQuote, none, citation.charStart, citation.charEnd, ""⟩
  if (stripEnds OmniSense.isSpace citation.quote).isEmpty then
    { base with outcome := .emptyQuote, detail := "the citation carries no quotable text" }
  else
    match signal with
    | none => { base with
        outcome := .signalMissing, detail := "no Signal with this id exists in this tenant" }
    | some content =>
      match withinClaimedSpan content citation, findQuote content citation.quote with
      | some span, _ => { base with outcome := .verified, span := some span }
      | none, none => { base with
          outcome := .misquoted
          detail := "the quoted text does not occur in the stored content, allowing for " ++
            "whitespace differences only" }
      | none, some found => { base with
          outcome := .relocated
          span := some found
          detail := if citation.charStart.isNone || citation.charEnd.isNone then
              "the citation recorded no offsets; they were resolved by search"
            else "the quote is present but not at the offsets the citation recorded" }

/-! ## What normalizing keeps -/

theorem isSpace_separator : isSpace ' ' = true := rfl

/-- Where the loop is: what it holds is what stays of the text so far, and the separator for a run of
blanks that has ended. -/
structure Progress (text : List Char) (kept : List (Kept Char)) (index : ℕ) (st : Seen)
    (done : List (Kept Char)) : Prop where
  kept : kept = done ++ st.gap ' ' index
  nothing : st = .nothing ↔ done = []
  last : ∀ last ∈ done.getLast?, isSpace last.symbol = false
  blanks : ∀ since, st = .blanks since → holdsAt isSpace text index = false

theorem Progress.dropTrailing {text : List Char} {kept done : List (Kept Char)} {index : ℕ}
    {st : Seen} (h : Progress text kept index st done) : dropTrailing kept = done := by
  have hkept := h.kept
  have hsymbol : Evidence.dropTrailing done = done := by
    unfold Evidence.dropTrailing
    cases hlast : done.getLast? with
    | none => rfl
    | some last =>
      have hne : last.symbol ≠ ' ' := by
        intro heq
        have hstays := h.last last hlast
        rw [heq] at hstays
        exact absurd isSpace_separator (ne_true_of_eq_false hstays)
      exact if_neg hne
  cases st with
  | nothing => rw [hkept, Seen.gap_nothing, append_nil, hsymbol]
  | symbol => rw [hkept, Seen.gap_symbol, append_nil, hsymbol]
  | blanks since =>
    rw [hkept, Seen.gap_blanks]
    simp [Evidence.dropTrailing]

theorem Progress.normalizeFrom {text : List Char} {kept done : List (Kept Char)} {index : ℕ}
    {st : Seen} (h : Progress text kept index st done) {n : ℕ} (hn : text.length ≤ index + n) :
    Evidence.dropTrailing (normalizeFrom text n index kept) =
      done ++ reflow isSpace ' ' st index (text.drop index) := by
  induction n generalizing kept done index st with
  | zero =>
    rw [drop_eq_nil_of_le (by omega), reflow, append_nil]
    exact h.dropTrailing
  | succ n ih =>
    unfold Evidence.normalizeFrom
    cases hc : text[index]? with
    | none =>
      rw [drop_eq_nil_of_le (List.getElem?_eq_none_iff.mp hc), reflow, append_nil]
      exact h.dropTrailing
    | some c =>
      obtain ⟨hlt, hget⟩ := List.getElem?_eq_some_iff.mp hc
      have hdrop : text.drop index = c :: text.drop (index + 1) := by
        rw [← hget]
        exact drop_eq_getElem_cons hlt
      dsimp only
      cases hblank : isSpace c with
      | true =>
        obtain ⟨run, hrun, hblanks, hstop⟩ := drop_runEnd hc hblank
        have hnext : Progress text (if kept.isEmpty then kept
              else kept ++ [⟨' ', index, runEnd isSpace text index text.length⟩])
            (runEnd isSpace text index text.length) (st.skip index) done := by
          have hkept := h.kept
          have hends : holdsAt isSpace text (runEnd isSpace text index text.length) = false := by
            rcases (@runEnd_le _ isSpace text _ _ hlt.le).lt_or_eq with hless | heq
            · exact runEnd_stops hless
            · rw [heq, holdsAt, List.getElem?_eq_none le_rfl]
              rfl
          cases st with
          | nothing =>
            obtain rfl := h.nothing.mp rfl
            rw [Seen.gap_nothing, append_nil] at hkept
            rw [hkept]
            exact ⟨rfl, h.nothing, h.last, fun _ hst => by cases hst⟩
          | symbol =>
            have hne : done ≠ [] := by
              intro hnil
              cases h.nothing.mpr hnil
            rw [Seen.gap_symbol, append_nil] at hkept
            rw [hkept, if_neg (by simp [hne])]
            exact ⟨rfl, ⟨fun hst => (by cases hst), fun hnil => absurd hnil hne⟩, h.last,
              fun _ _ => hends⟩
          | blanks since =>
            have hnone := h.blanks since rfl
            rw [holdsAt, hc, any_some, hblank] at hnone
            cases hnone
        rw [if_pos rfl, ih hnext (by omega), hrun, reflow_run hblank hblanks, hstop]
      | false =>
        have hnext : Progress text (kept ++ [⟨c, index, index + 1⟩]) (index + 1) .symbol
            (kept ++ [⟨c, index, index + 1⟩]) := by
          refine ⟨(append_nil _).symm, by simp, fun last hlast => ?_, fun _ hst => by cases hst⟩
          rw [List.getLast?_append, List.getLast?_singleton] at hlast
          cases hlast
          exact hblank
        rw [if_neg (by simp), ih hnext (by omega), hdrop, reflow_symbol hblank, h.kept]
        simp

theorem normalizeWithOffsets_eq : normalizeWithOffsets text =
    ((reflow isSpace ' ' .nothing 0 text).map Kept.symbol,
      (reflow isSpace ' ' .nothing 0 text).map Kept.start,
      (reflow isSpace ' ' .nothing 0 text).map Kept.stop) := by
  have hstart : Progress text [] 0 .nothing [] :=
    ⟨rfl, iff_of_true rfl rfl, nofun, nofun⟩
  have hloop := hstart.normalizeFrom (n := text.length) (by omega)
  unfold normalizeWithOffsets
  rw [hloop, drop_zero, nil_append]

theorem normalizeWhitespace_eq :
    normalizeWhitespace text = collapse isSpace ' ' text := by
  unfold normalizeWhitespace
  rw [normalizeWithOffsets_eq]
  rfl

/-! ## Occurrences -/

variable {content quote : List Char} {text sub : List Char}

theorem find_eq_some {start i : ℕ} : find text sub start = some i ↔
    start ≤ i ∧ i ≤ text.length ∧ sub <+: text.drop i ∧
      ∀ j, start ≤ j → j < i → ¬sub <+: text.drop j := by
  unfold find
  rw [List.find?_range'_eq_some, mem_range'_1]
  simp only [ isPrefixOf_iff_prefix, Bool.not_eq_true', ← Bool.not_eq_true]
  constructor
  · rintro ⟨hmatch, ⟨hstart, hend⟩, hfirst⟩
    exact ⟨hstart, by omega, hmatch, hfirst⟩
  · rintro ⟨hstart, hend, hmatch, hfirst⟩
    exact ⟨hmatch, ⟨hstart, by omega⟩, hfirst⟩

theorem find_eq_none {start : ℕ} : find text sub start = none ↔
    ∀ i, start ≤ i → i ≤ text.length → ¬sub <+: text.drop i := by
  unfold find
  rw [List.find?_eq_none]
  simp only [ isPrefixOf_iff_prefix, mem_range'_1]
  exact forall_congr' fun i => ⟨fun h hstart hend => h ⟨hstart, by omega⟩,
    fun h hi => h hi.1 (by omega)⟩

def occurrencesFrom (text sub : List Char) (start : ℕ) : Finset ℕ :=
  (Finset.range (text.length + 1)).filter fun i => start ≤ i ∧ sub <+: text.drop i

theorem mem_occurrencesFrom {start i : ℕ} :
    i ∈ occurrencesFrom text sub start ↔ i ≤ text.length ∧ start ≤ i ∧ sub <+: text.drop i := by
  unfold occurrencesFrom
  rw [Finset.mem_filter, Finset.mem_range, Nat.lt_succ_iff]

theorem countFrom_eq {start n : ℕ} (hn : text.length + 1 ≤ start + n) :
    countFrom text sub n (find text sub start) = (occurrencesFrom text sub start).card := by
  have hnone : ∀ {start}, find text sub start = none → occurrencesFrom text sub start = ∅ := by
    intro start h
    refine Finset.eq_empty_of_forall_notMem fun i hi => ?_
    obtain ⟨hend, hstart, hmatch⟩ := mem_occurrencesFrom.mp hi
    exact find_eq_none.mp h i hstart hend hmatch
  induction n generalizing start with
  | zero =>
    have hend : find text sub start = none := find_eq_none.mpr fun i hi hi' => by omega
    rw [hnone hend, countFrom, Finset.card_empty]
  | succ n ih =>
    cases h : find text sub start with
    | none => rw [hnone h, countFrom, Finset.card_empty]
    | some i =>
      obtain ⟨hstart, hend, hmatch, hfirst⟩ := find_eq_some.mp h
      rw [countFrom, ih (by omega), add_comm, ← Finset.card_insert_of_notMem (a := i)]
      · congr 1
        ext j
        rw [Finset.mem_insert, mem_occurrencesFrom, mem_occurrencesFrom]
        constructor
        · rintro (rfl | ⟨hj, hij, hj'⟩)
          · exact ⟨hend, hstart, hmatch⟩
          · exact ⟨hj, by omega, hj'⟩
        · rintro ⟨hj, hij, hj'⟩
          rcases Nat.lt_trichotomy j i with hlt | heq | hgt
          · exact absurd hj' (hfirst j hij hlt)
          · exact .inl heq
          · exact .inr ⟨hj, hgt, hj'⟩
      · rw [mem_occurrencesFrom]
        omega

/-! ## Quotes in a text -/

structure IsQuote (content quote : List Char) (start stop : ℕ) : Prop where
  extent : start < stop ∧ stop ≤ content.length
  first : ∃ c, content[start]? = some c ∧ isSpace c = false
  last : ∃ c, content[stop - 1]? = some c ∧ isSpace c = false
  same : normalizeWhitespace (slice content start stop) = normalizeWhitespace quote

theorem isQuote_iff {start stop : ℕ} :
    IsQuote content quote start stop ↔ ∃ pre mid post, content = pre ++ mid ++ post ∧
      Firm isSpace mid ∧ collapse isSpace ' ' mid = collapse isSpace ' ' quote ∧
      pre.length = start ∧ pre.length + mid.length = stop := by
  constructor
  · rintro ⟨⟨hlt, hle⟩, ⟨c, hc, hfirst⟩, ⟨d, hd, hlast⟩, hsame⟩
    have hlength : (slice content start stop).length = stop - start := by
      rw [slice, length_drop, length_take, Nat.min_eq_left hle]
    have htake : (content.take start).length = start := by
      rw [length_take, Nat.min_eq_left (hlt.le.trans hle)]
    refine ⟨content.take start, slice content start stop, content.drop stop, ?_, ⟨?_, ?_⟩, ?_, htake,
      by omega⟩
    · have hfront : content.take start ++ slice content start stop = content.take stop := by
        rw [← take_append_drop start (content.take stop), take_take,
          Nat.min_eq_left hlt.le]
        rfl
      rw [hfront, take_append_drop]
    · have hhead : (slice content start stop).head? = some c := by
        rw [slice, List.head?_drop, List.getElem?_take_of_lt hlt, hc]
      obtain ⟨m, hm⟩ := List.head?_eq_some_iff.mp hhead
      exact ⟨c, m, hm, hfirst⟩
    · have hend : (slice content start stop).getLast? = some d := by
        rw [List.getLast?_eq_getElem?, hlength, slice, List.getElem?_drop,
          List.getElem?_take_of_lt (by omega), ← hd]
        congr 1
        omega
      obtain ⟨m, hm⟩ := List.getLast?_eq_some_iff.mp hend
      exact ⟨m, d, hm, hlast⟩
    · rw [← normalizeWhitespace_eq, ← normalizeWhitespace_eq, hsame]
  · rintro ⟨pre, mid, post, rfl, hfirm, hsame, rfl, rfl⟩
    obtain ⟨c, m, hc, hfirst⟩ := hfirm.first
    obtain ⟨m', d, hd, hlast⟩ := hfirm.last
    have hpos : 0 < mid.length := by
      rw [hc]
      exact Nat.succ_pos _
    refine ⟨⟨by omega, ?_⟩, ⟨c, ?_, hfirst⟩, ⟨d, ?_, hlast⟩, ?_⟩
    · rw [length_append, length_append]
      omega
    · rw [append_assoc, List.getElem?_append_right le_rfl, Nat.sub_self, hc]
      rfl
    · rw [append_assoc, List.getElem?_append_right (by omega),
        List.getElem?_append_left (by omega)]
      have hindex : pre.length + mid.length - 1 - pre.length = m'.length := by
        rw [hd, length_append, length_singleton]
        omega
      rw [hindex, hd, List.getElem?_append_right le_rfl, Nat.sub_self]
      rfl
    · have hslice : slice (pre ++ mid ++ post) pre.length (pre.length + mid.length) = mid := by
        rw [slice, ← length_append, take_left' rfl, drop_left' rfl]
      rw [hslice, normalizeWhitespace_eq, normalizeWhitespace_eq, hsame]

def startAt (content : List Char) (index : ℕ) : ℕ :=
  (normalizeWithOffsets content).2.1.getD index 0

def stopAt (content : List Char) (index : ℕ) : ℕ :=
  (normalizeWithOffsets content).2.2.getD index 0

section

variable {content quote : List Char} {i j : ℕ}

theorem startAt_eq {x w y : List (Kept Char)}
    (h : reflow isSpace ' ' .nothing 0 content = x ++ w ++ y) (hw : w ≠ []) :
    some (startAt content x.length) = w.head?.map Kept.start := by
  obtain ⟨e, w, rfl⟩ := exists_cons_of_ne_nil hw
  unfold startAt
  rw [normalizeWithOffsets_eq, h]
  simp

theorem stopAt_eq {x w y : List (Kept Char)}
    (h : reflow isSpace ' ' .nothing 0 content = x ++ w ++ y) (hw : w ≠ []) :
    some (stopAt content (x.length + w.length - 1)) = w.getLast?.map Kept.stop := by
  obtain ⟨w, e, rfl⟩ := (eq_nil_or_concat w).resolve_left hw
  unfold stopAt
  rw [normalizeWithOffsets_eq, h]
  simp [Nat.add_sub_assoc]

theorem stretch_of_match (hi : i ≤ (collapse isSpace ' ' content).length)
    (h : collapse isSpace ' ' quote <+: (collapse isSpace ' ' content).drop i) :
    ∃ x w y, reflow isSpace ' ' .nothing 0 content = x ++ w ++ y ∧ x.length = i ∧
      w.map Kept.symbol = collapse isSpace ' ' quote := by
  obtain ⟨kept, hkept⟩ : ∃ l, l = reflow isSpace ' ' .nothing 0 content := ⟨_, rfl⟩
  unfold collapse at hi h
  rw [← hkept] at hi h ⊢
  rw [length_map] at hi
  refine ⟨kept.take i, (kept.drop i).take (collapse isSpace ' ' quote).length,
    (kept.drop i).drop (collapse isSpace ' ' quote).length, ?_, ?_, ?_⟩
  · rw [append_assoc, take_append_drop, take_append_drop]
  · rw [length_take, Nat.min_eq_left hi]
  · rw [map_take, map_drop]
    exact (prefix_iff_eq_take.mp h).symm

theorem isQuote_of_match (hne : collapse isSpace ' ' quote ≠ [])
    (hi : i ≤ (collapse isSpace ' ' content).length)
    (h : collapse isSpace ' ' quote <+: (collapse isSpace ' ' content).drop i) :
    IsQuote content quote (startAt content i)
      (stopAt content (i + (collapse isSpace ' ' quote).length - 1)) := by
  obtain ⟨x, w, y, hkept, rfl, hw⟩ := stretch_of_match hi h
  have hfirm : Firm isSpace (w.map Kept.symbol) := hw ▸ firm_collapse hne
  have hwne : w ≠ [] := by
    rintro rfl
    exact hne hw.symm
  have hstart := startAt_eq hkept hwne
  have hstop := stopAt_eq hkept hwne
  obtain ⟨pre, mid, post, hcontent, hmid, hpart⟩ := part_of_reflow isSpace_separator hkept hfirm
  obtain ⟨hhead, hlast⟩ := extent_reflow ' ' hmid pre.length
  rw [← hpart] at hhead hlast
  rw [hhead] at hstart
  rw [hlast] at hstop
  have hlength : (collapse isSpace ' ' quote).length = w.length := by
    rw [← hw, length_map]
  rw [hlength, Option.some.inj hstart, Option.some.inj hstop]
  refine isQuote_iff.mpr ⟨pre, mid, post, hcontent, hmid, ?_, rfl, rfl⟩
  rw [← symbols_reflow isSpace ' ' pre.length mid, ← hpart, hw]

theorem exists_match {start stop : ℕ} (h : IsQuote content quote start stop) :
    ∃ i, i ≤ (collapse isSpace ' ' content).length ∧
      collapse isSpace ' ' quote <+: (collapse isSpace ' ' content).drop i ∧
      startAt content i = start := by
  obtain ⟨pre, mid, post, rfl, hfirm, hsame, rfl, rfl⟩ := isQuote_iff.mp h
  obtain ⟨x, y, hkept⟩ := reflow_part ' ' hfirm
  have hhead := (extent_reflow ' ' hfirm pre.length).1
  have hne : reflow isSpace ' ' .nothing pre.length mid ≠ [] := by
    intro hnil
    rw [hnil] at hhead
    exact nomatch hhead
  have hsymbols : collapse isSpace ' ' (pre ++ mid ++ post) =
      x.map Kept.symbol ++ (collapse isSpace ' ' quote ++ y.map Kept.symbol) := by
    rw [← hsame, ← symbols_reflow isSpace ' ' pre.length mid]
    unfold collapse
    rw [hkept, map_append, map_append, append_assoc]
  refine ⟨x.length, ?_, ?_, ?_⟩
  · rw [hsymbols, length_append, length_map]
    omega
  · rw [hsymbols, drop_left' (length_map ..)]
    exact prefix_append _ _
  · rw [← Option.some.injEq, startAt_eq hkept hne, hhead]

theorem startAt_lt (hne : collapse isSpace ' ' quote ≠ []) (hij : i < j)
    (hj : j ≤ (collapse isSpace ' ' content).length)
    (h : collapse isSpace ' ' quote <+: (collapse isSpace ' ' content).drop i)
    (h' : collapse isSpace ' ' quote <+: (collapse isSpace ' ' content).drop j) :
    startAt content i < startAt content j := by
  -- Both stretches start with the first symbol of the quote.
  have hfirst : ∀ {w : List (Kept Char)}, w.map Kept.symbol = collapse isSpace ' ' quote →
      ∃ e rest, w = e :: rest ∧ isSpace e.symbol = false := by
    intro w hw
    obtain ⟨a, m, ham, ha⟩ := (firm_collapse hne).first
    obtain ⟨e, rest, rfl, rfl, -⟩ := map_eq_cons_iff.mp (hw.trans ham)
    exact ⟨e, rest, rfl, ha⟩
  obtain ⟨x, w, y, hkept, rfl, hw⟩ := stretch_of_match (hij.le.trans hj) h
  obtain ⟨x', w', y', hkept', rfl, hw'⟩ := stretch_of_match hj h'
  obtain ⟨e, rest, rfl, he⟩ := hfirst hw
  obtain ⟨e', rest', rfl, he'⟩ := hfirst hw'
  have hstart := startAt_eq hkept (cons_ne_nil _ _)
  have hstart' := startAt_eq hkept' (cons_ne_nil _ _)
  rw [List.head?_cons, map_some, Option.some.injEq] at hstart hstart'
  rw [hstart, hstart']
  obtain ⟨m, rfl⟩ : x ++ [e] <+: x' := by
    refine @prefix_of_prefix_length_le _ _ _ (reflow isSpace ' ' .nothing 0 content) ?_ ?_ ?_
    · exact ⟨rest ++ y, by rw [hkept]; simp⟩
    · exact ⟨e' :: rest' ++ y', by rw [hkept', append_assoc]⟩
    · rw [length_append, length_singleton]
      exact hij
  refine start_lt isSpace_separator (x := x) (y := m) (z := rest' ++ y') (hkept'.trans ?_) he he'
  simp

end

/-! ## What is found -/

structure Locates (content quote : List Char) (lo hi : ℕ) (span : QuoteSpan) : Prop where
  isQuote : IsQuote content quote span.charStart span.charEnd
  inside : lo ≤ span.charStart ∧ span.charEnd ≤ hi
  first : ∀ start stop, lo ≤ start → stop ≤ hi → IsQuote content quote start stop →
    span.charStart ≤ start
  occurrences : span.occurrences =
    {start | lo ≤ start ∧ ∃ stop, stop ≤ hi ∧ IsQuote content quote start stop}.ncard

theorem findQuote_eq (content quote : List Char) : findQuote content quote =
    if collapse isSpace ' ' quote = [] then none
    else (find (collapse isSpace ' ' content) (collapse isSpace ' ' quote) 0).map fun first =>
      { charStart := startAt content first
        charEnd := stopAt content (first + (collapse isSpace ' ' quote).length - 1)
        occurrences := countFrom (collapse isSpace ' ' content) (collapse isSpace ' ' quote)
          ((collapse isSpace ' ' content).length + 1) (some first)
        exact := slice content (startAt content first)
          (stopAt content (first + (collapse isSpace ' ' quote).length - 1)) = quote } := by
  unfold findQuote
  simp only [normalizeWhitespace_eq, List.isEmpty_iff]
  have htext : (normalizeWithOffsets content).1 = collapse isSpace ' ' content :=
    normalizeWhitespace_eq content
  by_cases hquote : collapse isSpace ' ' quote = []
  · rw [if_pos hquote, if_pos hquote, ite_self]
  rw [if_neg hquote, if_neg hquote]
  -- What `strip` leaves empty has no symbols, and no text holds a quote that has some.
  split_ifs with hempty
  · symm
    rw [map_eq_none_iff, find_eq_none]
    intro i _ hi hmatch
    rcases Bool.or_eq_true _ _ |>.mp hempty with hstrip | hnone
    · refine hquote ?_
      have hspace := stripEnds_eq_nil.mp (List.isEmpty_iff.mp hstrip)
      unfold collapse
      rw [reflow_blanks fun c hc => by rw [isSpace, hspace c hc, Bool.true_or]]
      rfl
    · obtain rfl := List.isEmpty_iff.mp hnone
      exact hquote (prefix_nil.mp (hmatch.trans (by simp [collapse, reflow])))
  · rw [htext]
    rfl

theorem findQuote_isSome : (findQuote content quote).isSome ↔ normalizeWhitespace quote ≠ [] ∧
      normalizeWhitespace quote <:+: normalizeWhitespace content := by
  rw [findQuote_eq, normalizeWhitespace_eq, normalizeWhitespace_eq]
  split_ifs with hquote
  · simp [hquote]
  · rw [isSome_map, isSome_iff_ne_none, ne_eq, find_eq_none, and_iff_right hquote]
    push Not
    constructor
    · rintro ⟨i, -, -, hmatch⟩
      exact hmatch.isInfix.trans (drop_suffix _ _).isInfix
    · rintro ⟨x, y, hxy⟩
      refine ⟨x.length, Nat.zero_le _, ?_, ?_⟩
      · rw [← hxy, append_assoc, length_append]
        omega
      · rw [← hxy, append_assoc, drop_left]
        exact prefix_append _ _

theorem findQuote_of_isQuote {start stop : ℕ}
    (h : IsQuote content quote start stop) : (findQuote content quote).isSome := by
  obtain ⟨i, -, hmatch, -⟩ := exists_match h
  obtain ⟨pre, mid, post, -, hfirm, hsame, -, -⟩ := isQuote_iff.mp h
  rw [findQuote_isSome, normalizeWhitespace_eq, normalizeWhitespace_eq]
  exact ⟨hsame ▸ collapse_ne_nil hfirm, hmatch.isInfix.trans (drop_suffix _ _).isInfix⟩

theorem findQuote_locates {span : QuoteSpan}
    (h : findQuote content quote = some span) : Locates content quote 0 content.length span := by
  rw [findQuote_eq] at h
  split_ifs at h with hquote
  obtain ⟨first, hfind, rfl⟩ := map_eq_some_iff.mp h
  obtain ⟨-, hfirst, hmatch, hleast⟩ := find_eq_some.mp hfind
  have hplace := isQuote_of_match hquote hfirst hmatch
  refine ⟨hplace, ⟨Nat.zero_le _, hplace.extent.2⟩, fun start stop _ _ hplace' => ?_, ?_⟩
  · obtain ⟨i, hi, hmatch', rfl⟩ := exists_match hplace'
    have hle : first ≤ i := by
      by_contra hlt
      exact hleast i (Nat.zero_le _) (not_le.mp hlt) hmatch'
    rcases hle.eq_or_lt with rfl | hlt
    · exact le_rfl
    · exact (startAt_lt hquote hlt hi hmatch hmatch').le
  · dsimp only
    rw [← hfind, countFrom_eq (by omega)]
    have hstarts : {start | 0 ≤ start ∧ ∃ stop, stop ≤ content.length ∧
          IsQuote content quote start stop} =
        startAt content '' (occurrencesFrom (collapse isSpace ' ' content)
          (collapse isSpace ' ' quote) 0 : Set ℕ) := by
      ext start
      constructor
      · rintro ⟨-, stop, -, hplace'⟩
        obtain ⟨i, hi, hmatch', rfl⟩ := exists_match hplace'
        exact ⟨i, mem_occurrencesFrom.mpr ⟨hi, Nat.zero_le _, hmatch'⟩, rfl⟩
      · rintro ⟨i, hi, rfl⟩
        obtain ⟨hi, -, hmatch'⟩ := mem_occurrencesFrom.mp hi
        have hplace' := isQuote_of_match hquote hi hmatch'
        exact ⟨Nat.zero_le _, _, hplace'.extent.2, hplace'⟩
    have hinj : Set.InjOn (startAt content) (occurrencesFrom (collapse isSpace ' ' content)
        (collapse isSpace ' ' quote) 0 : Set ℕ) := by
      intro i hi j hj heq
      obtain ⟨hi, -, hmatch⟩ := mem_occurrencesFrom.mp hi
      obtain ⟨hj, -, hmatch'⟩ := mem_occurrencesFrom.mp hj
      rcases Nat.lt_trichotomy i j with hlt | hsame | hgt
      · exact absurd heq (startAt_lt hquote hlt hj hmatch hmatch').ne
      · exact hsame
      · exact absurd heq (startAt_lt hquote hgt hi hmatch' hmatch).ne'
    rw [hstarts, hinj.ncard_image, Set.ncard_coe_finset]

/-! ## A claimed window -/

section

variable {content quote : List Char} {lo hi start stop : ℕ}

theorem length_slice (hhi : hi ≤ content.length) : (slice content lo hi).length = hi - lo := by
  rw [slice, length_drop, length_take, Nat.min_eq_left hhi]

theorem slice_slice (h : lo + stop ≤ hi) :
    slice (slice content lo hi) start stop = slice content (lo + start) (lo + stop) := by
  unfold slice
  rw [take_drop, take_take, Nat.min_eq_left h, drop_drop]

theorem isQuote_slice (hhi : hi ≤ content.length) : IsQuote (slice content lo hi) quote start stop ↔
    IsQuote content quote (lo + start) (lo + stop) ∧ lo + stop ≤ hi := by
  have hget : ∀ i, lo + i < hi → (slice content lo hi)[i]? = content[lo + i]? := by
    intro i hi
    rw [slice, List.getElem?_drop, List.getElem?_take_of_lt hi]
  have hlength : (slice content lo hi).length = hi - lo := length_slice hhi
  constructor
  · rintro ⟨⟨hlt, hle⟩, hfirst, hlast, hsame⟩
    have hstop : lo + stop ≤ hi := by omega
    have hpred : lo + stop - 1 = lo + (stop - 1) := by omega
    rw [hget _ (by omega)] at hfirst hlast
    rw [slice_slice hstop] at hsame
    exact ⟨⟨⟨by omega, by omega⟩, hfirst, hpred ▸ hlast, hsame⟩, hstop⟩
  · rintro ⟨⟨⟨hlt, hle⟩, hfirst, hlast, hsame⟩, hstop⟩
    have hpred : lo + stop - 1 = lo + (stop - 1) := by omega
    rw [hpred, ← hget _ (by omega)] at hlast
    rw [← hget _ (by omega)] at hfirst
    rw [← slice_slice hstop] at hsame
    exact ⟨⟨by omega, by omega⟩, hfirst, hlast, hsame⟩

theorem withinClaimedSpan_locates {citation : Citation} {span : QuoteSpan}
    (h : withinClaimedSpan content citation = some span) :
    ∃ lo hi : ℕ, citation.charStart = some (lo : ℤ) ∧ citation.charEnd = some (hi : ℤ) ∧
      lo < hi ∧ hi ≤ content.length ∧ Locates content citation.quote lo hi span := by
  unfold withinClaimedSpan at h
  split at h
  case h_2 => exact nomatch h
  case h_1 start stop hstart hstop =>
    split_ifs at h with hrange
    push Not at hrange
    obtain ⟨hnonneg, hbound, hlt⟩ := hrange
    lift start to ℕ using hnonneg
    lift stop to ℕ using by omega
    rw [Int.toNat_natCast, Int.toNat_natCast] at h
    obtain ⟨inner, hinner, rfl⟩ := map_eq_some_iff.mp h
    have hbound : stop ≤ content.length := by omega
    have hlocates := findQuote_locates hinner
    refine ⟨start, stop, hstart, hstop, by omega, hbound, ?_⟩
    obtain ⟨hplace, hinside⟩ := (isQuote_slice hbound).mp hlocates.isQuote
    -- A place in the window is one of the text behind the window's start.
    have hshift : ∀ {a b : ℕ}, start ≤ a → b ≤ stop → IsQuote content citation.quote a b →
        IsQuote (slice content start stop) citation.quote (a - start) (b - start) := by
      intro a b ha hb hquote
      have hextent := hquote.extent
      have hsame : start + (a - start) = a ∧ start + (b - start) = b := by omega
      refine (isQuote_slice hbound).mpr ?_
      rw [hsame.1, hsame.2]
      exact ⟨hquote, hb⟩
    refine ⟨hplace, ⟨Nat.le_add_right _ _, hinside⟩, fun a b ha hb hquote => ?_, ?_⟩
    · have hshifted := hshift ha hb hquote
      have hle := hlocates.first _ _ (Nat.zero_le _) hshifted.extent.2 hshifted
      dsimp only
      omega
    · have himage : {a | start ≤ a ∧ ∃ b, b ≤ stop ∧ IsQuote content citation.quote a b} =
          (start + ·) '' {a | 0 ≤ a ∧ ∃ b, b ≤ (slice content start stop).length ∧
            IsQuote (slice content start stop) citation.quote a b} := by
        ext a
        constructor
        · rintro ⟨ha, b, hb, hquote⟩
          have hshifted := hshift ha hb hquote
          exact ⟨a - start, ⟨Nat.zero_le _, _, hshifted.extent.2, hshifted⟩, by
            dsimp only
            omega⟩
        · rintro ⟨a, ⟨-, b, hb, hquote⟩, rfl⟩
          obtain ⟨hquote, hle⟩ := (isQuote_slice hbound).mp hquote
          exact ⟨Nat.le_add_right _ _, _, hle, hquote⟩
      rw [himage, (add_right_injective start).injOn.ncard_image]
      exact hlocates.occurrences

end

theorem verify_verified_iff (citation : Citation) (content : List Char) :
    (verify citation (some content)).outcome ∈ [.verified, .relocated] ↔
      ∃ start stop, IsQuote content citation.quote start stop := by
  have hfound : (∃ start stop, IsQuote content citation.quote start stop) ↔
      (findQuote content citation.quote).isSome := by
    constructor
    · rintro ⟨start, stop, hplace⟩
      exact findQuote_of_isQuote hplace
    · intro hsome
      obtain ⟨span, hspan⟩ := isSome_iff_exists.mp hsome
      exact ⟨_, _, (findQuote_locates hspan).isQuote⟩
  rw [hfound]
  unfold verify
  dsimp only
  by_cases hblank : (stripEnds OmniSense.isSpace citation.quote).isEmpty = true
  · have hnone : findQuote content citation.quote = none := by
      unfold findQuote
      rw [hblank, Bool.true_or, if_pos rfl]
    simp [hblank, hnone]
  · rw [if_neg hblank]
    cases hwithin : withinClaimedSpan content citation with
    | some span =>
      obtain ⟨lo, hi, -, -, -, -, hspan⟩ := withinClaimedSpan_locates hwithin
      simp [findQuote_of_isQuote hspan.isQuote]
    | none => cases findQuote content citation.quote <;> simp

/-- A quote that is found is there, at the first of its places; within a claimed window the places
are those of the window, and the whole text has them too. -/
theorem quotes_located (content quote : List Char) :
    ((findQuote content quote).isSome ↔ normalizeWhitespace quote ≠ [] ∧
      normalizeWhitespace quote <:+: normalizeWhitespace content) ∧
    (∀ span, findQuote content quote = some span → Locates content quote 0 content.length span) ∧
    ∀ (citation : Citation) (span : QuoteSpan), citation.quote = quote →
      withinClaimedSpan content citation = some span →
        (∃ lo hi : ℕ, citation.charStart = some (lo : ℤ) ∧ citation.charEnd = some (hi : ℤ) ∧
          lo < hi ∧ hi ≤ content.length ∧ Locates content quote lo hi span) ∧
        (findQuote content quote).isSome := by
  refine ⟨findQuote_isSome, fun span => findQuote_locates, ?_⟩
  rintro citation span rfl h
  have hlocates := withinClaimedSpan_locates h
  refine ⟨hlocates, ?_⟩
  obtain ⟨lo, hi, -, -, -, -, hspan⟩ := hlocates
  exact findQuote_of_isQuote hspan.isQuote

theorem quotes_located_window :
    Locates "say  a\n b, a b".toList "a b".toList 10 14 ⟨11, 14, 1, true⟩ ∧
      (findQuote "say  a\n b, a b".toList "a b".toList).isSome := by
  obtain ⟨⟨lo, hi, hlo, hhi, -, -, hspan⟩, hwhole⟩ :=
    (quotes_located "say  a\n b, a b".toList "a b".toList).2.2
      ⟨"", "a b".toList, some 10, some 14⟩ ⟨11, 14, 1, true⟩ rfl (by decide)
  obtain rfl : 10 = lo := Int.ofNat_inj.mp (Option.some.inj hlo)
  obtain rfl : 14 = hi := Int.ofNat_inj.mp (Option.some.inj hhi)
  exact ⟨hspan, hwhole⟩

/-- The second of two places, claimed, is neither the first of the text nor its only one. -/
theorem second_of_two :
    withinClaimedSpan "a a".toList ⟨"", "a".toList, some 2, some 3⟩ = some ⟨2, 3, 1, true⟩ ∧
      ¬Locates "a a".toList "a".toList 0 3 ⟨2, 3, 1, true⟩ := by
  refine ⟨by decide, fun h => ?_⟩
  have hplace : IsQuote "a a".toList "a".toList 0 1 :=
    ⟨by decide, ⟨_, rfl, rfl⟩, ⟨_, rfl, rfl⟩, by decide⟩
  have hle := h.first 0 1 le_rfl (by decide) hplace
  exact absurd hle (by decide)

end OmniSense.Evidence
