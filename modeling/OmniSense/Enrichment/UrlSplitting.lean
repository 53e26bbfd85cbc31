import OmniSense.Enrichment.Urls

/-! What `urlsplit` makes of a URL, and of one that was put together from its parts. -/

namespace OmniSense.Enrichment.Url

open Library Library.Percent List

/-! ## Parts of a text -/

section

variable {c : Char} {s t : List Char}

theorem ne_of_notMem (h : c ∉ s) : ∀ x ∈ s, decide (x ≠ c) = true :=
  fun _ hx => decide_eq_true fun heq => h (heq ▸ hx)

theorem before_of_notMem (h : c ∉ s) : before c s = s :=
  takeWhile_eq_self_iff.mpr (ne_of_notMem h)

theorem after_of_notMem (h : c ∉ s) : after c s = [] := by
  have hdrop : s.dropWhile (· ≠ c) = [] := dropWhile_eq_nil_iff.mpr (ne_of_notMem h)
  unfold after
  rw [hdrop]
  rfl

theorem before_append (h : c ∉ s) (t : List Char) : before c (s ++ c :: t) = s := by
  unfold before
  rw [takeWhile_append_of_pos (ne_of_notMem h), takeWhile_cons_of_neg (by simp), append_nil]

theorem after_append (h : c ∉ s) (t : List Char) : after c (s ++ c :: t) = t := by
  unfold after
  rw [dropWhile_append_of_pos (ne_of_notMem h), dropWhile_cons_of_neg (by simp)]
  rfl

theorem notMem_before (c : Char) (s : List Char) : c ∉ before c s := by
  intro hc
  simpa using mem_takeWhile_imp hc

theorem before_subset (c : Char) (s : List Char) : before c s ⊆ s := ( takeWhile_prefix _).subset

theorem after_subset (c : Char) (s : List Char) : after c s ⊆ s :=
  fun _ hx => (dropWhile_suffix _).subset (mem_of_mem_drop hx)

theorem eq_before_after (h : c ∈ s) : s = before c s ++ c :: after c s := by
  have hparts : before c s ++ s.dropWhile (· ≠ c) = s := takeWhile_append_dropWhile
  cases hdrop : s.dropWhile (· ≠ c) with
  | nil => exact absurd rfl (of_decide_eq_true (dropWhile_eq_nil_iff.mp hdrop c h))
  | cons x rest =>
    have hx := List.head?_dropWhile_not (fun x => decide (x ≠ c)) s
    rw [hdrop, List.head?_cons] at hx
    have hxc : x = c := by simpa using hx
    unfold after
    rw [hdrop, ← hxc]
    rw [hdrop, hxc] at hparts
    rw [hxc]
    exact hparts.symm

theorem afterLast_of_notMem (h : c ∉ s) : afterLast c s = s := by
  have hself : s.reverse.takeWhile (· ≠ c) = s.reverse := before_of_notMem (by simpa using h)
  unfold afterLast
  rw [hself, reverse_reverse]

theorem notMem_afterLast (c : Char) (s : List Char) : c ∉ afterLast c s := by
  unfold afterLast
  rw [mem_reverse]
  exact notMem_before c s.reverse

theorem afterLast_suffix (c : Char) (s : List Char) : afterLast c s <:+ s := by
  unfold afterLast
  rw [← reverse_prefix, reverse_reverse]
  exact takeWhile_prefix _

theorem mem_splitOn {piece : List Char} (h : piece ∈ s.splitOn c) : c ∉ piece ∧ piece ⊆ s := by
  induction s generalizing piece with
  | nil =>
    rw [splitOn_nil, mem_singleton] at h
    subst h
    exact ⟨not_mem_nil, fun _ hx => hx⟩
  | cons x s ih =>
    rw [splitOn_cons_eq_if_modifyHead] at h
    split_ifs at h with hx
    · rcases mem_cons.mp h with rfl | h
      · exact ⟨not_mem_nil, nil_subset _⟩
      · exact ⟨(ih h).1, subset_cons_of_subset _ (ih h).2⟩
    · cases hsplit : s.splitOn c with
      | nil => exact absurd hsplit (splitOn_ne_nil c s)
      | cons first rest =>
        rw [hsplit, modifyHead_cons] at h
        rw [hsplit] at ih
        rcases mem_cons.mp h with rfl | h
        · obtain ⟨hnot, hsub⟩ := ih (mem_cons_self ..)
          refine ⟨?_, cons_subset_cons x hsub⟩
          rw [mem_cons, not_or]
          exact ⟨fun heq => hx (beq_iff_eq.mpr heq.symm), hnot⟩
        · obtain ⟨hnot, hsub⟩ := ih (mem_cons_of_mem _ h)
          exact ⟨hnot, subset_cons_of_subset _ hsub⟩

end

/-! ## Characters -/

theorem isSchemeChar_toLower (c : Char) : isSchemeChar c.toLower = isSchemeChar c := by
  refine ascii_or (fun c => isSchemeChar c.toLower = isSchemeChar c) (by decide)
    (fun c hc => ?_) c
  rw [toLower_of_not_ascii hc]

theorem isAscii_of_isAlphanum {c : Char} (h : c.isAlphanum) : isAscii c := by
  have hle : c.toNat ≤ 122 := by
    unfold Char.isAlphanum Char.isAlpha Char.isUpper Char.isLower Char.isDigit at h
    simp only [Bool.or_eq_true, Bool.and_eq_true, decide_eq_true_eq] at h
    rcases h with (h | h) | h
    · exact (UInt32.le_iff_toNat_le.mp h.2).trans (by decide)
    · exact (UInt32.le_iff_toNat_le.mp h.2).trans (by decide)
    · exact (UInt32.le_iff_toNat_le.mp h.2).trans (by decide)
  exact decide_eq_true (by omega)

theorem isAscii_of_isUnreserved {c : Char} (h : isUnreserved c) : isAscii c := by
  unfold isUnreserved at h
  simp only [Bool.or_eq_true, decide_eq_true_eq] at h
  rcases h with (((h | rfl) | rfl) | rfl) | rfl
  · exact isAscii_of_isAlphanum h
  · decide
  · decide
  · decide
  · decide

def isInside (c : Char) : Bool := 0x20 ≤ c.toNat && !isNetlocEnd c

/-! ## Schemes -/

structure IsScheme (s : List Char) : Prop where
  head : s.head?.any Char.isAlpha = true
  chars : ∀ c ∈ s, isSchemeChar c
  lower : s.map Char.toLower = s

theorem IsScheme.colon {s : List Char} (h : IsScheme s) : ':' ∉ s := by
  intro hc
  exact absurd (h.chars _ hc) (by decide)

variable (url : List Char) {scheme : List Char}

theorem splitScheme_scheme : (splitScheme url).1 = [] ∨ IsScheme (splitScheme url).1 := by
  unfold splitScheme
  dsimp only
  split_ifs with h
  · obtain ⟨-, hhead, hchars⟩ := h
    refine Or.inr ⟨?_, ?_, ?_⟩
    · cases hs : before ':' url with
      | nil =>
        rw [hs] at hhead
        cases hhead
      | cons c rest =>
        rw [hs] at hhead
        exact (isAlpha_toLower c).trans hhead
    · intro c hc
      obtain ⟨c', hc', rfl⟩ := mem_map.mp hc
      exact (isSchemeChar_toLower c').trans (all_eq_true.mp hchars c' hc')
    · rw [map_map]
      exact map_congr_left fun c _ => toLower_toLower c
  · exact Or.inl rfl

theorem splitScheme_subset : (splitScheme url).2 ⊆ url := by
  unfold splitScheme
  dsimp only
  split_ifs
  · exact after_subset ':' url
  · exact fun _ h => h

theorem splitScheme_written (h : IsScheme (scheme.map Char.toLower)) (rest : List Char) :
    splitScheme (scheme ++ ':' :: rest) = (scheme.map Char.toLower, rest) := by
  have hchars : ∀ c ∈ scheme, isSchemeChar c := fun c hc =>
    (isSchemeChar_toLower c).symm.trans (h.chars _ (mem_map_of_mem hc))
  have hcolon : ':' ∉ scheme := fun hc => absurd (hchars _ hc) (by decide)
  have hhead : scheme.head?.any Char.isAlpha := by
    cases scheme with
    | nil => exact h.head
    | cons c scheme => exact (isAlpha_toLower c).symm.trans h.head
  unfold splitScheme
  rw [before_append hcolon, after_append hcolon, if_pos]
  exact ⟨by simp, hhead, all_eq_true.mpr hchars⟩

theorem splitScheme_append (h : IsScheme scheme) (rest : List Char) :
    splitScheme (scheme ++ ':' :: rest) = (scheme, rest) := by
  have hwritten := splitScheme_written (h.lower.symm ▸ h : IsScheme (scheme.map Char.toLower)) rest
  rw [h.lower] at hwritten
  exact hwritten

theorem splitScheme_slash (rest : List Char) : splitScheme ('/' :: rest) = ([], '/' :: rest) := by
  unfold splitScheme
  rw [if_neg]
  rintro ⟨-, hhead, -⟩
  have hslash : Char.isAlpha '/' = true := hhead
  exact absurd hslash (by decide)

def schemed (scheme rest : List Char) : List Char :=
  if scheme ≠ [] then scheme ++ ':' :: rest else rest

/-! ## Netlocs -/

theorem splitNetloc_append {netloc tail : List Char} (h : ∀ c ∈ netloc, isNetlocEnd c = false)
    (htail : ∀ c ∈ tail.head?, isNetlocEnd c) :
    splitNetloc ('/' :: '/' :: netloc ++ tail) = (netloc, tail) := by
  have hall : ∀ c ∈ netloc, (!isNetlocEnd c) = true := fun c hc => by rw [h c hc]; rfl
  have hsplit : splitNetloc ('/' :: '/' :: netloc ++ tail) =
      ((netloc ++ tail).takeWhile (!isNetlocEnd ·), (netloc ++ tail).dropWhile (!isNetlocEnd ·)) :=
    rfl
  rw [hsplit, takeWhile_append_of_pos hall, dropWhile_append_of_pos hall]
  cases tail with
  | nil => simp
  | cons c tail =>
    have hc : isNetlocEnd c = true := htail c rfl
    simp [hc]

theorem splitNetloc_of_not_slashes {rest : List Char} (h : ¬['/', '/'] <+: rest) :
    splitNetloc rest = ([], rest) := by
  unfold splitNetloc
  split
  · next rest => exact absurd ⟨rest, rfl⟩ h
  · rfl

theorem splitNetloc_eq (rest : List Char) :
    (∃ netloc tail, splitNetloc rest = (netloc, tail) ∧ rest = '/' :: '/' :: netloc ++ tail ∧
        (∀ c ∈ netloc, isNetlocEnd c = false) ∧ ∀ c ∈ tail.head?, isNetlocEnd c) ∨
      splitNetloc rest = ([], rest) ∧ ¬['/', '/'] <+: rest := by
  by_cases h : ['/', '/'] <+: rest
  · obtain ⟨rest, rfl⟩ := h
    refine Or.inl ⟨rest.takeWhile (!isNetlocEnd ·), rest.dropWhile (!isNetlocEnd ·), rfl, ?_, ?_, ?_⟩
    · exact congrArg (fun t => '/' :: '/' :: t) takeWhile_append_dropWhile.symm
    · intro c hc
      simpa using mem_takeWhile_imp hc
    · intro c hc
      have hnot := List.head?_dropWhile_not (fun c => !isNetlocEnd c) rest
      rw [Option.mem_def.mp hc] at hnot
      simpa using hnot
  · exact Or.inr ⟨splitNetloc_of_not_slashes h, h⟩

/-! ## Splitting -/

structure SplitResult.Sound (parts : SplitResult) : Prop where
  scheme : parts.scheme = [] ∨ IsScheme parts.scheme
  netloc : ∀ c ∈ parts.netloc, isInside c
  path : ∀ c ∈ parts.path, 0x20 ≤ c.toNat ∧ c ≠ '?' ∧ c ≠ '#'
  absolute : parts.netloc ≠ [] → ∀ c ∈ parts.path.head?, c = '/'
  query : ∀ c ∈ parts.query, 0x20 ≤ c.toNat ∧ c ≠ '#'

theorem prepared_subset : prepared url ⊆ url :=
  fun _ hc => (dropWhile_suffix _).subset (mem_of_mem_filter hc)

variable {py : Unicode}

variable {url : List Char}

theorem urlsplit_eq_some {parts : SplitResult}
    (h : py.urlsplit url = some parts) :
    let split := splitScheme (prepared url)
    let located := splitNetloc split.2
    py.bracketsAccepted located.1 ∧ py.checkNetloc located.1 ∧
      parts = ⟨split.1, located.1, before '?' (before '#' located.2),
        after '?' (before '#' located.2), after '#' located.2⟩ := by
  unfold Unicode.urlsplit at h
  dsimp only at h ⊢
  split_ifs at h with haccepted
  exact ⟨haccepted.1, haccepted.2, (Option.some.inj h).symm⟩

theorem head?_before {c d : Char} {s : List Char} (h : c ∈ (before d s).head?) : c ∈ s.head? := by
  obtain ⟨rest, hrest⟩ : before d s <+: s := takeWhile_prefix _
  cases hs : before d s with
  | nil =>
    rw [hs] at h
    cases h
  | cons x front =>
    rw [hs] at h
    rw [← hrest, hs]
    exact h

theorem locator_sound {tail : List Char} (h : ∀ c ∈ tail, 0x20 ≤ c.toNat) :
    (∀ c ∈ before '?' (before '#' tail), 0x20 ≤ c.toNat ∧ c ≠ '?' ∧ c ≠ '#') ∧
      ∀ c ∈ after '?' (before '#' tail), 0x20 ≤ c.toNat ∧ c ≠ '#' := by
  constructor
  · intro c hc
    have hlocator := before_subset '?' _ hc
    refine ⟨h c (before_subset '#' _ hlocator), ?_, ?_⟩
    · exact fun heq => notMem_before '?' _ (heq ▸ hc)
    · exact fun heq => notMem_before '#' _ (heq ▸ hlocator)
  · intro c hc
    have hlocator := after_subset '?' _ hc
    refine ⟨h c (before_subset '#' _ hlocator), ?_⟩
    exact fun heq => notMem_before '#' _ (heq ▸ hlocator)

theorem urlsplit_sound {parts : SplitResult} (hurl : ∀ c ∈ url, 0x20 ≤ c.toNat)
    (h : py.urlsplit url = some parts) :
    parts.Sound ∧ py.bracketsAccepted parts.netloc ∧ py.checkNetloc parts.netloc := by
  obtain ⟨hbrackets, hcheck, rfl⟩ := urlsplit_eq_some h
  refine ⟨?_, hbrackets, hcheck⟩
  have hrest : ∀ c ∈ (splitScheme (prepared url)).2, 0x20 ≤ c.toNat :=
    fun c hc => hurl c (prepared_subset url (splitScheme_subset _ hc))
  have hscheme := splitScheme_scheme (prepared url)
  rcases splitNetloc_eq (splitScheme (prepared url)).2 with
    ⟨netloc, tail, hsplit, hjoined, hnetloc, htail⟩ | ⟨hsplit, -⟩
  · rw [hjoined] at hrest
    obtain ⟨hpath, hquery⟩ := locator_sound fun c hc => hrest c (mem_append_right _ hc)
    rw [hsplit]
    refine ⟨hscheme, fun c hc => ?_, hpath, fun _ c hc => ?_, hquery⟩
    · have hmem : c ∈ '/' :: '/' :: netloc ++ tail :=
        mem_append_left _ (mem_cons_of_mem _ (mem_cons_of_mem _ hc))
      unfold isInside
      rw [hnetloc c hc]
      simpa using hrest c hmem
    · have hend := htail c (head?_before (head?_before hc))
      obtain ⟨-, hquestion, hfragment⟩ := hpath c (mem_of_mem_head? hc)
      simpa [isNetlocEnd, hquestion, hfragment] using hend
  · obtain ⟨hpath, hquery⟩ := locator_sound hrest
    rw [hsplit]
    exact ⟨hscheme, fun c hc => absurd hc not_mem_nil, hpath, fun hne => absurd rfl hne, hquery⟩

/-! ## Splitting what was put together -/

def questioned (query : List Char) : List Char := if query ≠ [] then '?' :: query else []

theorem prepared_eq (hurl : ∀ c ∈ url, 0x20 ≤ c.toNat)
    (hhead : ∀ c ∈ url.head?, c.toNat ≠ 0x20) : prepared url = url := by
  have hdrop : url.dropWhile (fun c => c.toNat ≤ 32) = url := by
    cases url with
    | nil => rfl
    | cons c rest =>
      have hc := hurl c (mem_cons_self ..)
      have hne := hhead c rfl
      exact dropWhile_cons_of_neg (by simp; omega)
  unfold prepared
  rw [hdrop, filter_eq_self]
  intro c hc
  have hle := hurl c hc
  have hkept : c ≠ '\t' ∧ c ≠ '\r' ∧ c ≠ '\n' := by
    refine ⟨?_, ?_, ?_⟩ <;> rintro rfl <;> exact absurd hle (by decide)
  exact decide_eq_true hkept

theorem IsScheme.ne_nil (h : IsScheme scheme) : scheme ≠ [] := by
  rintro rfl
  exact absurd h.head (by decide)

theorem IsScheme.le (h : IsScheme scheme) : ∀ c ∈ scheme, 0x20 < c.toNat := by
  intro c hc
  refine ascii_or (fun c => isSchemeChar c = true → 0x20 < c.toNat) (by decide)
    (fun c hascii _ => by omega) c (h.chars c hc)

theorem prepared_schemed {scheme rest : List Char} (hscheme : IsScheme scheme)
    (hrest : ∀ c ∈ rest, 0x20 ≤ c.toNat) :
    prepared (scheme ++ ':' :: rest) = scheme ++ ':' :: rest := by
  apply prepared_eq
  · intro c hc
    rcases mem_append.mp hc with hc | hc
    · exact (hscheme.le c hc).le
    · rcases mem_cons.mp hc with rfl | hc
      · decide
      · exact hrest c hc
  · intro c hc
    have hmem : c ∈ scheme := by
      cases scheme with
      | nil => exact absurd rfl hscheme.ne_nil
      | cons x scheme =>
        cases hc
        exact mem_cons_self ..
    exact (hscheme.le c hmem).ne'

theorem candidate_eq (hurl : ∀ c ∈ url, 0x20 ≤ c.toNat)
    (hhead : ∀ c ∈ url.head?, isSpace c = false) (hlast : ∀ c ∈ url.getLast?, isSpace c = false) :
    candidate url = url := by
  have hfront : url.dropWhile isSpace = url := by
    cases url with
    | nil => rfl
    | cons c rest => exact dropWhile_cons_of_neg (ne_true_of_eq_false (hhead c rfl))
  have hback : url.rdropWhile isSpace = url := by
    rw [rdropWhile_eq_self_iff]
    intro hne
    exact ne_true_of_eq_false (hlast _ (getLast_mem_getLast? hne))
  unfold candidate stripEnds
  rw [hfront, hback, filter_eq_self]
  exact fun c hc => decide_eq_true (hurl c hc)

theorem splitNetloc_located {netloc path query : List Char} (hnetloc : ∀ c ∈ netloc, isInside c)
    (habsolute : ∀ c ∈ path.head?, c = '/') :
    splitNetloc ('/' :: '/' :: netloc ++ (path ++ questioned query)) =
      (netloc, path ++ questioned query) := by
  apply splitNetloc_append
  · intro c hc
    have hinside := hnetloc c hc
    simpa using (Bool.and_eq_true_iff.mp hinside).2
  · intro c hc
    cases path with
    | nil =>
      unfold questioned at hc
      split_ifs at hc
      · cases hc
        decide
      · cases hc
    | cons x path =>
      obtain rfl := Option.some.inj hc
      rw [habsolute x rfl]
      decide

section

variable {path query : List Char} (hpath : ∀ c ∈ path, 0x20 ≤ c.toNat ∧ c ≠ '?' ∧ c ≠ '#')
  (hquery : ∀ c ∈ query, 0x20 ≤ c.toNat ∧ c ≠ '#')

include hpath hquery

theorem locator_questioned :
    '#' ∉ path ++ questioned query ∧
      before '?' (path ++ questioned query) = path ∧
      after '?' (path ++ questioned query) = query := by
  have hquestion : '?' ∉ path := fun h => (hpath _ h).2.1 rfl
  have hfragment : '#' ∉ path ++ questioned query := by
    intro h
    rcases mem_append.mp h with h | h
    · exact (hpath _ h).2.2 rfl
    · unfold questioned at h
      split_ifs at h
      · rcases mem_cons.mp h with h | h
        · exact absurd h (by decide)
        · exact (hquery _ h).2 rfl
      · cases h
  refine ⟨hfragment, ?_, ?_⟩
  · unfold questioned
    split_ifs
    · exact before_append hquestion query
    · rw [append_nil]
      exact before_of_notMem hquestion
  · unfold questioned
    split_ifs with hne
    · exact after_append hquestion query
    · rw [append_nil, not_not.mp hne]
      exact after_of_notMem hquestion

theorem le_questioned : ∀ c ∈ path ++ questioned query, 0x20 ≤ c.toNat := by
  intro c hc
  rcases mem_append.mp hc with hc | hc
  · exact (hpath c hc).1
  · unfold questioned at hc
    split_ifs at hc
    · rcases mem_cons.mp hc with rfl | hc
      · decide
      · exact (hquery c hc).1
    · cases hc

theorem urlsplit_located {scheme netloc : List Char} (hscheme : scheme = [] ∨ IsScheme scheme)
    (hnetloc : ∀ c ∈ netloc, isInside c) (habsolute : ∀ c ∈ path.head?, c = '/') :
    py.urlsplit (schemed scheme ('/' :: '/' :: netloc ++ (path ++ questioned query))) =
      if py.bracketsAccepted netloc ∧ py.checkNetloc netloc then
        some ⟨scheme, netloc, path, query, []⟩
      else none := by
  obtain ⟨hfragment, hbefore, hafter⟩ := locator_questioned hpath hquery
  have hrest : ∀ c ∈ '/' :: '/' :: netloc ++ (path ++ questioned query), 0x20 ≤ c.toNat := by
    intro c hc
    rcases mem_append.mp hc with hc | hc
    · rcases mem_cons.mp hc with rfl | hc
      · decide
      · rcases mem_cons.mp hc with rfl | hc
        · decide
        · have hinside := hnetloc c hc
          simpa using (Bool.and_eq_true_iff.mp hinside).1
    · exact le_questioned hpath hquery c hc
  have hsplit : splitScheme (prepared (schemed scheme
      ('/' :: '/' :: netloc ++ (path ++ questioned query)))) =
        (scheme, '/' :: '/' :: netloc ++ (path ++ questioned query)) := by
    rcases hscheme with rfl | hscheme
    · rw [schemed, if_neg (not_not.mpr rfl), prepared_eq hrest (by rintro _ ⟨⟩; decide)]
      exact splitScheme_slash _
    · rw [schemed, if_pos hscheme.ne_nil, prepared_schemed hscheme hrest]
      exact splitScheme_append hscheme _
  unfold Unicode.urlsplit
  rw [hsplit]
  dsimp only
  rw [splitNetloc_located hnetloc habsolute]
  rw [before_of_notMem hfragment, hbefore, hafter, after_of_notMem hfragment]

theorem urlsplit_opaque {scheme : List Char} (hscheme : IsScheme scheme)
    (hslashes : ¬['/', '/'] <+: path) :
    py.urlsplit (scheme ++ ':' :: (path ++ questioned query)) =
      some ⟨scheme, [], path, query, []⟩ := by
  obtain ⟨hfragment, hbefore, hafter⟩ := locator_questioned hpath hquery
  have hnone : ¬['/', '/'] <+: path ++ questioned query := by
    have hquestion : ∀ c ∈ (questioned query).head?, c = '?' := by
      unfold questioned
      split_ifs
      · rintro _ ⟨⟩
        rfl
      · rintro _ ⟨⟩
    rintro ⟨rest, hrest⟩
    rcases path with _ | ⟨x, _ | ⟨y, path⟩⟩
    · rw [nil_append] at hrest
      exact absurd (hquestion '/' (hrest ▸ rfl)) (by decide)
    · have hsecond : '/' :: rest = questioned query := (List.cons.inj hrest).2
      exact absurd (hquestion '/' (hsecond ▸ rfl)) (by decide)
    · obtain ⟨hx, hsecond⟩ := List.cons.inj hrest
      obtain ⟨hy, -⟩ := List.cons.inj hsecond
      exact hslashes ⟨path, by rw [← hx, ← hy]; rfl⟩
  unfold Unicode.urlsplit
  rw [prepared_schemed hscheme (le_questioned hpath hquery), splitScheme_append hscheme]
  dsimp only
  rw [splitNetloc_of_not_slashes hnone]
  rw [before_of_notMem hfragment, hbefore, hafter, after_of_notMem hfragment]
  exact if_pos ⟨rfl, rfl⟩

end

end OmniSense.Enrichment.Url
