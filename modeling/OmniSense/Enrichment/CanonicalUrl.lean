import OmniSense.Enrichment.UrlHosts
import OmniSense.Enrichment.UrlNormalForms

/-! When canonicalizing a URL once more changes nothing. -/

namespace OmniSense.Enrichment.Url

open Library Library.Percent List Option Unicode

variable {py : Unicode} {tame : Char → Prop}

/-! ## Putting a URL together -/

theorem urlunsplit_eq (scheme : List Char) {netloc path query : List Char}
    (hpath : path.head? = some '/') :
    urlunsplit scheme netloc path query =
      schemed scheme ('/' :: '/' :: netloc ++ (path ++ questioned query)) := by
  have hkept : ¬(path ≠ [] ∧ path.head? ≠ some '/') := fun h => h.2 hpath
  unfold urlunsplit schemed questioned
  rw [if_neg hkept]
  split_ifs
  · simp
  · simp
  · simp
  · simp

theorem schemed_injective {scheme rest rest' : List Char}
    (h : schemed scheme rest = schemed scheme rest') : rest = rest' := by
  unfold schemed at h
  split_ifs at h
  · exact (List.cons.inj (append_cancel_left h)).2
  · exact h

structure Locates (path query : List Char) : Prop where
  pathChars : ∀ c ∈ path, 0x20 ≤ c.toNat ∧ c ≠ '?' ∧ c ≠ '#'
  absolute : ∀ c ∈ path.head?, c = '/'
  queryChars : ∀ c ∈ query, 0x20 ≤ c.toNat ∧ c ≠ '#'

theorem head?_canonicalPath' {path : List Char} (h : ∀ c ∈ path.head?, c = '/') :
    (canonicalPath path).head? = some '/' := by
  cases path with
  | nil => rfl
  | cons c tail =>
    obtain rfl := h c rfl
    exact head?_canonicalPath rfl

theorem locates_canonical {path : List Char} (h : ∀ c ∈ path.head?, c = '/') (query : List Char) :
    Locates (canonicalPath path) (py.canonicalQuery query) := by
  refine ⟨fun c hc => ?_, fun c hc => ?_, fun c hc => ?_⟩
  · exact (canonicalPath_chars path c hc).2
  · rw [head?_canonicalPath' h] at hc
    exact (Option.some.inj hc).symm
  · exact (canonicalQuery_chars query c hc).2

theorem located_injective {scheme netloc netloc' path path' query query' : List Char}
    (hnetloc : ∀ c ∈ netloc, isInside c) (hnetloc' : ∀ c ∈ netloc', isInside c)
    (h : Locates path query) (h' : Locates path' query')
    (heq : schemed scheme ('/' :: '/' :: netloc ++ (path ++ questioned query)) =
      schemed scheme ('/' :: '/' :: netloc' ++ (path' ++ questioned query'))) :
    netloc = netloc' ∧ path = path' ∧ query = query' := by
  have hsplit := congrArg splitNetloc (schemed_injective heq)
  rw [splitNetloc_located hnetloc h.absolute, splitNetloc_located hnetloc' h'.absolute] at hsplit
  obtain ⟨hsame, hrest⟩ := Prod.mk.inj hsplit
  obtain ⟨-, hbefore, hafter⟩ := locator_questioned h.pathChars h.queryChars
  obtain ⟨-, hbefore', hafter'⟩ := locator_questioned h'.pathChars h'.queryChars
  refine ⟨hsame, ?_, ?_⟩
  · rw [← hbefore, hrest, hbefore']
  · rw [← hafter, hrest, hafter']

/-! ## Once more -/

theorem candidate_le (url : List Char) : ∀ c ∈ candidate url, 0x20 ≤ c.toNat :=
  fun _ hc => of_decide_eq_true (mem_filter.mp hc).2

theorem canonicalizeUrl_none (url : List Char) :
    py.canonicalizeUrl none url = (py.urlsplit (candidate url)).bind py.canonicalOf := by
  unfold canonicalizeUrl
  split_ifs with hblank
  · have hcandidate : candidate url = [] := by
      unfold candidate
      rw [hblank]
      rfl
    rw [hcandidate]
    rfl
  · rfl

theorem located_repeats (laws : py.Lawful tame) {scheme netloc path query : List Char}
    (hscheme : scheme = [] ∨ IsScheme scheme) (hnetloc : ∀ c ∈ netloc, isInside c)
    (hne : netloc ≠ []) (h : Locates path query)
    (hcandidate : candidate (schemed scheme ('/' :: '/' :: netloc ++ (path ++ questioned query))) =
      schemed scheme ('/' :: '/' :: netloc ++ (path ++ questioned query))) :
    py.canonicalizeUrl none (schemed scheme ('/' :: '/' :: netloc ++ (path ++ questioned query))) =
        some (schemed scheme ('/' :: '/' :: netloc ++ (path ++ questioned query))) ↔
      py.Canonical scheme netloc ∧ canonicalPath path = path ∧ py.canonicalQuery query = query := by
  have hhead := head?_canonicalPath' h.absolute
  rw [canonicalizeUrl_none, hcandidate,
    urlsplit_located h.pathChars h.queryChars hscheme hnetloc h.absolute]
  split_ifs with haccepted
  · unfold canonicalOf
    rw [bind_some, if_neg hne]
    rw [map_eq_some_iff]
    constructor
    · rintro ⟨canonical, hcanonical, heq⟩
      have hinside := canonicalNetloc_inside laws haccepted.2 hnetloc hcanonical
      split_ifs at heq with hnil
      · have hslash : '/' ∈ schemed scheme ('/' :: '/' :: netloc ++ (path ++ questioned query)) := by
          unfold schemed
          split_ifs <;> simp
        rw [← heq] at hslash
        cases hslash
      · rw [urlunsplit_eq scheme hhead] at heq
        obtain ⟨rfl, hpath, hquery⟩ :=
          located_injective hinside hnetloc (locates_canonical h.absolute query) h heq
        exact ⟨⟨haccepted.1, haccepted.2, hcanonical⟩, hpath, hquery⟩
    · rintro ⟨hcanonical, hpath, hquery⟩
      refine ⟨netloc, hcanonical.2.2, ?_⟩
      rw [if_neg hne, urlunsplit_eq scheme hhead, hpath, hquery]
  · constructor
    · intro hnone
      cases hnone
    · rintro ⟨⟨hbrackets, hcheck, -⟩, -⟩
      exact absurd ⟨hbrackets, hcheck⟩ haccepted

/-! ## Without a netloc -/

theorem length_before_after (c : Char) (s : List Char) :
    (before c s).length + (after c s).length ≤ s.length := by
  have hparts : before c s ++ s.dropWhile (· ≠ c) = s := takeWhile_append_dropWhile
  have hlength := congrArg List.length hparts
  have hdrop : (after c s).length ≤ (s.dropWhile (· ≠ c)).length := (drop_sublist 1 _).length_le
  rw [length_append] at hlength
  omega

variable {parts : SplitResult}

theorem length_opaque_le {url : List Char}
    (h : py.urlsplit url = some parts) (hscheme : parts.scheme ≠ []) :
    (parts.scheme ++ ':' :: (parts.path ++ questioned parts.query)).length ≤ url.length := by
  obtain ⟨-, -, rfl⟩ := urlsplit_eq_some h
  have hprepared : (prepared url).length ≤ url.length :=
    (filter_sublist.trans (dropWhile_suffix _).sublist).length_le
  have hsplit : (splitScheme (prepared url)).1.length + 1 + (splitScheme (prepared url)).2.length =
      (prepared url).length := by
    unfold splitScheme at hscheme ⊢
    dsimp only at hscheme ⊢
    split_ifs at hscheme ⊢ with hcolon
    · have hlength := congrArg List.length (eq_before_after hcolon.1)
      rw [length_append, length_cons] at hlength
      rw [length_map]
      dsimp only
      omega
    · exact absurd rfl hscheme
  have hrest : (splitNetloc (splitScheme (prepared url)).2).2.length ≤
      (splitScheme (prepared url)).2.length := by
    rcases splitNetloc_eq (splitScheme (prepared url)).2 with
      ⟨netloc, tail, hnetloc, hjoined, -⟩ | ⟨hnetloc, -⟩
    · rw [hnetloc, hjoined]
      exact (sublist_append_right _ _).length_le
    · rw [hnetloc]
  dsimp only at hscheme ⊢
  generalize (splitNetloc (splitScheme (prepared url)).2).2 = rest at hrest ⊢
  have hlocator : (before '#' rest).length ≤ rest.length :=
    (Nat.le_add_right _ _).trans (length_before_after '#' rest)
  have hquestioned : (before '?' (before '#' rest) ++
      questioned (after '?' (before '#' rest))).length ≤ (before '#' rest).length := by
    unfold questioned
    split_ifs with hquery
    · have hmem : '?' ∈ before '#' rest := by
        by_contra hnot
        exact hquery (after_of_notMem hnot)
      exact (congrArg List.length (eq_before_after hmem)).ge
    · rw [append_nil]
      exact (Nat.le_add_right _ _).trans (length_before_after '?' _)
  rw [length_append, length_cons]
  omega

theorem length_candidate_lt {url : List Char} {c : Char} (hc : c ∈ url.getLast?)
    (hspace : isSpace c = true) : (candidate url).length < url.length := by
  have hle : (candidate url).length ≤ (stripEnds isSpace url).length :=
    filter_sublist.length_le
  refine lt_of_le_of_ne (hle.trans (stripEnds_within isSpace url).length_le) fun heq => ?_
  have hself : stripEnds isSpace url = url :=
    (stripEnds_within isSpace url).sublist.eq_of_length_le (heq ▸ hle)
  obtain ⟨hne, rfl⟩ := mem_getLast?_eq_getLast hc
  have hback : (url.dropWhile isSpace).rdropWhile isSpace = url := hself
  have hlast := rdropWhile_last_not isSpace (url.dropWhile isSpace) (by rw [hback]; exact hne)
  simp only [hback] at hlast
  exact hlast hspace

theorem getLast?_located {path query : List Char} (front : List Char) (hpath : path ≠ [])
    (hpathChars : ∀ c ∈ path, isSpace c = false) (hqueryChars : ∀ c ∈ query, isSpace c = false) :
    ∀ c ∈ (front ++ (path ++ questioned query)).getLast?, isSpace c = false := by
  have htail : ∀ c ∈ path ++ questioned query, isSpace c = false := by
    intro c hc
    rcases mem_append.mp hc with hc | hc
    · exact hpathChars c hc
    · unfold questioned at hc
      split_ifs at hc
      · rcases mem_cons.mp hc with rfl | hc
        · decide
        · exact hqueryChars c hc
      · cases hc
  have hne : path ++ questioned query ≠ [] := append_ne_nil_of_left_ne_nil hpath _
  intro c hc
  rw [List.getLast?_append_of_ne_nil _ hne] at hc
  exact htail c (mem_of_mem_getLast? hc)

/-- What stands behind a scheme without a netloc is read back: no whitespace ends it, and where it
starts as a netloc would, all of it is canonical. -/
def Unicode.OpaqueRepeats (py : Unicode) (scheme path query : List Char) : Prop :=
  (∀ c ∈ (path ++ questioned query).getLast?, isSpace c = false) ∧
    ∀ rest, path = '/' :: '/' :: rest →
      let netloc := rest.takeWhile (!isNetlocEnd ·)
      let path := rest.dropWhile (!isNetlocEnd ·)
      netloc ≠ [] ∧ py.Canonical scheme netloc ∧ canonicalPath path = path ∧
        py.canonicalQuery query = query

def Unicode.Repeats (py : Unicode) (parts : SplitResult) : Prop :=
  let host := py.hostname parts.netloc
  if parts.netloc = [] then
    parts.scheme = [] ∨ py.OpaqueRepeats parts.scheme parts.path parts.query
  else py.canonicalHost host = [] ∨
    py.HostRepeats parts.scheme host (portOf parts.scheme parts.netloc) ∧
      hidesDots parts.path = false

theorem canonicalOf_hostless (hnetloc : parts.netloc = []) (hscheme : parts.scheme ≠ []) :
    py.canonicalOf parts =
      some (parts.scheme ++ ':' :: (parts.path ++ questioned parts.query)) := by
  unfold canonicalOf questioned
  rw [if_pos hnetloc, if_neg hscheme, append_assoc, cons_append]

theorem isSpace_of_isSchemeChar {c : Char} (h : isSchemeChar c) : isSpace c = false := by
  have hlow : ∀ n < 128, isSchemeChar (Char.ofNat n) → isSpace (Char.ofNat n) = false := by decide
  refine ascii_or (fun c => isSchemeChar c → isSpace c = false) hlow (fun c hc hscheme => ?_) c h
  have hascii : isAscii c := by
    unfold isSchemeChar at hscheme
    simp only [Bool.or_eq_true, decide_eq_true_eq] at hscheme
    rcases hscheme with ((hscheme | rfl) | rfl) | rfl
    · exact isAscii_of_isAlphanum hscheme
    · decide
    · decide
    · decide
  have hlt : c.toNat < 128 := of_decide_eq_true hascii
  omega

theorem IsScheme.head_isSpace {scheme : List Char} (h : IsScheme scheme) (rest : List Char) :
    ∀ c ∈ (scheme ++ ':' :: rest).head?, isSpace c = false := by
  intro c hc
  apply isSpace_of_isSchemeChar
  apply h.chars
  cases scheme with
  | nil => exact absurd rfl h.ne_nil
  | cons x scheme =>
    cases hc
    exact mem_cons_self ..

theorem schemed_eq_append (scheme netloc tail : List Char) :
    ∃ front, schemed scheme ('/' :: '/' :: netloc ++ tail) = front ++ tail := by
  unfold schemed
  split_ifs
  · exact ⟨scheme ++ ':' :: '/' :: '/' :: netloc, by simp⟩
  · exact ⟨'/' :: '/' :: netloc, rfl⟩

theorem getLast?_hostless (scheme : List Char) {path query : List Char}
    (hne : path ++ questioned query ≠ []) :
    (scheme ++ ':' :: (path ++ questioned query)).getLast? =
      (path ++ questioned query).getLast? := by
  rw [List.getLast?_append_of_ne_nil _ (cons_ne_nil _ _), ← singleton_append,
    List.getLast?_append_of_ne_nil _ hne]

section

variable {scheme path query : List Char} (hscheme : IsScheme scheme)
  (hpath : ∀ c ∈ path, 0x20 ≤ c.toNat ∧ c ≠ '?' ∧ c ≠ '#')
  (hquery : ∀ c ∈ query, 0x20 ≤ c.toNat ∧ c ≠ '#')

include hscheme hpath hquery

theorem candidate_opaque
    (hlast : ∀ c ∈ (path ++ questioned query).getLast?, isSpace c = false) :
    candidate (scheme ++ ':' :: (path ++ questioned query)) =
      scheme ++ ':' :: (path ++ questioned query) := by
  have hurl : ∀ c ∈ scheme ++ ':' :: (path ++ questioned query), 0x20 ≤ c.toNat := by
    intro c hc
    rcases mem_append.mp hc with hc | hc
    · exact (hscheme.le c hc).le
    · rcases mem_cons.mp hc with rfl | hc
      · decide
      · exact le_questioned hpath hquery c hc
  apply candidate_eq hurl (hscheme.head_isSpace _)
  intro c hc
  by_cases hnil : path ++ questioned query = []
  · rw [hnil, List.getLast?_append_of_ne_nil _ (cons_ne_nil _ _)] at hc
    cases hc
    decide
  · rw [getLast?_hostless scheme hnil] at hc
    exact hlast c hc

theorem slashes_repeats (laws : py.Lawful tame) {rest : List Char}
    (hslashes : path = '/' :: '/' :: rest)
    (hlast : ∀ c ∈ (path ++ questioned query).getLast?, isSpace c = false) :
    py.canonicalizeUrl none (scheme ++ ':' :: (path ++ questioned query)) =
        some (scheme ++ ':' :: (path ++ questioned query)) ↔
      rest.takeWhile (!isNetlocEnd ·) ≠ [] ∧
        py.Canonical scheme (rest.takeWhile (!isNetlocEnd ·)) ∧
        canonicalPath (rest.dropWhile (!isNetlocEnd ·)) = rest.dropWhile (!isNetlocEnd ·) ∧
        py.canonicalQuery query = query := by
  have hcandidate := candidate_opaque hscheme hpath hquery hlast
  have hcolon : ∀ text, schemed scheme text = scheme ++ ':' :: text :=
    fun text => if_pos hscheme.ne_nil
  have hrest : ∀ c ∈ rest, 0x20 ≤ c.toNat ∧ c ≠ '?' ∧ c ≠ '#' := fun c hc =>
    hpath c (hslashes ▸ mem_cons_of_mem _ (mem_cons_of_mem _ hc))
  have hlocates : Locates (rest.dropWhile (!isNetlocEnd ·)) query := by
    refine ⟨fun c hc => hrest c ((dropWhile_suffix _).subset hc), fun c hc => ?_, hquery⟩
    have hend := List.head?_dropWhile_not (fun c => !isNetlocEnd c) rest
    rw [mem_def.mp hc] at hend
    obtain ⟨-, hquestion, hfragment⟩ :=
      hrest c ((dropWhile_suffix _).subset (mem_of_mem_head? hc))
    simpa [isNetlocEnd, hquestion, hfragment] using hend
  have hinside : ∀ c ∈ rest.takeWhile (!isNetlocEnd ·), isInside c := by
    intro c hc
    unfold isInside
    rw [mem_takeWhile_imp hc, Bool.and_true]
    exact decide_eq_true (hrest c (( takeWhile_prefix _).subset hc)).1
  have hjoined : rest.takeWhile (!isNetlocEnd ·) ++ rest.dropWhile (!isNetlocEnd ·) = rest :=
    takeWhile_append_dropWhile
  generalize rest.takeWhile (!isNetlocEnd ·) = netloc at hinside hjoined ⊢
  generalize rest.dropWhile (!isNetlocEnd ·) = tail at hlocates hjoined ⊢
  have hsame : scheme ++ ':' :: (path ++ questioned query) =
      schemed scheme ('/' :: '/' :: netloc ++ (tail ++ questioned query)) := by
    rw [hcolon, hslashes, ← hjoined]
    simp
  rw [hsame] at hcandidate ⊢
  by_cases hne : netloc = []
  · -- A second pass drops the slashes.
    refine iff_of_false (fun hrepeats => ?_) fun h => h.1 hne
    rw [canonicalizeUrl_none, hcandidate, urlsplit_located hlocates.pathChars
      hlocates.queryChars (Or.inr hscheme) hinside hlocates.absolute, hne,
      if_pos ⟨rfl, rfl⟩, bind_some, canonicalOf_hostless rfl hscheme.ne_nil] at hrepeats
    have hlength := congrArg List.length (Option.some.inj hrepeats)
    rw [hcolon] at hlength
    simp at hlength
  · rw [located_repeats laws (Or.inr hscheme) hinside hne hlocates hcandidate]
    exact (and_iff_right hne).symm

omit hscheme hpath hquery

theorem blank_end_lost {c : Char} (hc : c ∈ (path ++ questioned query).getLast?)
    (hspace : isSpace c = true) :
    py.canonicalizeUrl none (scheme ++ ':' :: (path ++ questioned query)) ≠
      some (scheme ++ ':' :: (path ++ questioned query)) := by
  intro hrepeats
  have hend : c ∈ (scheme ++ ':' :: (path ++ questioned query)).getLast? := by
    rw [getLast?_hostless scheme]
    · exact hc
    · intro hnil
      rw [hnil] at hc
      cases hc
  rw [canonicalizeUrl_none] at hrepeats
  obtain ⟨parts, hparts, hcanonical⟩ := bind_eq_some_iff.mp hrepeats
  have hsound := (urlsplit_sound (candidate_le _) hparts).1
  by_cases hnetloc : parts.netloc = []
  · have hne : parts.scheme ≠ [] := by
      intro hnone
      unfold canonicalOf at hcanonical
      rw [if_pos hnetloc, if_pos hnone] at hcanonical
      rw [← Option.some.inj hcanonical] at hend
      cases hend
    rw [canonicalOf_hostless hnetloc hne] at hcanonical
    have hshort := length_opaque_le hparts hne
    rw [Option.some.inj hcanonical] at hshort
    exact absurd (length_candidate_lt hend hspace) (not_lt.mpr hshort)
  · -- With a netloc the end is a canonical path or query, which has no whitespace.
    unfold canonicalOf at hcanonical
    rw [if_neg hnetloc] at hcanonical
    obtain ⟨netloc, -, heq⟩ := map_eq_some_iff.mp hcanonical
    have hhead := head?_canonicalPath' (hsound.absolute hnetloc)
    split_ifs at heq with hempty
    · rw [← heq] at hend
      cases hend
    · obtain ⟨front, hfront⟩ := schemed_eq_append parts.scheme netloc
        (canonicalPath parts.path ++ questioned (py.canonicalQuery parts.query))
      rw [urlunsplit_eq _ hhead, hfront] at heq
      rw [← heq] at hend
      have hpathne : canonicalPath parts.path ≠ [] := by
        intro hnone
        rw [hnone] at hhead
        cases hhead
      have hvisible := getLast?_located front hpathne
        (fun c hc => (canonicalPath_chars _ c hc).1)
        (fun c hc => (canonicalQuery_chars _ c hc).1) c hend
      rw [hspace] at hvisible
      cases hvisible

include hscheme hpath hquery

theorem opaque_repeats (laws : py.Lawful tame) :
    py.canonicalizeUrl none (scheme ++ ':' :: (path ++ questioned query)) =
        some (scheme ++ ':' :: (path ++ questioned query)) ↔
      py.OpaqueRepeats scheme path query := by
  by_cases hlast : ∀ c ∈ (path ++ questioned query).getLast?, isSpace c = false
  · by_cases hslashes : ∃ rest, path = '/' :: '/' :: rest
    · obtain ⟨rest, hrest⟩ := hslashes
      rw [slashes_repeats hscheme hpath hquery laws hrest hlast]
      constructor
      · intro hcanonical
        refine ⟨hlast, fun rest' heq => ?_⟩
        obtain rfl : rest = rest' := (List.cons.inj (List.cons.inj (hrest.symm.trans heq)).2).2
        exact hcanonical
      · rintro ⟨-, hrepeats⟩
        exact hrepeats rest hrest
    · have hprefix : ¬['/', '/'] <+: path := by
        rintro ⟨rest, hrest⟩
        exact hslashes ⟨rest, hrest.symm⟩
      rw [canonicalizeUrl_none, candidate_opaque hscheme hpath hquery hlast,
        urlsplit_opaque hpath hquery hscheme hprefix, bind_some,
        canonicalOf_hostless rfl hscheme.ne_nil]
      exact iff_of_true rfl ⟨hlast, fun rest heq => absurd ⟨rest, heq⟩ hslashes⟩
  · refine iff_of_false ?_ fun h => hlast h.1
    obtain ⟨c, hc, hspace⟩ : ∃ c ∈ (path ++ questioned query).getLast?, isSpace c = true := by
      simpa using hlast
    exact blank_end_lost hc hspace

end

/-! ## With a netloc -/

theorem netloc_repeats (laws : py.Lawful tame) (hsound : parts.Sound)
    (hcheck : py.checkNetloc parts.netloc) (hnetloc : parts.netloc ≠ []) {canonical : List Char}
    (hcanonical : py.canonicalNetloc parts.scheme parts.netloc = some canonical)
    (hne : canonical ≠ []) :
    let url := urlunsplit parts.scheme canonical (canonicalPath parts.path)
      (py.canonicalQuery parts.query)
    py.canonicalizeUrl none url = some url ↔
      py.Canonical parts.scheme canonical ∧ hidesDots parts.path = false := by
  have habsolute := hsound.absolute hnetloc
  have hhead := head?_canonicalPath' habsolute
  have hinside := canonicalNetloc_inside laws hcheck hsound.netloc hcanonical
  have hlocates : Locates (canonicalPath parts.path) (py.canonicalQuery parts.query) :=
    locates_canonical habsolute _
  have hcandidate : candidate (schemed parts.scheme ('/' :: '/' :: canonical ++
      (canonicalPath parts.path ++ questioned (py.canonicalQuery parts.query)))) =
      schemed parts.scheme ('/' :: '/' :: canonical ++
        (canonicalPath parts.path ++ questioned (py.canonicalQuery parts.query))) := by
    have hrest : ∀ c ∈ '/' :: '/' :: canonical ++
        (canonicalPath parts.path ++ questioned (py.canonicalQuery parts.query)),
        0x20 ≤ c.toNat := by
      intro c hc
      rcases mem_append.mp hc with hc | hc
      · rcases mem_cons.mp hc with rfl | hc
        · decide
        · rcases mem_cons.mp hc with rfl | hc
          · decide
          · have hc := hinside c hc
            exact of_decide_eq_true (Bool.and_eq_true_iff.mp hc).1
      · exact le_questioned hlocates.pathChars hlocates.queryChars c hc
    have hpathne : canonicalPath parts.path ≠ [] := by
      intro hnone
      rw [hnone] at hhead
      cases hhead
    apply candidate_eq
    · intro c hc
      rcases hsound.scheme with hnone | hscheme
      · rw [schemed, if_neg (not_not.mpr hnone)] at hc
        exact hrest c hc
      · rw [schemed, if_pos hscheme.ne_nil] at hc
        rcases mem_append.mp hc with hc | hc
        · exact (hscheme.le c hc).le
        · rcases mem_cons.mp hc with rfl | hc
          · decide
          · exact hrest c hc
    · rcases hsound.scheme with hnone | hscheme
      · rw [schemed, if_neg (not_not.mpr hnone)]
        rintro _ ⟨⟩
        decide
      · rw [schemed, if_pos hscheme.ne_nil]
        exact hscheme.head_isSpace _
    · obtain ⟨front, hfront⟩ := schemed_eq_append parts.scheme canonical
        (canonicalPath parts.path ++ questioned (py.canonicalQuery parts.query))
      rw [hfront]
      exact getLast?_located front hpathne (fun c hc => (canonicalPath_chars _ c hc).1)
        fun c hc => (canonicalQuery_chars _ c hc).1
  dsimp only
  rw [urlunsplit_eq _ hhead,
    located_repeats laws hsound.scheme hinside hne hlocates hcandidate,
    canonicalPath_settled habsolute]
  exact and_congr_right fun _ => and_iff_left (canonicalQuery_idem _)

/-- The canonical form of a URL is canonical exactly when its host is read back and no escape
hides a dot segment. -/
theorem canonicalizeUrl_repeats (laws : py.Lawful tame) {url canonical : List Char}
    {parts : SplitResult} (hparts : py.urlsplit (candidate url) = some parts)
    (hcanonical : py.canonicalizeUrl none url = some canonical) :
    py.canonicalizeUrl none canonical = some canonical ↔ py.Repeats parts := by
  obtain ⟨hsound, -, hcheck⟩ := urlsplit_sound (candidate_le url) hparts
  have hempty : py.canonicalizeUrl none [] = some [] := rfl
  rw [canonicalizeUrl_none, hparts, bind_some] at hcanonical
  unfold Repeats
  by_cases hnetloc : parts.netloc = []
  · rw [if_pos hnetloc]
    by_cases hscheme : parts.scheme = []
    · unfold canonicalOf at hcanonical
      rw [if_pos hnetloc, if_pos hscheme] at hcanonical
      rw [← Option.some.inj hcanonical]
      exact iff_of_true hempty (Or.inl hscheme)
    · rw [canonicalOf_hostless hnetloc hscheme] at hcanonical
      rw [← Option.some.inj hcanonical, opaque_repeats (hsound.scheme.resolve_left hscheme)
        hsound.path hsound.query laws, or_iff_right hscheme]
  · rw [if_neg hnetloc]
    unfold canonicalOf at hcanonical
    rw [if_neg hnetloc] at hcanonical
    obtain ⟨netloc, hread, hurl⟩ := map_eq_some_iff.mp hcanonical
    have hwritten := canonicalNetloc_eq_some hread
    dsimp only at hwritten
    by_cases hhost : py.canonicalHost (py.hostname parts.netloc) = []
    · rw [if_pos hhost] at hwritten
      rw [if_pos hwritten] at hurl
      rw [← hurl]
      exact iff_of_true hempty (Or.inl hhost)
    · rw [if_neg hhost] at hwritten
      have hne : netloc ≠ [] := hwritten ▸ netlocOf_ne_nil hhost _
      have hrepeats := netloc_repeats laws hsound hcheck hnetloc hread hne
      rw [if_neg hne] at hurl
      rw [← hurl, or_iff_right hhost, ← hostRepeats_iff laws hhost isPort_portOf, ← hwritten]
      exact hrepeats

def Unicode.ascii : Unicode := ⟨List.map Char.toLower, fun _ => none, id, fun _ => false⟩

theorem lawful_ascii : ascii.Lawful fun c => isInside c := by
  refine ⟨fun text _ => rfl, fun c hc => hc, fun netloc _ h => h, fun text h c hc => ?_,
    fun text encoded _ hnone => ?_, fun text h => h⟩
  · obtain ⟨d, hd, rfl⟩ := mem_map.mp hc
    rw [isInside_toLower]
    exact h d hd
  · cases hnone

theorem canonicalizeUrl_repeats_tracked :
    ascii.canonicalizeUrl none "https://h/~a".toList = some "https://h/~a".toList := by
  have hparts : ascii.urlsplit (candidate "HTTPS://H:443/x/../%7Ea?utm_id=1#f".toList) =
      some ⟨"https".toList, "H:443".toList, "/x/../%7Ea".toList, "utm_id=1".toList,
        "f".toList⟩ := by decide
  have hcanonical : ascii.canonicalizeUrl none
      "HTTPS://H:443/x/../%7Ea?utm_id=1#f".toList = some "https://h/~a".toList := by
    decide +kernel
  have hhost : trimmed (ascii.hostname "H:443".toList) = ['h'] := by decide +kernel
  have hbare : IsBare ['h'] := by
    refine ⟨by decide, forall_mem_of_all (by decide), ?_, ?_⟩
    · rintro c ⟨⟩
      decide
    · rintro c ⟨⟩
      decide
  refine (canonicalizeUrl_repeats lawful_ascii hparts hcanonical).mpr (Or.inr ⟨?_, ?_⟩)
  · unfold HostRepeats
    rw [hhost, if_pos (by decide)]
    exact Or.inl hbare
  · decide

/-- An escaped dot is read only after the dot segments are gone. -/
theorem hidden_dots_move :
    ¬∀ url canonical, ascii.canonicalizeUrl none url = some canonical →
      ascii.canonicalizeUrl none canonical = some canonical := by
  intro hrepeats
  have honce : ascii.canonicalizeUrl none "http://h/%2E%2E/a".toList =
      some "http://h/../a".toList := by decide
  have htwice : ascii.canonicalizeUrl none "http://h/../a".toList =
      some "http://h/a".toList := by decide
  have hsame := hrepeats _ _ honce
  rw [htwice] at hsame
  exact absurd hsame (by decide)

end OmniSense.Enrichment.Url
