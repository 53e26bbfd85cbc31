import OmniSense.Enrichment.CanonicalUrl

/-! Which URLs share a canonical form: the resource that the form still tells apart. -/

namespace OmniSense.Enrichment.Url

open Library Library.Percent List Unicode
open Option hiding all_map filter_map map_map

variable {py : Unicode} {tame : Char → Prop}

/-! ## Hosts and ports -/

/-- What the code relies on beside `Unicode.Lawful`: the lower case does not depend on the case of
ASCII letters, and no colon comes out of a host that has none. -/
structure Unicode.Separating (py : Unicode) (tame : Char → Prop) : Prop
    extends py.Lawful tame where
  lower_case : ∀ s t : List Char, s.map Char.toLower = t.map Char.toLower →
    py.lower s = py.lower t
  colon_lower : ∀ text : List Char, (∀ c ∈ text, tame c) → ':' ∈ py.lower text → ':' ∈ text
  colon_idna : ∀ text encoded : List Char, (∀ c ∈ text, tame c) → py.idna text = some encoded →
    ':' ∈ encoded → ':' ∈ text
  colon_nfkc : ∀ text : List Char, (∀ c ∈ text, tame c) → ':' ∈ py.nfkc text → ':' ∈ text

theorem colon_canonicalHost (laws : py.Separating tame) {netloc : List Char}
    (hcheck : py.checkNetloc netloc) (hinside : ∀ c ∈ netloc, isInside c) (hopen : '[' ∉ netloc) :
    ':' ∉ py.canonicalHost (py.hostname netloc) := by
  have htame := laws.accepted netloc hcheck hinside
  have hhost : ∀ c ∈ (hostinfo netloc).1, tame c :=
    fun c hc => htame c ((hostinfo_sublist netloc).subset hc)
  have hcolon : ':' ∉ (hostinfo netloc).1 := by
    have hinfo : '[' ∉ afterLast '@' netloc := fun h => hopen ((afterLast_suffix _ _).subset h)
    unfold hostinfo
    rw [if_neg hinfo]
    exact notMem_before ':' _
  have hfront : ∀ c ∈ before '%' (hostinfo netloc).1, tame c :=
    fun c hc => hhost c (before_subset '%' _ hc)
  have hname : (∀ c ∈ py.hostname netloc, tame c) ∧ ':' ∉ py.hostname netloc := by
    constructor
    · intro c hc
      rcases mem_append.mp hc with hc | hc
      · exact laws.lower _ hfront c hc
      · exact hhost c ((dropWhile_suffix _).subset hc)
    · intro hc
      rcases mem_append.mp hc with hc | hc
      · exact hcolon (before_subset '%' _ (laws.colon_lower _ hfront hc))
      · exact hcolon ((dropWhile_suffix _).subset hc)
  have hgiven : ∀ c ∈ trimmed (py.hostname netloc), tame c :=
    fun c hc => hname.1 c ((trimmed_sublist _).subset hc)
  have hlower : ':' ∉ py.lower (trimmed (py.hostname netloc)) := fun hc =>
    hname.2 ((trimmed_sublist _).subset (laws.colon_lower _ hgiven hc))
  have htamed := laws.lower _ hgiven
  unfold canonicalHost
  dsimp only
  split_ifs
  · exact hlower
  · cases hidna : py.idna (py.lower
        ((stripEnds isSpace (py.hostname netloc)).rdropWhile (· = '.'))) with
    | none => exact fun hc => hlower (laws.colon_nfkc _ htamed hc)
    | some encoded => exact fun hc => hlower (laws.colon_idna _ encoded htamed hidna hc)

theorem netlocOf_injective {host host' : List Char} {port port' : Option ℕ} (h : ':' ∉ host)
    (h' : ':' ∉ host') (heq : netlocOf host port = netlocOf host' port') :
    host = host' ∧ port = port' := by
  have hbefore : ∀ {host : List Char} (port : Option ℕ), ':' ∉ host →
      before ':' (netlocOf host port) = host := by
    intro host port h
    cases port with
    | none => rw [netlocOf_none, before_of_notMem h]
    | some p => rw [netlocOf_some, before_append h]
  have hhost : host = host' := by
    rw [← hbefore port h, heq, hbefore port' h']
  subst hhost
  refine ⟨rfl, ?_⟩
  have htail := append_cancel_left heq
  cases port with
  | none =>
    cases port' with
    | none => rfl
    | some p => exact absurd htail.symm (cons_ne_nil _ _)
  | some p =>
    cases port' with
    | none => exact absurd htail (cons_ne_nil _ _)
    | some q =>
      have hdigits : Nat.toDigits 10 p = Nat.toDigits 10 q := (List.cons.inj htail).2
      rw [← Nat.ofDigitChars_ten_toDigits (n := p), hdigits, Nat.ofDigitChars_ten_toDigits]

def IsHttp (scheme : List Char) : Prop := scheme = "http".toList ∨ scheme = "https".toList

def effectivePort (scheme netloc : List Char) : Option ℕ :=
  if (hostinfo netloc).2 = [] then DEFAULT_PORTS.lookup scheme else readPort (hostinfo netloc).2

variable {scheme : List Char}

theorem IsHttp.default (h : IsHttp scheme) :
    ∃ d, DEFAULT_PORTS.lookup scheme = some d ∧ ∀ p, (scheme, p) ∈ DEFAULT_PORTS ↔ p = d := by
  rcases h with rfl | rfl
  · exact ⟨80, rfl, fun p => by simp [DEFAULT_PORTS]⟩
  · exact ⟨443, rfl, fun p => by simp [DEFAULT_PORTS]⟩

theorem canonicalPort_inj (h : IsHttp scheme) {p q : ℕ}
    (heq : canonicalPort scheme (some p) = canonicalPort scheme (some q)) : p = q := by
  obtain ⟨d, -, hdefault⟩ := h.default
  unfold canonicalPort at heq
  rw [filter_some, filter_some] at heq
  simp only [hdefault] at heq
  split_ifs at heq with hp hq hq
  · exact Option.some.inj heq
  · simp at hp hq
    omega

theorem canonicalNetloc_eq (h : IsHttp scheme) (netloc : List Char) :
    py.canonicalNetloc scheme netloc =
      if py.canonicalHost (py.hostname netloc) = [] then some []
      else (effectivePort scheme netloc).map fun port =>
        netlocOf (py.canonicalHost (py.hostname netloc)) (canonicalPort scheme (some port)) := by
  obtain ⟨d, hlookup, hdefault⟩ := h.default
  unfold canonicalNetloc effectivePort
  dsimp only
  split_ifs
  · rfl
  · have hin : (scheme, d) ∈ DEFAULT_PORTS := (hdefault d).mpr rfl
    have hnone : canonicalPort scheme (some d) = none := filter_some_neg (by simpa using hin)
    rw [hlookup, map_some, hnone, netlocOf_none]
  · rfl

/-! ## Paths -/

/-- What a path says once its dot segments are gone; an empty path is the root. Escapes of
unreserved characters are those characters, and characters that have to be quoted their escapes. -/
def pathSymbols (path : List Char) : List Symbol :=
  let resolved := removeDotSegments path
  symbols isPathSafe isUnreserved (if resolved = [] then ['/'] else resolved)

theorem canonicalPath_inj {path path' : List Char} :
    canonicalPath path = canonicalPath path' ↔ pathSymbols path = pathSymbols path' := by
  have hrooted : ∀ path, canonicalPath path = normalizeEscapes isPathSafe isUnreserved
      (if removeDotSegments path = [] then ['/'] else removeDotSegments path) := by
    intro path
    unfold canonicalPath
    by_cases hnil : removeDotSegments path = []
    · rw [hnil]
      rfl
    · have hne : normalizeEscapes isPathSafe isUnreserved (removeDotSegments path) ≠ [] := by
        intro hempty
        have hsymbols := pathQuotable.symbols_spelling
          (pathQuotable.settled (removeDotSegments path))
        rw [← normalizeEscapes_eq, hempty] at hsymbols
        exact symbols_ne_nil hnil hsymbols.symm
      rw [if_neg hne, if_neg hnil]
  rw [hrooted, hrooted, pathQuotable.normalizeEscapes_inj]
  rfl

/-! ## Queries -/

def Unicode.parameters (py : Unicode) (query : List Char) : List (List Char × List Char) :=
  (parseQsl query).filter fun pair => !py.isTrackingParam pair.1

theorem canonicalQuery_inj {query query' : List Char} :
    py.canonicalQuery query = py.canonicalQuery query' ↔
      (py.parameters query).Perm (py.parameters query') := by
  constructor
  · intro heq
    have hsorted := congrArg parseQsl heq
    rw [parseQsl_canonicalQuery, parseQsl_canonicalQuery] at hsorted
    exact (perm_insertionSort _ _).symm.trans
      (hsorted ▸ perm_insertionSort _ (py.parameters query'))
  · intro hperm
    have hsorted : (py.parameters query).insertionSort (fun a b => pairLe a b) =
        (py.parameters query').insertionSort fun a b => pairLe a b := by
      apply List.Perm.eq_of_pairwise' (r := fun a b => pairLe a b = true)
      · exact pairwise_insertionSort _ _
      · exact pairwise_insertionSort _ _
      · exact (perm_insertionSort _ _).trans
          (hperm.trans (perm_insertionSort _ _).symm)
    exact congrArg urlencode hsorted

variable (query : List Char)

def writtenPairs : List (List Char × List Char) :=
  if query = [] then []
  else ((query.splitOn '&').filter (· ≠ [])).map fun nameValue =>
    (before '=' nameValue, after '=' nameValue)

def spelledBytes (text : List Char) : List UInt8 :=
  unquoteToBytes (text.map fun c => if c = '+' then ' ' else c)

def Unicode.parameterBytes (py : Unicode) (query : List Char) : List (List UInt8 × List UInt8) :=
  ((writtenPairs query).filter fun pair => !py.isTrackingParam (unquotePlus pair.1)).map
    fun pair => (spelledBytes pair.1, spelledBytes pair.2)

def Legible : Prop :=
  ∀ pair ∈ writtenPairs query, utf8 (unquotePlus pair.1) = spelledBytes pair.1 ∧
    utf8 (unquotePlus pair.2) = spelledBytes pair.2

theorem parseQsl_eq :
    parseQsl query =
      (writtenPairs query).map fun pair => (unquotePlus pair.1, unquotePlus pair.2) := by
  unfold parseQsl writtenPairs
  split_ifs
  · rfl
  · rw [map_map]
    rfl

theorem parameterBytes_eq {query : List Char} (h : Legible query) :
    py.parameterBytes query =
      (py.parameters query).map fun pair => (utf8 pair.1, utf8 pair.2) := by
  unfold parameterBytes parameters
  rw [parseQsl_eq, filter_map, map_map]
  apply map_congr_left
  intro pair hpair
  obtain ⟨hname, hvalue⟩ := h pair (mem_of_mem_filter hpair)
  rw [Function.comp_apply, hname, hvalue]

/-! ## One resource -/

structure Unicode.SameResource (py : Unicode) (parts parts' : SplitResult) : Prop where
  scheme : parts.scheme = parts'.scheme
  host : py.canonicalHost (py.hostname parts.netloc) = py.canonicalHost (py.hostname parts'.netloc)
  port : effectivePort parts.scheme parts.netloc = effectivePort parts'.scheme parts'.netloc
  path : pathSymbols parts.path = pathSymbols parts'.path
  query : (py.parameters parts.query).Perm (py.parameters parts'.query)

theorem canonicalOf_congr {parts parts' : SplitResult} (hhttp : IsHttp parts.scheme)
    (hne : parts.netloc ≠ []) (hne' : parts'.netloc ≠ []) (h : py.SameResource parts parts') :
    py.canonicalOf parts = py.canonicalOf parts' := by
  have hnetloc : py.canonicalNetloc parts.scheme parts.netloc =
      py.canonicalNetloc parts'.scheme parts'.netloc := by
    rw [canonicalNetloc_eq hhttp, canonicalNetloc_eq (h.scheme ▸ hhttp), h.host, h.port, h.scheme]
  unfold canonicalOf
  rw [if_neg hne, if_neg hne', hnetloc, canonicalPath_inj.mpr h.path,
    canonicalQuery_inj.mpr h.query, h.scheme]

theorem schemed_scheme {scheme scheme' rest rest' : List Char} (h : IsScheme scheme)
    (h' : IsScheme scheme') (heq : schemed scheme rest = schemed scheme' rest') :
    scheme = scheme' := by
  rw [schemed, if_pos h.ne_nil, schemed, if_pos h'.ne_nil] at heq
  have hbefore := congrArg (before ':') heq
  rw [before_append h.colon, before_append h'.colon] at hbefore
  exact hbefore

theorem IsHttp.isScheme (h : IsHttp scheme) : IsScheme scheme := by
  rcases h with rfl | rfl
  · exact ⟨by decide, forall_mem_of_all (by decide), by decide⟩
  · exact ⟨by decide, forall_mem_of_all (by decide), by decide⟩

structure Unicode.Addresses (py : Unicode) (url : List Char) (parts : SplitResult) : Prop where
  split : py.urlsplit (candidate url) = some parts
  scheme : IsHttp parts.scheme
  netloc : parts.netloc ≠ []
  unbracketed : '[' ∉ parts.netloc

theorem sameResource_of_canonical (laws : py.Separating tame) {url url' canonical : List Char}
    {parts parts' : SplitResult} (h : py.Addresses url parts) (h' : py.Addresses url' parts')
    (hne : canonical ≠ []) (hcanonical : py.canonicalizeUrl none url = some canonical)
    (hcanonical' : py.canonicalizeUrl none url' = some canonical) :
    py.SameResource parts parts' := by
  have hwritten : ∀ {url : List Char} {parts : SplitResult}, py.Addresses url parts →
      py.canonicalizeUrl none url = some canonical →
      ∃ port, effectivePort parts.scheme parts.netloc = some port ∧
        canonical = schemed parts.scheme ('/' :: '/' ::
          netlocOf (py.canonicalHost (py.hostname parts.netloc))
            (canonicalPort parts.scheme (some port)) ++
          (canonicalPath parts.path ++ questioned (py.canonicalQuery parts.query))) := by
    intro url parts h hcanonical
    obtain ⟨hsound, -⟩ := urlsplit_sound (candidate_le url) h.split
    have hhead := head?_canonicalPath' (hsound.absolute h.netloc)
    rw [canonicalizeUrl_none, h.split, bind_some] at hcanonical
    unfold canonicalOf at hcanonical
    rw [if_neg h.netloc, canonicalNetloc_eq h.scheme] at hcanonical
    obtain ⟨netloc, hnetloc, hurl⟩ := map_eq_some_iff.mp hcanonical
    split_ifs at hurl with hempty
    · exact absurd hurl.symm hne
    · split_ifs at hnetloc
      · exact absurd (Option.some.inj hnetloc).symm hempty
      · obtain ⟨port, hport, rfl⟩ := map_eq_some_iff.mp hnetloc
        exact ⟨port, hport, by rw [← hurl, urlunsplit_eq _ hhead]⟩
  have hparts : ∀ {url : List Char} {parts : SplitResult}, py.Addresses url parts →
      ':' ∉ py.canonicalHost (py.hostname parts.netloc) ∧
      (∀ c ∈ py.canonicalHost (py.hostname parts.netloc), isInside c) ∧
      Locates (canonicalPath parts.path) (py.canonicalQuery parts.query) := by
    intro url parts h
    obtain ⟨hsound, -, hcheck⟩ := urlsplit_sound (candidate_le url) h.split
    exact ⟨colon_canonicalHost laws hcheck hsound.netloc h.unbracketed,
      canonicalHost_inside laws.toLawful hcheck hsound.netloc,
      locates_canonical (hsound.absolute h.netloc) _⟩
  obtain ⟨port, hport, hurl⟩ := hwritten h hcanonical
  obtain ⟨port', hport', hurl'⟩ := hwritten h' hcanonical'
  obtain ⟨hcolon, hinside, hlocates⟩ := hparts h
  obtain ⟨hcolon', hinside', hlocates'⟩ := hparts h'
  rw [hurl'] at hurl
  have hscheme := (schemed_scheme h'.scheme.isScheme h.scheme.isScheme hurl).symm
  rw [hscheme] at hurl hport
  obtain ⟨hnetloc, hpath, hquery⟩ := located_injective (netlocOf_inside hinside' _)
    (netlocOf_inside hinside _) hlocates' hlocates hurl
  obtain ⟨hhost, hkept⟩ := netlocOf_injective hcolon' hcolon hnetloc
  have hsame : port' = port := canonicalPort_inj h'.scheme hkept
  refine ⟨hscheme, hhost.symm, ?_, canonicalPath_inj.mp hpath.symm,
    canonicalQuery_inj.mp hquery.symm⟩
  rw [hscheme, hport, hport', hsame]

/-! ## Other spellings -/

structure Spelling where
  scheme : List Char
  netloc : List Char
  path : List Char
  query : List Char
  fragment : Option (List Char)

def Spelling.text (s : Spelling) : List Char :=
  s.scheme ++ ':' :: ('/' :: '/' :: s.netloc ++
    (s.path ++ questioned s.query ++ (s.fragment.map ('#' :: ·)).getD []))

/-- What is written is a URL without brackets around its host and without whitespace at its end. -/
structure Spelling.Plain (py : Unicode) (s : Spelling) : Prop where
  scheme : IsHttp (s.scheme.map Char.toLower)
  nonempty : s.netloc ≠ []
  netloc : ∀ c ∈ s.netloc, isInside c ∧ c ≠ '[' ∧ c ≠ ']'
  accepted : py.checkNetloc s.netloc
  locates : Locates s.path s.query
  fragment : ∀ text ∈ s.fragment, ∀ c ∈ text, 0x20 ≤ c.toNat
  last : ∀ c ∈ s.text.getLast?, isSpace c = false

def Spelling.parts (s : Spelling) : SplitResult :=
  ⟨s.scheme.map Char.toLower, s.netloc, s.path, s.query, s.fragment.getD []⟩

theorem Spelling.Plain.chars {s : Spelling} (h : s.Plain py) : ∀ c ∈ s.text, 0x20 ≤ c.toNat := by
  have hscheme := h.scheme.isScheme
  intro c hc
  rcases mem_append.mp hc with hc | hc
  · refine ascii_or (fun c => isSchemeChar c → 0x20 ≤ c.toNat) (by decide)
      (fun c hle _ => by omega) c ?_
    exact (isSchemeChar_toLower c).symm.trans (hscheme.chars _ (mem_map_of_mem hc))
  · rcases mem_cons.mp hc with rfl | hc
    · decide
    · rcases mem_append.mp hc with hc | hc
      · rcases mem_cons.mp hc with rfl | hc
        · decide
        · rcases mem_cons.mp hc with rfl | hc
          · decide
          · have hinside := (h.netloc c hc).1
            exact of_decide_eq_true (Bool.and_eq_true_iff.mp hinside).1
      · rcases mem_append.mp hc with hc | hc
        · exact le_questioned h.locates.pathChars h.locates.queryChars c hc
        · cases hfragment : s.fragment with
          | none =>
            rw [hfragment] at hc
            cases hc
          | some text =>
            rw [hfragment] at hc
            rcases mem_cons.mp hc with rfl | hc
            · decide
            · exact h.fragment text hfragment c hc

theorem Spelling.Plain.split {s : Spelling} (h : s.Plain py) :
    py.urlsplit (candidate s.text) = some s.parts := by
  have hscheme := h.scheme.isScheme
  have hhead : ∀ c ∈ s.text.head?, isSpace c = false ∧ c.toNat ≠ 0x20 := by
    intro c hc
    have hin : isSchemeChar c := by
      unfold Spelling.text at hc
      cases hs : s.scheme with
      | nil =>
        rw [hs] at hscheme
        exact absurd rfl hscheme.ne_nil
      | cons x rest =>
        rw [hs] at hc hscheme
        obtain rfl := Option.some.inj hc
        exact (isSchemeChar_toLower x).symm.trans
          (hscheme.chars _ (mem_map_of_mem (mem_cons_self ..)))
    refine ⟨isSpace_of_isSchemeChar hin, ?_⟩
    refine ascii_or (fun c => isSchemeChar c → c.toNat ≠ 0x20) (by decide)
      (fun c hle _ => by omega) c hin
  have hends : ∀ c ∈ s.netloc, isNetlocEnd c = false := by
    intro c hc
    have hinside := (h.netloc c hc).1
    simpa using (Bool.and_eq_true_iff.mp hinside).2
  have htail : splitNetloc ('/' :: '/' :: s.netloc ++
      (s.path ++ questioned s.query ++ (s.fragment.map ('#' :: ·)).getD [])) =
      (s.netloc, s.path ++ questioned s.query ++ (s.fragment.map ('#' :: ·)).getD []) := by
    apply splitNetloc_append hends
    intro c hc
    cases hpath : s.path with
    | cons x path =>
      rw [hpath] at hc
      obtain rfl := Option.some.inj hc
      rw [h.locates.absolute x (by rw [hpath]; rfl)]
      decide
    | nil =>
      rw [hpath, nil_append] at hc
      by_cases hquery : s.query = []
      · rw [questioned, if_neg (not_not.mpr hquery), nil_append] at hc
        cases hfragment : s.fragment with
        | none =>
          rw [hfragment] at hc
          cases hc
        | some text =>
          rw [hfragment] at hc
          cases hc
          decide
      · rw [questioned, if_pos hquery] at hc
        cases hc
        decide
  obtain ⟨hfragment, hbefore, hafter⟩ := locator_questioned h.locates.pathChars h.locates.queryChars
  have hlocator : before '#' (s.path ++ questioned s.query ++ (s.fragment.map ('#' :: ·)).getD []) =
      s.path ++ questioned s.query ∧
      after '#' (s.path ++ questioned s.query ++ (s.fragment.map ('#' :: ·)).getD []) =
        s.fragment.getD [] := by
    cases s.fragment with
    | none =>
      rw [map_none, getD_none, append_nil]
      exact ⟨before_of_notMem hfragment, after_of_notMem hfragment⟩
    | some text => exact ⟨before_append hfragment text, after_append hfragment text⟩
  have hopen : '[' ∉ s.netloc := fun hc => (h.netloc _ hc).2.1 rfl
  have hclose : ']' ∉ s.netloc := fun hc => (h.netloc _ hc).2.2 rfl
  have hbrackets : py.bracketsAccepted s.netloc := by
    unfold bracketsAccepted
    rw [if_neg fun hin => hopen hin.1]
    exact decide_eq_true ⟨hopen, hclose⟩
  rw [candidate_eq h.chars (fun c hc => (hhead c hc).1) h.last]
  unfold urlsplit
  rw [prepared_eq h.chars fun c hc => (hhead c hc).2, Spelling.text, splitScheme_written hscheme]
  dsimp only
  rw [htail]
  rw [if_pos ⟨hbrackets, h.accepted⟩, hlocator.1, hlocator.2, hbefore, hafter]
  rfl

/-! ## Case -/

section

variable {s t : List Char} {c : Char} (hc : c.isAlpha = false)

include hc

theorem before_map_toLower : before c (s.map Char.toLower) = (before c s).map Char.toLower := by
  unfold before
  rw [takeWhile_map]
  congr 2
  funext x
  exact decide_eq_decide.mpr (toLower_eq_iff hc).not

theorem dropWhile_map_toLower :
    (s.map Char.toLower).dropWhile (· ≠ c) = (s.dropWhile (· ≠ c)).map Char.toLower := by
  rw [dropWhile_map]
  congr 2
  funext x
  exact decide_eq_decide.mpr (toLower_eq_iff hc).not

theorem after_map_toLower : after c (s.map Char.toLower) = (after c s).map Char.toLower := by
  unfold after
  rw [dropWhile_map_toLower hc, map_drop]

theorem afterLast_map_toLower :
    afterLast c (s.map Char.toLower) = (afterLast c s).map Char.toLower := by
  have hbefore := before_map_toLower (s := s.reverse) hc
  unfold before at hbefore
  unfold afterLast
  rw [← map_reverse, hbefore, map_reverse]

theorem mem_map_toLower : c ∈ s.map Char.toLower ↔ c ∈ s := by
  rw [← count_pos_iff, count_map_toLower hc, count_pos_iff]

end

theorem hostinfo_map_toLower (netloc : List Char) :
    hostinfo (netloc.map Char.toLower) =
      ((hostinfo netloc).1.map Char.toLower, (hostinfo netloc).2.map Char.toLower) := by
  have hcolon : Char.isAlpha ':' = false := rfl
  have hopen : Char.isAlpha '[' = false := rfl
  have hclose : Char.isAlpha ']' = false := rfl
  have hat : Char.isAlpha '@' = false := rfl
  unfold hostinfo
  rw [afterLast_map_toLower hat]
  simp only [mem_map_toLower hopen]
  split_ifs
  · rw [after_map_toLower hopen, after_map_toLower hclose, after_map_toLower hcolon,
      before_map_toLower hclose]
  · rw [before_map_toLower hcolon, after_map_toLower hcolon]

theorem trimmed_map_toLower (host : List Char) :
    trimmed (host.map Char.toLower) = (trimmed host).map Char.toLower := by
  have hspace : isSpace ∘ Char.toLower = isSpace := funext isSpace_toLower
  have hdot : (fun c => decide (c = '.')) ∘ Char.toLower = fun c => decide (c = '.') := by
    funext c
    exact decide_eq_decide.mpr (toLower_eq_iff (by decide))
  have hback : ∀ (p : Char → Bool) (text : List Char), p ∘ Char.toLower = p →
      (text.map Char.toLower).rdropWhile p = (text.rdropWhile p).map Char.toLower := by
    intro p text hp
    unfold List.rdropWhile
    rw [← map_reverse, dropWhile_map, hp, map_reverse]
  unfold trimmed stripEnds
  rw [dropWhile_map, hspace, hback _ _ hspace, hback _ _ hdot]

theorem readPort_map_toLower (text : List Char) :
    readPort (text.map Char.toLower) = readPort text := by
  by_cases hdigits : text.all Char.isDigit
  · have hself : text.map Char.toLower = text := by
      refine (map_toLower_eq_iff fun c hc => ?_).mpr rfl
      have hrange := isDigit_range (all_eq_true.mp hdigits c hc)
      refine ascii_or (fun c => 48 ≤ c.toNat ∧ c.toNat ≤ 57 → c.isAlpha = false) (by decide)
        (fun c hle h => ?_) c hrange
      omega
    rw [hself]
  · have hlower : (text.map Char.toLower).all Char.isDigit = text.all Char.isDigit := by
      rw [all_map]
      congr
      funext c
      refine ascii_or (fun c => (Char.isDigit ∘ Char.toLower) c = c.isDigit) (by decide)
        (fun c hc => ?_) c
      rw [Function.comp_apply, toLower_of_not_ascii hc]
    unfold readPort
    rw [hlower, if_neg fun h => hdigits h.1, if_neg fun h => hdigits h.1]

theorem canonicalHost_case (laws : py.Separating tame) {netloc netloc' : List Char}
    (h : netloc'.map Char.toLower = netloc.map Char.toLower) :
    py.canonicalHost (py.hostname netloc') = py.canonicalHost (py.hostname netloc) := by
  have hpercent : Char.isAlpha '%' = false := rfl
  have hhost := congrArg (fun text => (hostinfo text).1) h
  simp only [hostinfo_map_toLower] at hhost
  have hfront := congrArg (before '%') hhost
  rw [before_map_toLower hpercent, before_map_toLower hpercent] at hfront
  have hzone := congrArg (List.dropWhile (· ≠ '%')) hhost
  rw [dropWhile_map_toLower hpercent, dropWhile_map_toLower hpercent] at hzone
  have hname : (py.hostname netloc').map Char.toLower = (py.hostname netloc).map Char.toLower := by
    unfold hostname
    rw [map_append, map_append, laws.lower_case _ _ hfront, hzone]
  have htrimmed := congrArg trimmed hname
  rw [trimmed_map_toLower, trimmed_map_toLower] at htrimmed
  have hlower := laws.lower_case _ _ htrimmed
  unfold trimmed at hlower
  unfold canonicalHost
  rw [hlower]

theorem effectivePort_case {netloc netloc' : List Char}
    (h : netloc'.map Char.toLower = netloc.map Char.toLower) (scheme : List Char) :
    effectivePort scheme netloc' = effectivePort scheme netloc := by
  have hport := congrArg (fun text => (hostinfo text).2) h
  simp only [hostinfo_map_toLower] at hport
  have hnil : (hostinfo netloc').2 = [] ↔ (hostinfo netloc).2 = [] := by
    rw [← map_eq_nil_iff (f := Char.toLower), hport, map_eq_nil_iff]
  unfold effectivePort
  rw [← readPort_map_toLower, hport, readPort_map_toLower]
  simp only [hnil]

/-! ## Edits -/

theorem hostinfo_append_port {netloc : List Char} (hopen : '[' ∉ netloc)
    (hcolon : ':' ∉ afterLast '@' netloc) (p : ℕ) :
    hostinfo (netloc ++ ':' :: Nat.toDigits 10 p) = ((hostinfo netloc).1, Nat.toDigits 10 p) ∧
      (hostinfo netloc).2 = [] := by
  have hport : ∀ {c : Char}, c ≠ ':' → c.isDigit = false → c ∉ ':' :: Nat.toDigits 10 p := by
    intro c hne hdigit hc
    rcases mem_cons.mp hc with hc | hc
    · exact hne hc
    · exact notMem_digits hdigit p hc
  have hinfo : afterLast '@' (netloc ++ ':' :: Nat.toDigits 10 p) =
      afterLast '@' netloc ++ ':' :: Nat.toDigits 10 p := by
    have hback : ∀ c ∈ (':' :: Nat.toDigits 10 p).reverse, decide (c ≠ '@') = true :=
      ne_of_notMem (by simpa using hport (c := '@') (by decide) (by decide))
    unfold afterLast
    rw [reverse_append, takeWhile_append_of_pos hback, reverse_append,
      reverse_reverse]
  have hbracket : '[' ∉ afterLast '@' netloc := fun h => hopen ((afterLast_suffix _ _).subset h)
  have hbracket' : '[' ∉ afterLast '@' netloc ++ ':' :: Nat.toDigits 10 p := by
    rw [mem_append, not_or]
    exact ⟨hbracket, hport (by decide) (by decide)⟩
  unfold hostinfo
  rw [hinfo, if_neg hbracket', if_neg hbracket, before_append hcolon, after_append hcolon,
    before_of_notMem hcolon]
  exact ⟨rfl, after_of_notMem hcolon⟩

def Unicode.keptPieces (py : Unicode) (query : List Char) : List (List Char) :=
  ((query.splitOn '&').filter (· ≠ [])).filter fun piece =>
    !py.isTrackingParam (unquotePlus (before '=' piece))

theorem parameters_eq :
    py.parameters query = (py.keptPieces query).map fun piece =>
      (unquotePlus (before '=' piece), unquotePlus (after '=' piece)) := by
  unfold parameters keptPieces parseQsl
  split_ifs with hquery
  · rw [hquery]
    rfl
  · rw [filter_map]
    rfl

inductive Unicode.Edit (py : Unicode) : Spelling → Spelling → Prop
  | schemeCase (s : Spelling) (scheme : List Char)
      (h : scheme.map Char.toLower = s.scheme.map Char.toLower) : py.Edit s { s with scheme }
  | hostCase (s : Spelling) (netloc : List Char)
      (h : netloc.map Char.toLower = s.netloc.map Char.toLower) : py.Edit s { s with netloc }
  -- The default port is added to a host that has none.
  | defaultPort (s : Spelling) (p : ℕ) (hcolon : ':' ∉ afterLast '@' s.netloc)
      (h : (s.scheme.map Char.toLower, p) ∈ DEFAULT_PORTS) :
      py.Edit s { s with netloc := s.netloc ++ ':' :: Nat.toDigits 10 p }
  | fragment (s : Spelling) (fragment : Option (List Char)) : py.Edit s { s with fragment }
  -- Tracking parameters come and go, and the others change places.
  | parameters (s : Spelling) (query : List Char)
      (h : (py.keptPieces query).Perm (py.keptPieces s.query)) : py.Edit s { s with query }

theorem Unicode.Edit.sameResource (laws : py.Separating tame) {s s' : Spelling} (h : py.Edit s s')
    (hs : s.Plain py) : py.SameResource s'.parts s.parts := by
  cases h with
  | schemeCase scheme h =>
    refine ⟨h, rfl, ?_, rfl, List.Perm.refl _⟩
    exact congrArg (fun scheme => effectivePort scheme s.netloc) h
  | hostCase netloc h =>
    exact ⟨rfl, canonicalHost_case laws h, effectivePort_case h _, rfl, List.Perm.refl _⟩
  | defaultPort p hcolon h =>
    obtain ⟨d, hlookup, hdefault⟩ := hs.scheme.default
    obtain ⟨hinfo, hnone⟩ :=
      hostinfo_append_port (fun hc => (hs.netloc _ hc).2.1 rfl) hcolon p
    have hp : p = d := (hdefault p).mp h
    have hle : p ≤ 65535 := by
      rcases hs.scheme with hscheme | hscheme
      · rw [hscheme] at h
        simp [DEFAULT_PORTS] at h
        omega
      · rw [hscheme] at h
        simp [DEFAULT_PORTS] at h
        omega
    refine ⟨rfl, ?_, ?_, rfl, List.Perm.refl _⟩
    · dsimp only [Spelling.parts]
      unfold hostname
      rw [hinfo]
    · dsimp only [Spelling.parts]
      unfold effectivePort
      rw [hinfo, if_neg Nat.toDigits_ne_nil, hnone, if_pos rfl, readPort_toDigits hle, hlookup, hp]
  | fragment fragment => exact ⟨rfl, rfl, rfl, rfl, List.Perm.refl _⟩
  | parameters query h =>
    refine ⟨rfl, rfl, rfl, rfl, ?_⟩
    rw [parameters_eq, parameters_eq]
    exact h.map _

/-- One canonical form is one resource, and no edit of how a URL is written changes the form. -/
theorem canonicalizeUrl_separates (laws : py.Separating tame) :
    (∀ url url' parts parts' canonical, py.Addresses url parts → py.Addresses url' parts' →
      py.canonicalizeUrl none url = some canonical →
      py.canonicalizeUrl none url' = some canonical → canonical ≠ [] →
      py.SameResource parts parts' ∧
        ((trimmed (py.hostname parts.netloc)).all isAscii →
          (trimmed (py.hostname parts'.netloc)).all isAscii →
          (trimmed (py.hostname parts.netloc)).map Char.toLower =
            (trimmed (py.hostname parts'.netloc)).map Char.toLower) ∧
        (Legible parts.query → Legible parts'.query →
          (py.parameterBytes parts.query).Perm (py.parameterBytes parts'.query))) ∧
    ∀ s s' : Spelling, s.Plain py → s'.Plain py → py.Edit s s' →
      py.canonicalizeUrl none s'.text = py.canonicalizeUrl none s.text := by
  constructor
  · intro url url' parts parts' canonical h h' hcanonical hcanonical' hne
    have hsame := sameResource_of_canonical laws h h' hne hcanonical hcanonical'
    refine ⟨hsame, fun hascii hascii' => ?_, fun hlegible hlegible' => ?_⟩
    · rw [← canonicalHost_of_ascii laws.toLawful hascii, hsame.host,
        canonicalHost_of_ascii laws.toLawful hascii']
    · rw [parameterBytes_eq hlegible, parameterBytes_eq hlegible']
      exact hsame.query.map _
  · intro s s' hs hs' hedit
    rw [canonicalizeUrl_none, canonicalizeUrl_none, hs.split, hs'.split, bind_some,
      bind_some]
    exact canonicalOf_congr hs'.scheme hs'.nonempty hs.nonempty (hedit.sameResource laws hs)

theorem separating_ascii : ascii.Separating fun c => isInside c := by
  refine ⟨lawful_ascii, fun s t h => h, fun text _ hc => ?_, fun text encoded _ hnone => ?_,
    fun text _ hc => hc⟩
  · exact (mem_map_toLower (by decide)).mp hc
  · cases hnone

theorem canonicalizeUrl_separates_order :
    (ascii.parameterBytes "b=1&utm_id=2&a=+".toList).Perm
        (ascii.parameterBytes "a=+&b=1".toList) ∧
      ascii.canonicalizeUrl none "http://h/a#f".toList =
        ascii.canonicalizeUrl none "http://h/a".toList := by
  have hlong : ascii.Addresses "HTTP://H:80/%7Ea?b=1&utm_id=2&a=+#f".toList
      ⟨"http".toList, "H:80".toList, "/%7Ea".toList, "b=1&utm_id=2&a=+".toList,
        "f".toList⟩ := by
    refine ⟨by decide +kernel, Or.inl rfl, by decide, by decide⟩
  have hshort : ascii.Addresses "http://h./~a?a=+&b=1".toList
      ⟨"http".toList, "h.".toList, "/~a".toList, "a=+&b=1".toList, []⟩ := by
    refine ⟨by decide +kernel, Or.inl rfl, by decide, by decide⟩
  have hlast : ∀ text : List Char, (text.getLast?.all fun c => !isSpace c) = true →
      ∀ c ∈ text.getLast?, isSpace c = false := by
    intro text hall c hc
    rw [hc] at hall
    simpa using hall
  have hlocates : Locates "/a".toList [] := by
    refine ⟨forall_mem_of_all (by decide), ?_, forall_mem_of_all (by decide)⟩
    rintro c ⟨⟩
    rfl
  have hplain : Spelling.Plain ascii ⟨"http".toList, ['h'], "/a".toList, [], none⟩ := by
    refine ⟨Or.inl rfl, by decide, forall_mem_of_all (by decide), by decide, hlocates, ?_,
      hlast _ (by decide)⟩
    rintro text ⟨⟩
  have hfragment :
      Spelling.Plain ascii ⟨"http".toList, ['h'], "/a".toList, [], some ['f']⟩ := by
    refine ⟨Or.inl rfl, by decide, forall_mem_of_all (by decide), by decide, hlocates, ?_,
      hlast _ (by decide)⟩
    rintro text ⟨⟩
    exact forall_mem_of_all (by decide)
  obtain ⟨hmerged, hedited⟩ := canonicalizeUrl_separates separating_ascii
  refine ⟨?_, ?_⟩
  · exact (hmerged _ _ _ _ "http://h/~a?a=%20&b=1".toList hlong hshort (by decide +kernel)
      (by decide +kernel) (by decide)).2.2 (by unfold Legible; decide)
      (by unfold Legible; decide +kernel)
  · exact hedited _ _ hplain hfragment (Edit.fragment _ _)

/-- A character that has to be quoted and its escape are one, though no escape of an unreserved
character is in either path. -/
theorem space_and_escape_merge :
    ascii.canonicalizeUrl none "http://h/a b".toList = some "http://h/a%20b".toList ∧
      ascii.canonicalizeUrl none "http://h/a%20b".toList =
        some "http://h/a%20b".toList ∧
      normalizeEscapes isAscii isUnreserved (removeDotSegments "/a b".toList) ≠
        normalizeEscapes isAscii isUnreserved (removeDotSegments "/a%20b".toList) := by
  refine ⟨?_, ?_, ?_⟩
  · decide +kernel
  · decide +kernel
  · decide +kernel

end OmniSense.Enrichment.Url
