import OmniSense.Enrichment.UrlSplitting

/-! Hosts and ports, and the netlocs that read them back. -/

namespace OmniSense.Enrichment.Url

open Library Library.Percent List Unicode

/-! ## Letters -/

theorem isAlpha_of_toLower_ne {c : Char} (h : c.toLower ≠ c) : c.isAlpha := by
  refine ascii_or (fun c => c.toLower ≠ c → c.isAlpha) (by decide) (fun c hc hne => ?_) c h
  exact absurd (toLower_of_not_ascii hc) hne

theorem toLower_eq_iff {c d : Char} (hd : d.isAlpha = false) : c.toLower = d ↔ c = d := by
  constructor
  · rintro rfl
    rw [isAlpha_toLower] at hd
    by_contra hne
    have halpha := isAlpha_of_toLower_ne (Ne.symm hne)
    rw [hd] at halpha
    cases halpha
  · rintro rfl
    by_contra hne
    have halpha := isAlpha_of_toLower_ne hne
    rw [hd] at halpha
    cases halpha

variable (c : Char) {scheme host : List Char} {netloc : List Char} {port : Option ℕ} {d : Char}

theorem isSpace_toLower : isSpace c.toLower = isSpace c := by
  refine ascii_or (fun c => isSpace c.toLower = isSpace c) (by decide) (fun c hc => ?_) c
  rw [toLower_of_not_ascii hc]

theorem isAscii_toLower : isAscii c.toLower = isAscii c := by
  refine ascii_or (fun c => isAscii c.toLower = isAscii c) (by decide) (fun c hc => ?_) c
  rw [toLower_of_not_ascii hc]

theorem isInside_toLower : isInside c.toLower = isInside c := by
  refine ascii_or (fun c => isInside c.toLower = isInside c) (by decide) (fun c hc => ?_) c
  rw [toLower_of_not_ascii hc]

theorem all_isAscii_map_toLower (s : List Char) :
    (s.map Char.toLower).all isAscii = s.all isAscii := by
  rw [all_map]
  congr
  funext c
  exact isAscii_toLower c

theorem map_toLower_toLower (s : List Char) :
    (s.map Char.toLower).map Char.toLower = s.map Char.toLower := by
  rw [map_map]
  exact map_congr_left fun c _ => toLower_toLower c

theorem count_map_toLower (hd : d.isAlpha = false) (s : List Char) :
    (s.map Char.toLower).count d = s.count d := by
  induction s with
  | nil => rfl
  | cons c s ih =>
    have hbeq : (c.toLower == d) = (c == d) := by
      rw [Bool.eq_iff_iff, beq_iff_eq, beq_iff_eq]
      exact toLower_eq_iff hd
    rw [map_cons, count_cons, count_cons, ih, hbeq]

theorem map_toLower_eq_iff {s t : List Char} (ht : ∀ c ∈ t, c.isAlpha = false) :
    s.map Char.toLower = t ↔ s = t := by
  constructor
  · rintro rfl
    have hself : s.map Char.toLower = s.map id := by
      apply map_congr_left
      intro c hc
      exact ((toLower_eq_iff (ht _ (mem_map_of_mem hc))).mp rfl).symm
    rw [hself, map_id]
  · rintro rfl
    have hself : s.map Char.toLower = s.map id :=
      map_congr_left fun c hc => (toLower_eq_iff (ht c hc)).mpr rfl
    rw [hself, map_id]

/-! ## Ports -/

theorem digits_isDigit (p : ℕ) : ∀ c ∈ Nat.toDigits 10 p, c.isDigit :=
  fun _ hc => Nat.isDigit_of_mem_toDigits (by decide) (by decide) hc

theorem isDigit_range {c : Char} (h : c.isDigit) : 48 ≤ c.toNat ∧ c.toNat ≤ 57 := by
  unfold Char.isDigit at h
  rw [Bool.and_eq_true, decide_eq_true_eq, decide_eq_true_eq] at h
  exact ⟨UInt32.le_iff_toNat_le.mp h.1, UInt32.le_iff_toNat_le.mp h.2⟩

theorem notMem_digits {c : Char} (h : c.isDigit = false) (p : ℕ) : c ∉ Nat.toDigits 10 p := by
  intro hc
  rw [digits_isDigit p c hc] at h
  cases h

theorem isAlpha_digits (p : ℕ) : ∀ c ∈ Nat.toDigits 10 p, c.isAlpha = false := by
  intro c hc
  have hrange := isDigit_range (digits_isDigit p c hc)
  refine ascii_or (fun c => 48 ≤ c.toNat ∧ c.toNat ≤ 57 → c.isAlpha = false) (by decide)
    (fun c hle h => ?_) c hrange
  omega

theorem isInside_of_isDigit {c : Char} (h : c.isDigit) : isInside c := by
  have hrange := isDigit_range h
  refine ascii_or (fun c => 48 ≤ c.toNat ∧ c.toNat ≤ 57 → isInside c = true) (by decide)
    (fun c hle h => ?_) c hrange
  omega

theorem readPort_toDigits {p : ℕ} (h : p ≤ 65535) : readPort (Nat.toDigits 10 p) = some p := by
  have hdigits : (Nat.toDigits 10 p).all Char.isDigit := all_eq_true.mpr (digits_isDigit p)
  have hlength : (Nat.toDigits 10 p).length ≤ 5 :=
    (Nat.length_toDigits_le_iff (by decide) (by decide)).mpr (by omega)
  unfold readPort
  rw [Nat.ofDigitChars_ten_toDigits, if_pos]
  exact ⟨hdigits, hlength.trans (by decide), h⟩

theorem readPort_le {text : List Char} {p : ℕ} (h : readPort text = some p) : p ≤ 65535 := by
  unfold readPort at h
  dsimp only at h
  split_ifs at h with hport
  cases h
  exact hport.2.2

/-! ## Hosts -/

/-- What `_canonical_host` reads of a host. -/
def trimmed (host : List Char) : List Char := (stripEnds isSpace host).rdropWhile (· = '.')

structure IsBare (host : List Char) : Prop where
  nonempty : host ≠ []
  plain : ∀ c ∈ host, c ≠ '@' ∧ c ≠ ':' ∧ c ≠ '[' ∧ c ≠ ']'
  first : ∀ c ∈ host.head?, isSpace c = false
  last : ∀ c ∈ host.getLast?, isSpace c = false ∧ c ≠ '.'

def IsPort (scheme : List Char) (p : ℕ) : Prop := p ≤ 65535 ∧ (scheme, p) ∉ DEFAULT_PORTS

/-- A host that is read back when it is written without brackets: it is bare, or all that follows
a bare one is what reads as its port. -/
def ReadsBack (scheme host : List Char) (port : Option ℕ) : Prop :=
  IsBare host ∨
    port = none ∧ ∃ name p, IsBare name ∧ IsPort scheme p ∧ host = netlocOf name (some p)

theorem trimmed_sublist (host : List Char) : (trimmed host).Sublist host :=
  ( rdropWhile_prefix _ _).sublist.trans (stripEnds_within isSpace host).sublist

theorem IsBare.notMem {host : List Char} (h : IsBare host) :
    '@' ∉ host ∧ ':' ∉ host ∧ '[' ∉ host ∧ ']' ∉ host :=
  ⟨fun hc => (h.plain _ hc).1 rfl, fun hc => (h.plain _ hc).2.1 rfl,
    fun hc => (h.plain _ hc).2.2.1 rfl, fun hc => (h.plain _ hc).2.2.2 rfl⟩

theorem isBare_map_toLower {host : List Char} : IsBare (host.map Char.toLower) ↔ IsBare host := by
  constructor
  · rintro ⟨hne, hplain, hfirst, hlast⟩
    refine ⟨fun h => hne (by rw [h]; rfl), fun c hc => ?_, fun c hc => ?_, fun c hc => ?_⟩
    · have hlower := hplain _ (mem_map_of_mem hc)
      refine ⟨?_, ?_, ?_, ?_⟩ <;> rintro rfl
      · exact hlower.1 rfl
      · exact hlower.2.1 rfl
      · exact hlower.2.2.1 rfl
      · exact hlower.2.2.2 rfl
    · rw [← isSpace_toLower]
      exact hfirst _ (by rw [List.head?_map, Option.mem_def.mp hc]; rfl)
    · rw [← isSpace_toLower]
      have hlower := hlast c.toLower (by rw [List.getLast?_map, Option.mem_def.mp hc]; rfl)
      refine ⟨hlower.1, ?_⟩
      rintro rfl
      exact hlower.2 rfl
  · rintro ⟨hne, hplain, hfirst, hlast⟩
    refine ⟨by simpa using hne, fun c hc => ?_, fun c hc => ?_, fun c hc => ?_⟩
    · obtain ⟨d, hd, rfl⟩ := mem_map.mp hc
      have hupper := hplain d hd
      rw [Ne, Ne, Ne, Ne, toLower_eq_iff (by decide), toLower_eq_iff (by decide),
        toLower_eq_iff (by decide), toLower_eq_iff (by decide)]
      exact hupper
    · rw [List.head?_map] at hc
      obtain ⟨d, hd, rfl⟩ := Option.map_eq_some_iff.mp hc
      rw [isSpace_toLower]
      exact hfirst d hd
    · rw [List.getLast?_map] at hc
      obtain ⟨d, hd, rfl⟩ := Option.map_eq_some_iff.mp hc
      rw [isSpace_toLower, Ne, toLower_eq_iff (by decide)]
      exact hlast d hd

theorem netlocOf_none (host : List Char) : netlocOf host none = host := append_nil host

theorem netlocOf_some (host : List Char) (p : ℕ) :
    netlocOf host (some p) = host ++ ':' :: Nat.toDigits 10 p := rfl

theorem readsBack_map_toLower :
    ReadsBack scheme (host.map Char.toLower) port ↔ ReadsBack scheme host port := by
  unfold ReadsBack
  rw [isBare_map_toLower]
  refine or_congr_right (and_congr_right fun _ => ?_)
  constructor
  · rintro ⟨name, p, hname, hp, heq⟩
    rw [netlocOf_some] at heq
    obtain ⟨front, back, rfl, rfl, hback⟩ := map_eq_append_iff.mp heq
    have hplain : ∀ c ∈ ':' :: Nat.toDigits 10 p, c.isAlpha = false :=
      forall_mem_cons.mpr ⟨by decide, isAlpha_digits p⟩
    exact ⟨front, p, isBare_map_toLower.mp hname, hp,
      congrArg (front ++ ·) ((map_toLower_eq_iff hplain).mp hback)⟩
  · rintro ⟨name, p, hname, hp, rfl⟩
    refine ⟨name.map Char.toLower, p, isBare_map_toLower.mpr hname, hp, ?_⟩
    rw [netlocOf_some, netlocOf_some, map_append, map_cons,
      (map_toLower_eq_iff (isAlpha_digits p)).mpr rfl]
    rfl

/-! ## Reading a netloc -/

theorem hostinfo_of_notMem {netloc : List Char} (hat : '@' ∉ netloc) (hbracket : '[' ∉ netloc) :
    hostinfo netloc = (before ':' netloc, after ':' netloc) := by
  unfold hostinfo
  rw [afterLast_of_notMem hat, if_neg hbracket]

theorem hostinfo_sublist (netloc : List Char) :
    (hostinfo netloc).1.Sublist netloc := by
  have hsuffix := (afterLast_suffix '@' netloc).sublist
  have hbefore : ∀ (c : Char) (s : List Char), (before c s).Sublist s :=
    fun c s => ( takeWhile_prefix _).sublist
  have hafter : ∀ (c : Char) (s : List Char), (after c s).Sublist s :=
    fun c s => (drop_sublist 1 _).trans (dropWhile_suffix _).sublist
  unfold hostinfo
  dsimp only
  split_ifs
  · exact (hbefore _ _).trans ((hafter _ _).trans hsuffix)
  · exact (hbefore _ _).trans hsuffix

theorem hostinfo_netlocOf {host : List Char} (h : IsBare host) (port : Option ℕ) :
    hostinfo (netlocOf host port) =
      (host, (port.map fun p => Nat.toDigits 10 p).getD []) := by
  obtain ⟨hat, hcolon, hbracket, -⟩ := h.notMem
  cases port with
  | none =>
    rw [netlocOf_none, hostinfo_of_notMem hat hbracket, before_of_notMem hcolon,
      after_of_notMem hcolon]
    rfl
  | some p =>
    have hplain : ∀ c, c ∉ host → c ≠ ':' → c.isDigit = false → c ∉ netlocOf host (some p) := by
      intro c hhost hne hdigit hc
      rw [netlocOf_some, mem_append, mem_cons] at hc
      rcases hc with hc | hc | hc
      · exact hhost hc
      · exact hne hc
      · exact notMem_digits hdigit p hc
    rw [hostinfo_of_notMem (hplain _ hat (by decide) (by decide))
      (hplain _ hbracket (by decide) (by decide)), netlocOf_some, before_append hcolon,
      after_append hcolon]
    rfl

def portOf (scheme netloc : List Char) : Option ℕ :=
  if (hostinfo netloc).2 = [] then none
  else canonicalPort scheme (readPort (hostinfo netloc).2)

theorem isPort_portOf {scheme netloc : List Char} : ∀ p ∈ portOf scheme netloc, IsPort scheme p := by
  intro p hp
  unfold portOf canonicalPort at hp
  split_ifs at hp
  · cases hp
  · obtain ⟨hport, hdefault⟩ := Option.filter_eq_some_iff.mp hp
    exact ⟨readPort_le hport, of_decide_eq_true hdefault⟩

variable {py : Unicode}

theorem canonicalNetloc_eq_some {scheme netloc canonical : List Char}
    (h : py.canonicalNetloc scheme netloc = some canonical) :
    let host := py.canonicalHost (py.hostname netloc)
    canonical = if host = [] then [] else netlocOf host (portOf scheme netloc) := by
  unfold canonicalNetloc at h
  unfold portOf
  dsimp only at h ⊢
  split_ifs at h ⊢
  · exact (Option.some.inj h).symm
  · rw [netlocOf_none]
    exact (Option.some.inj h).symm
  · obtain ⟨p, hp, rfl⟩ := Option.map_eq_some_iff.mp h
    rw [hp]

def Unicode.Canonical (py : Unicode) (scheme netloc : List Char) : Prop :=
  py.bracketsAccepted netloc ∧ py.checkNetloc netloc ∧
    py.canonicalNetloc scheme netloc = some netloc

/-- What the code relies on: the lower case of ASCII, and that no delimiter comes out of a netloc
that `_checknetloc` accepts. -/
structure Unicode.Lawful (py : Unicode) (tame : Char → Prop) : Prop where
  lower_ascii : ∀ text : List Char, text.all isAscii → py.lower text = text.map Char.toLower
  inside : ∀ c, tame c → isInside c
  accepted : ∀ netloc, py.checkNetloc netloc → (∀ c ∈ netloc, isInside c) → ∀ c ∈ netloc, tame c
  lower : ∀ text : List Char, (∀ c ∈ text, tame c) → ∀ c ∈ py.lower text, tame c
  idna : ∀ text encoded : List Char, (∀ c ∈ text, tame c) → py.idna text = some encoded →
    ∀ c ∈ encoded, isInside c
  nfkc : ∀ text : List Char, (∀ c ∈ text, tame c) → ∀ c ∈ py.nfkc text, isInside c

variable {tame : Char → Prop}

theorem canonicalHost_inside (laws : py.Lawful tame)
    (hcheck : py.checkNetloc netloc) (hinside : ∀ c ∈ netloc, isInside c) :
    ∀ c ∈ py.canonicalHost (py.hostname netloc), isInside c := by
  have htame := laws.accepted netloc hcheck hinside
  have hhost : ∀ c ∈ (hostinfo netloc).1, tame c :=
    fun c hc => htame c ((hostinfo_sublist netloc).subset hc)
  have hname : ∀ c ∈ py.hostname netloc, tame c := by
    intro c hc
    rcases mem_append.mp hc with hc | hc
    · exact laws.lower _ (fun c hc => hhost c (before_subset '%' _ hc)) c hc
    · exact hhost c ((dropWhile_suffix _).subset hc)
  have hlower := laws.lower (trimmed (py.hostname netloc)) fun c hc =>
    hname c ((trimmed_sublist _).subset hc)
  intro c hc
  unfold canonicalHost at hc
  dsimp only at hc
  split_ifs at hc
  · exact laws.inside c (hlower c hc)
  · cases hidna : py.idna (py.lower (trimmed (py.hostname netloc))) with
    | none =>
      rw [trimmed] at hidna
      rw [hidna] at hc
      exact laws.nfkc _ hlower c hc
    | some encoded =>
      have hencoded := laws.idna _ _ hlower hidna
      rw [trimmed] at hidna
      rw [hidna] at hc
      exact hencoded c hc

theorem netlocOf_inside {host : List Char} (h : ∀ c ∈ host, isInside c) (port : Option ℕ) :
    ∀ c ∈ netlocOf host port, isInside c := by
  intro c hc
  cases port with
  | none =>
    rw [netlocOf_none] at hc
    exact h c hc
  | some p =>
    rw [netlocOf_some, mem_append, mem_cons] at hc
    rcases hc with hc | rfl | hc
    · exact h c hc
    · decide
    · exact isInside_of_isDigit (digits_isDigit p c hc)

theorem canonicalNetloc_inside (laws : py.Lawful tame) {scheme netloc canonical : List Char}
    (hcheck : py.checkNetloc netloc) (hinside : ∀ c ∈ netloc, isInside c)
    (h : py.canonicalNetloc scheme netloc = some canonical) : ∀ c ∈ canonical, isInside c := by
  have hhost := canonicalHost_inside laws hcheck hinside
  have heq := canonicalNetloc_eq_some h
  dsimp only at heq
  split_ifs at heq
  · rw [heq]
    exact fun _ hc => absurd hc not_mem_nil
  · rw [heq]
    exact netlocOf_inside hhost _

/-! ## ASCII netlocs in canonical form -/

theorem trimmed_eq_self_iff {host : List Char} :
    trimmed host = host ↔
      (∀ c ∈ host.head?, isSpace c = false) ∧
        ∀ c ∈ host.getLast?, isSpace c = false ∧ c ≠ '.' := by
  constructor
  · intro h
    have hdots : (trimmed host).Sublist (stripEnds isSpace host) :=
      ( rdropWhile_prefix _ _).sublist
    have hstrip : stripEnds isSpace host = host := by
      apply (stripEnds_within isSpace host).sublist.eq_of_length_le
      calc host.length = (trimmed host).length := by rw [h]
        _ ≤ (stripEnds isSpace host).length := hdots.length_le
    refine ⟨fun c hc => head_stripEnds (by rw [hstrip]; exact hc), fun c hc => ⟨?_, ?_⟩⟩
    · obtain ⟨hne, rfl⟩ := mem_getLast?_eq_getLast hc
      have hlast := rdropWhile_last_not isSpace (host.dropWhile isSpace)
        (by rw [← stripEnds, hstrip]; exact hne)
      have hback : (host.dropWhile isSpace).rdropWhile isSpace = host := hstrip
      simpa only [hback, Bool.not_eq_true] using hlast
    · obtain ⟨hne, rfl⟩ := mem_getLast?_eq_getLast hc
      unfold trimmed at h
      rw [hstrip, rdropWhile_eq_self_iff] at h
      exact of_decide_eq_false (eq_false_of_ne_true (h hne))
  · rintro ⟨hfirst, hlast⟩
    have hfront : host.dropWhile isSpace = host := by
      cases host with
      | nil => rfl
      | cons c rest => exact dropWhile_cons_of_neg (ne_true_of_eq_false (hfirst c rfl))
    have hback : host.rdropWhile isSpace = host := by
      rw [rdropWhile_eq_self_iff]
      intro hne
      exact ne_true_of_eq_false (hlast _ (getLast_mem_getLast? hne)).1
    unfold trimmed stripEnds
    rw [hfront, hback, rdropWhile_eq_self_iff]
    intro hne hdot
    exact (hlast _ (getLast_mem_getLast? hne)).2 (of_decide_eq_true hdot)

theorem canonicalHost_of_ascii (laws : py.Lawful tame) {host : List Char}
    (h : (trimmed host).all isAscii) : py.canonicalHost host = (trimmed host).map Char.toLower := by
  have hlower := laws.lower_ascii (trimmed host) h
  have hascii : (py.lower (trimmed host)).all isAscii := by
    rw [hlower, all_isAscii_map_toLower]
    exact h
  unfold trimmed at hlower hascii
  unfold canonicalHost
  rw [if_pos hascii, hlower]
  rfl

theorem all_isAscii_of_sublist {s t : List Char} (hst : s.Sublist t) (h : t.all isAscii) :
    s.all isAscii :=
  all_eq_true.mpr fun c hc => all_eq_true.mp h c (hst.subset hc)

theorem map_hostname (laws : py.Lawful tame) (h : netloc.all isAscii) :
    (py.hostname netloc).map Char.toLower = (hostinfo netloc).1.map Char.toLower := by
  have hfront : (before '%' (hostinfo netloc).1).all isAscii :=
    all_isAscii_of_sublist (( takeWhile_prefix _).sublist.trans (hostinfo_sublist netloc)) h
  have hparts : before '%' (hostinfo netloc).1 ++ (hostinfo netloc).1.dropWhile (· ≠ '%') =
      (hostinfo netloc).1 := takeWhile_append_dropWhile
  unfold hostname
  dsimp only
  rw [laws.lower_ascii _ hfront, map_append, map_toLower_toLower, ← map_append, hparts]

theorem isAscii_hostname (laws : py.Lawful tame) (h : netloc.all isAscii) :
    (trimmed (py.hostname netloc)).all isAscii := by
  apply all_isAscii_of_sublist (trimmed_sublist _)
  rw [← all_isAscii_map_toLower, map_hostname laws h, all_isAscii_map_toLower]
  exact all_isAscii_of_sublist (hostinfo_sublist netloc) h

theorem count_canonicalHost (laws : py.Lawful tame) (h : netloc.all isAscii)
    (hd : d.isAlpha = false) :
    (py.canonicalHost (py.hostname netloc)).count d ≤ (hostinfo netloc).1.count d := by
  calc (py.canonicalHost (py.hostname netloc)).count d
      = (trimmed (py.hostname netloc)).count d := by
        rw [canonicalHost_of_ascii laws (isAscii_hostname laws h), count_map_toLower hd]
    _ ≤ (py.hostname netloc).count d := (trimmed_sublist _).count_le d
    _ = (hostinfo netloc).1.count d := by
        rw [← count_map_toLower hd, map_hostname laws h, count_map_toLower hd]

theorem count_netlocOf (hcolon : d ≠ ':') (hdigit : d.isDigit = false) (host : List Char)
    (port : Option ℕ) : (netlocOf host port).count d = host.count d := by
  cases port with
  | none => rw [netlocOf_none]
  | some p =>
    have hport : (':' :: Nat.toDigits 10 p).count d = 0 := by
      rw [count_eq_zero, mem_cons, not_or]
      exact ⟨hcolon, notMem_digits hdigit p⟩
    rw [netlocOf_some, count_append, hport, Nat.add_zero]

theorem isAscii_netlocOf {host : List Char} (h : host.all isAscii) (port : Option ℕ) :
    (netlocOf host port).all isAscii := by
  rw [all_eq_true] at h ⊢
  intro c hc
  cases port with
  | none =>
    rw [netlocOf_none] at hc
    exact h c hc
  | some p =>
    rw [netlocOf_some, mem_append, mem_cons] at hc
    rcases hc with hc | rfl | hc
    · exact h c hc
    · decide
    · have hrange := isDigit_range (digits_isDigit p c hc)
      exact decide_eq_true (by omega)

theorem at_notMem_hostinfo (netloc : List Char) : '@' ∉ (hostinfo netloc).1 := by
  have hinfo := notMem_afterLast '@' netloc
  unfold hostinfo
  dsimp only
  split_ifs
  · exact fun h => hinfo (after_subset _ _ (before_subset _ _ h))
  · exact fun h => hinfo (before_subset _ _ h)

theorem netlocOf_ne_nil {host : List Char} (h : host ≠ []) (port : Option ℕ) :
    netlocOf host port ≠ [] := by
  exact append_ne_nil_of_left_ne_nil h _

theorem canonical_parts (laws : py.Lawful tame) {scheme netloc : List Char} (hne : netloc ≠ [])
    (hascii : netloc.all isAscii) (h : py.Canonical scheme netloc) :
    ∃ host port, IsBare host ∧ host.map Char.toLower = host ∧ (∀ p ∈ port, IsPort scheme p) ∧
      netloc = netlocOf host port := by
  obtain ⟨hbrackets, -, hcanonical⟩ := h
  have hcount := fun {d : Char} => count_canonicalHost laws hascii (d := d)
  have hhost := canonicalHost_of_ascii laws (isAscii_hostname laws hascii)
  have heq := canonicalNetloc_eq_some hcanonical
  dsimp only at heq
  set host := py.canonicalHost (py.hostname netloc) with hdef
  have hhostne : host ≠ [] := by
    intro hnil
    rw [if_pos hnil] at heq
    exact hne heq
  rw [if_neg hhostne] at heq
  have hkept : ∀ {d : Char}, d ≠ ':' → d.isDigit = false → netloc.count d = host.count d := by
    intro d hcolon hdigit
    conv_lhs => rw [heq]
    exact count_netlocOf hcolon hdigit host _
  have hat : '@' ∉ netloc := by
    rw [← count_eq_zero, hkept (by decide) (by decide)]
    exact Nat.le_zero.mp ((hcount (by decide)).trans
      (count_eq_zero.mpr (at_notMem_hostinfo netloc)).le)
  -- A bracket in the netloc would be one that its host does not have.
  have hopen : '[' ∉ netloc := by
    intro hin
    have hinfo : (hostinfo netloc).1 = before ']' (after '[' netloc) := by
      unfold hostinfo
      rw [afterLast_of_notMem hat, if_pos hin]
    have hmore : (after '[' netloc).count '[' < netloc.count '[' := by
      conv_rhs => rw [eq_before_after hin, count_append, count_cons_self]
      omega
    have hless : (hostinfo netloc).1.count '[' ≤ (after '[' netloc).count '[' := by
      rw [hinfo]
      exact ( takeWhile_prefix _).sublist.count_le _
    have hhostle := hcount (d := '[') (by decide)
    rw [hkept (by decide) (by decide)] at hmore
    omega
  have hclose : ']' ∉ netloc := by
    unfold bracketsAccepted at hbrackets
    rw [if_neg fun h => hopen h.1] at hbrackets
    exact (of_decide_eq_true hbrackets).2
  have hinfo := hostinfo_of_notMem hat hopen
  have hcolon : ':' ∉ host := by
    rw [← count_eq_zero]
    refine Nat.le_zero.mp ((hcount (by decide)).trans ?_)
    rw [hinfo]
    exact (count_eq_zero.mpr (notMem_before ':' netloc)).le
  have hwritten : (hostinfo netloc).1 = host := by
    rw [hinfo]
    conv_lhs => rw [heq]
    cases portOf scheme netloc with
    | none => rw [netlocOf_none, before_of_notMem hcolon]
    | some p => rw [netlocOf_some, before_append hcolon]
  have hself : trimmed (py.hostname netloc) = py.hostname netloc := by
    apply (trimmed_sublist _).eq_of_length_le
    calc (py.hostname netloc).length
        = ((py.hostname netloc).map Char.toLower).length := (length_map _).symm
      _ = host.length := by rw [map_hostname laws hascii, hwritten, length_map]
      _ ≤ (trimmed (py.hostname netloc)).length := by rw [hhost, length_map]
  obtain ⟨hfirst, hlast⟩ := trimmed_eq_self_iff.mp hself
  have hbare : IsBare (py.hostname netloc) := by
    refine ⟨?_, ?_, hfirst, hlast⟩
    · intro hnil
      rw [hself, hnil] at hhost
      exact hhostne hhost
    · have hplain : ∀ {d : Char}, d.isAlpha = false → d ∉ host → d ∉ py.hostname netloc := by
        intro d hd hnot hin
        rw [hhost, hself] at hnot
        exact hnot (mem_map.mpr ⟨d, hin, (toLower_eq_iff hd).mpr rfl⟩)
      have hsub : ∀ {d : Char}, d ∉ netloc → d ∉ host := by
        intro d hnot hin
        rw [← hwritten] at hin
        exact hnot ((hostinfo_sublist netloc).subset hin)
      intro c hc
      refine ⟨?_, ?_, ?_, ?_⟩ <;> rintro rfl
      · exact hplain (by decide) (hsub hat) hc
      · exact hplain (by decide) hcolon hc
      · exact hplain (by decide) (hsub hopen) hc
      · exact hplain (by decide) (hsub hclose) hc
  refine ⟨host, portOf scheme netloc, ?_, ?_, isPort_portOf, heq⟩
  · rw [hhost, hself, isBare_map_toLower]
    exact hbare
  · rw [hhost, map_toLower_toLower]

theorem canonical_netlocOf (laws : py.Lawful tame)
    (hbare : IsBare host) (hlower : host.map Char.toLower = host) (hascii : host.all isAscii)
    (hport : ∀ p ∈ port, IsPort scheme p) : py.Canonical scheme (netlocOf host port) := by
  obtain ⟨-, -, hopen, hclose⟩ := hbare.notMem
  have hnetloc := isAscii_netlocOf hascii port
  have hinfo := hostinfo_netlocOf hbare port
  have hname : (trimmed (py.hostname (netlocOf host port))) = py.hostname (netlocOf host port) ∧
      (py.hostname (netlocOf host port)).map Char.toLower = host := by
    have hmap := map_hostname laws hnetloc
    rw [hinfo, hlower] at hmap
    refine ⟨?_, hmap⟩
    obtain ⟨-, -, hfirst, hlast⟩ := isBare_map_toLower.mp (hmap ▸ hbare)
    exact trimmed_eq_self_iff.mpr ⟨hfirst, hlast⟩
  have hhost : py.canonicalHost (py.hostname (netlocOf host port)) = host := by
    rw [canonicalHost_of_ascii laws (isAscii_hostname laws hnetloc), hname.1, hname.2]
  refine ⟨?_, ?_, ?_⟩
  · have hnone : ∀ {d : Char}, d ≠ ':' → d.isDigit = false → d ∉ host →
        d ∉ netlocOf host port := by
      intro d hcolon hdigit hnot
      rw [← count_eq_zero, count_netlocOf hcolon hdigit, count_eq_zero]
      exact hnot
    unfold bracketsAccepted
    rw [if_neg fun h => hnone (by decide) (by decide) hopen h.1]
    exact decide_eq_true
      ⟨hnone (by decide) (by decide) hopen, hnone (by decide) (by decide) hclose⟩
  · unfold checkNetloc
    rw [hnetloc]
    rfl
  · unfold canonicalNetloc
    rw [hhost, if_neg hbare.nonempty, hinfo]
    cases port with
    | none => exact (if_pos rfl).trans (congrArg some (netlocOf_none host).symm)
    | some p =>
      have hp := hport p rfl
      have hread : readPort (Nat.toDigits 10 p) = some p := readPort_toDigits hp.1
      have hkept : canonicalPort scheme (some p) = some p :=
        Option.filter_eq_some_iff.mpr ⟨rfl, decide_eq_true hp.2⟩
      dsimp only [Option.map_some, Option.getD_some]
      rw [if_neg Nat.toDigits_ne_nil, hread, Option.map_some, hkept]

theorem canonical_iff_readsBack (laws : py.Lawful tame)
    (hne : host ≠ []) (hascii : host.all isAscii)
    (hport : ∀ p ∈ port, IsPort scheme p) :
    py.Canonical scheme (netlocOf host port) ↔
      host.map Char.toLower = host ∧ ReadsBack scheme host port := by
  have hdigits : ∀ p, ':' ∉ Nat.toDigits 10 p := notMem_digits (by decide)
  have hnetloc := isAscii_netlocOf hascii port
  constructor
  · intro hcanonical
    obtain ⟨name, given, hbare, hlower, hgiven, heq⟩ :=
      canonical_parts laws (netlocOf_ne_nil hne port) hnetloc hcanonical
    obtain ⟨-, hcolon, -⟩ := hbare.notMem
    cases given with
    | none =>
      rw [netlocOf_none] at heq
      cases port with
      | none =>
        rw [netlocOf_none] at heq
        rw [heq]
        exact ⟨hlower, Or.inl hbare⟩
      | some p =>
        refine absurd ?_ hcolon
        rw [← heq, netlocOf_some]
        exact mem_append_right _ (mem_cons_self ..)
    | some q =>
      have hq := hgiven q rfl
      cases port with
      | none =>
        rw [netlocOf_none] at heq
        refine ⟨?_, Or.inr ⟨rfl, name, q, hbare, hq, heq⟩⟩
        rw [heq, netlocOf_some, map_append, map_cons, hlower,
          (map_toLower_eq_iff (isAlpha_digits q)).mpr rfl]
        rfl
      | some p =>
        rw [netlocOf_some, netlocOf_some] at heq
        have hhost : ':' ∉ host := by
          intro hin
          have hsplit : host ++ ':' :: Nat.toDigits 10 p = before ':' host ++ ':' ::
              (after ':' host ++ ':' :: Nat.toDigits 10 p) := by
            conv_lhs => rw [eq_before_after hin, append_assoc, cons_append]
          rw [hsplit] at heq
          have hrest := congrArg (after ':') heq
          rw [after_append hcolon, after_append (notMem_before ':' host)] at hrest
          refine hdigits q ?_
          rw [← hrest]
          exact mem_append_right _ (mem_cons_self ..)
        have hname := congrArg (before ':') heq
        rw [before_append hhost, before_append hcolon] at hname
        rw [hname]
        exact ⟨hlower, Or.inl hbare⟩
  · rintro ⟨hlower, hbare | ⟨rfl, name, p, hbare, hp, rfl⟩⟩
    · exact canonical_netlocOf laws hbare hlower hascii hport
    · have hsub : name.Sublist (netlocOf name (some p)) := sublist_append_left ..
      rw [netlocOf_none]
      refine canonical_netlocOf laws hbare ?_ (all_isAscii_of_sublist hsub hascii) ?_
      · rw [netlocOf_some, map_append] at hlower
        exact (append_inj hlower (length_map _)).1
      · rintro _ ⟨⟩
        exact hp

def Unicode.HostRepeats (py : Unicode) (scheme host : List Char) (port : Option ℕ) : Prop :=
  let encoded := py.canonicalHost host
  if (trimmed host).all isAscii then ReadsBack scheme (trimmed host) port
  else if encoded.all isAscii then
    encoded.map Char.toLower = encoded ∧ ReadsBack scheme encoded port
  else py.Canonical scheme (netlocOf encoded port)

theorem hostRepeats_iff (laws : py.Lawful tame)
    (hne : py.canonicalHost host ≠ []) (hport : ∀ p ∈ port, IsPort scheme p) :
    py.Canonical scheme (netlocOf (py.canonicalHost host) port) ↔
      py.HostRepeats scheme host port := by
  unfold HostRepeats
  dsimp only
  split_ifs with hgiven hencoded
  · have hhost := canonicalHost_of_ascii laws hgiven
    have hascii : (py.canonicalHost host).all isAscii := by
      rw [hhost, all_isAscii_map_toLower]
      exact hgiven
    rw [canonical_iff_readsBack laws hne hascii hport, hhost, readsBack_map_toLower]
    exact and_iff_right (map_toLower_toLower _)
  · exact canonical_iff_readsBack laws hne hencoded hport
  · exact Iff.rfl

end OmniSense.Enrichment.Url
