import OmniSense.Enrichment.UrlSplitting
import OmniSense.Library.Fields

/-! What canonicalizing a path, a query or a netloc once more makes of it. -/

namespace OmniSense.Enrichment.Url

open Library Library.Percent List

/-! ## Dot segments -/

/-- A segment that `_remove_dot_segments` takes out. -/
def isDots (segment : List Char) : Bool := segment = ['.'] || segment = ['.', '.']

variable (query : List Char) {path : List Char} {segment : List Char} {c : Char}

theorem resolveDots_cons {output rest : List (List Char)} (h : isDots segment = false) :
    resolveDots output (segment :: rest) = resolveDots (output ++ [segment]) rest := by
  have hne : segment ≠ ['.'] ∧ segment ≠ ['.', '.'] := by simpa [isDots] using h
  rw [resolveDots, if_neg hne.1, if_neg hne.2]

theorem resolveDots_of_plain {segments : List (List Char)} (output : List (List Char))
    (h : ∀ segment ∈ segments, isDots segment = false) :
    resolveDots output segments = output ++ segments := by
  induction segments generalizing output with
  | nil => rw [resolveDots, append_nil]
  | cons segment rest ih =>
    obtain ⟨hsegment, hrest⟩ := forall_mem_cons.mp h
    rw [resolveDots_cons hsegment, ih _ hrest, append_assoc, singleton_append]

theorem mem_resolveDots {segments output : List (List Char)}
    (h : segment ∈ resolveDots output segments) :
    segment ∈ output ∨ segment = [] ∨ segment ∈ segments ∧ isDots segment = false := by
  induction segments generalizing output with
  | nil =>
    rw [resolveDots] at h
    exact Or.inl h
  | cons first rest ih =>
    have hlater : segment = [] ∨ segment ∈ rest ∧ isDots segment = false →
        segment ∈ output ∨ segment = [] ∨ segment ∈ first :: rest ∧ isDots segment = false :=
      fun h => Or.inr (h.imp_right fun h => ⟨mem_cons_of_mem _ h.1, h.2⟩)
    have hended : ∀ out : List (List Char), (∀ x ∈ out, x ∈ output) →
        segment ∈ resolveDots (if rest = [] then out ++ [[]] else out) rest →
        segment ∈ output ∨ segment = [] ∨ segment ∈ first :: rest ∧ isDots segment = false := by
      intro out hout hmem
      rcases ih hmem with hmem | hmem
      · split_ifs at hmem
        · rcases mem_append.mp hmem with hmem | hmem
          · exact Or.inl (hout segment hmem)
          · exact Or.inr (Or.inl (mem_singleton.mp hmem))
        · exact Or.inl (hout segment hmem)
      · exact hlater hmem
    by_cases hone : first = ['.']
    · rw [resolveDots, if_pos hone] at h
      exact hended output (fun _ hx => hx) h
    by_cases htwo : first = ['.', '.']
    · rw [resolveDots, if_neg hone, if_pos htwo] at h
      refine hended _ (fun x hx => ?_) h
      split_ifs at hx
      · exact dropLast_subset _ hx
      · exact hx
    · have hplain : isDots first = false := by simp [isDots, hone, htwo]
      rw [resolveDots_cons hplain] at h
      rcases ih h with hmem | hmem
      · rcases mem_append.mp hmem with hmem | hmem
        · exact Or.inl hmem
        · rw [mem_singleton] at hmem
          rw [hmem]
          exact Or.inr (Or.inr ⟨mem_cons_self .., hplain⟩)
      · exact hlater hmem

theorem resolveDots_head (segments : List (List Char)) (first : List Char)
    (output : List (List Char)) :
    ∃ rest, resolveDots (first :: output) segments = first :: rest ∧ (segments ≠ [] → rest ≠ []) := by
  induction segments generalizing output with
  | nil => exact ⟨output, by rw [resolveDots], fun h => absurd rfl h⟩
  | cons segment more ih =>
    have hended : ∀ out : List (List Char),
        ∃ rest, resolveDots (if more = [] then first :: out ++ [[]] else first :: out) more =
          first :: rest ∧ rest ≠ [] := by
      intro out
      split_ifs with hmore
      · exact ⟨out ++ [[]], by rw [hmore, resolveDots]; rfl, by simp⟩
      · obtain ⟨rest, hrest, hne⟩ := ih out
        exact ⟨rest, hrest, hne hmore⟩
    by_cases hone : segment = ['.']
    · obtain ⟨rest, hrest, hne⟩ := hended output
      exact ⟨rest, by rw [resolveDots, if_pos hone, hrest], fun _ => hne⟩
    by_cases htwo : segment = ['.', '.']
    · obtain ⟨out, hout⟩ : ∃ out, (if 1 < (first :: output).length then (first :: output).dropLast
          else first :: output) = first :: out := by
        split_ifs with hlong
        · cases output with
          | nil => exact absurd hlong (by simp)
          | cons second output => exact ⟨_, rfl⟩
        · exact ⟨output, rfl⟩
      obtain ⟨rest, hrest, hne⟩ := hended out
      refine ⟨rest, ?_, fun _ => hne⟩
      rw [resolveDots, if_neg hone, if_pos htwo]
      rw [hout]
      exact hrest
    · have hplain : isDots segment = false := by simp [isDots, hone, htwo]
      rw [resolveDots_cons hplain]
      by_cases hmore : more = []
      · exact ⟨output ++ [segment], by rw [hmore, resolveDots]; rfl, fun _ => by simp⟩
      · obtain ⟨rest, hrest, hne⟩ := ih (output ++ [segment])
        exact ⟨rest, hrest, fun _ => hne hmore⟩

/-! ## Paths -/

/-- The segments that `_remove_dot_segments` keeps of a path. -/
def keptSegments (path : List Char) : List (List Char) := resolveDots [] (path.splitOn '/')

theorem keptSegments_eq (h : path.head? = some '/') :
    ∃ rest, keptSegments path = [] :: rest ∧ rest ≠ [] := by
  obtain ⟨tail, rfl⟩ : ∃ tail, path = '/' :: tail := by
    cases path with
    | nil => cases h
    | cons c tail =>
      cases h
      exact ⟨tail, rfl⟩
  have hsplit : ('/' :: tail).splitOn '/' = [] :: tail.splitOn '/' :=
    splitOn_append_cons_self [] tail
  obtain ⟨rest, hrest, hne⟩ := resolveDots_head (tail.splitOn '/') [] []
  refine ⟨rest, ?_, hne (splitOn_ne_nil '/' tail)⟩
  rw [keptSegments, hsplit, resolveDots_cons (by decide)]
  exact hrest

theorem slash_notMem_keptSegments {path segment : List Char} (h : segment ∈ keptSegments path) :
    '/' ∉ segment := by
  rcases mem_resolveDots h with h | rfl | ⟨h, -⟩
  · cases h
  · exact not_mem_nil
  · exact (mem_splitOn h).1

theorem isDots_keptSegments {path segment : List Char} (h : segment ∈ keptSegments path) :
    isDots segment = false := by
  rcases mem_resolveDots h with h | rfl | ⟨-, h⟩
  · cases h
  · rfl
  · exact h

theorem removeDotSegments_eq (h : path.head? = some '/') :
    removeDotSegments path = ['/'].intercalate (keptSegments path) := by
  obtain ⟨rest, hrest, hne⟩ := keptSegments_eq h
  have hhead : (['/'].intercalate (keptSegments path)).head? = some '/' := by
    obtain ⟨first, more, rfl⟩ := exists_cons_of_ne_nil hne
    rw [hrest, intercalate_cons_cons]
    rfl
  unfold removeDotSegments
  by_cases hdot : '.' ∈ path
  · rw [if_neg (not_not.mpr hdot)]
    exact if_neg fun hslash => hslash.2 hhead
  · have hplain : ∀ segment ∈ path.splitOn '/', isDots segment = false := by
      intro segment hsegment
      have hnot : '.' ∉ segment := fun hin => hdot ((mem_splitOn hsegment).2 hin)
      have hne : segment ≠ ['.'] ∧ segment ≠ ['.', '.'] := by
        constructor <;> rintro rfl <;> exact hnot (by simp)
      simp [isDots, hne.1, hne.2]
    rw [if_pos hdot, keptSegments, resolveDots_of_plain [] hplain, nil_append,
      intercalate_splitOn]

def pathMarks : List Char :=
  ['/', '-', '.', '_', '~', '!', '$', '&', Char.ofNat 0x27, '(', ')', '*', '+', ',', ';', '=', ':', '@']

theorem isPathSafe_eq (c : Char) : isPathSafe c = (isUnreserved c || c ∈ pathMarks) := by
  unfold isPathSafe
  rw [String.toList_ofList]
  rfl

theorem pathQuotable : Quotable isPathSafe isUnreserved := by
  refine ⟨fun c hc => ?_, ?_, fun c hc => by simp [isPathSafe, hc]⟩
  · rw [isPathSafe_eq] at hc
    rcases Bool.or_eq_true_iff.mp hc with hc | hc
    · exact isAscii_of_isUnreserved hc
    · exact all_eq_true.mp (by decide : pathMarks.all isAscii) c (of_decide_eq_true hc)
  · rw [isPathSafe_eq]
    decide

theorem normalizeEscapes_intercalate (segments : List (List Char)) :
    normalizeEscapes isPathSafe isUnreserved (['/'].intercalate segments) =
      ['/'].intercalate (segments.map (normalizeEscapes isPathSafe isUnreserved)) := by
  induction segments with
  | nil => rfl
  | cons first rest ih =>
    cases rest with
    | nil => simp
    | cons second rest =>
      rw [intercalate_cons_cons, map_cons, map_cons, intercalate_cons_cons,
        append_assoc, singleton_append,
        pathQuotable.normalizeEscapes_append (by decide) (by decide), ih]
      simp

theorem slash_notMem_normalizeEscapes (h : '/' ∉ segment) :
    '/' ∉ normalizeEscapes isPathSafe isUnreserved segment := by
  intro hin
  rcases mem_normalizeEscapes pathQuotable hin with ⟨-, hin | hin⟩ | hin | hin
  · exact h hin
  · exact absurd hin (by decide)
  · exact absurd hin (by decide)
  · exact absurd hin (by decide)

def hidesDots (path : List Char) : Bool :=
  (keptSegments path).any fun segment => isDots (normalizeEscapes isPathSafe isUnreserved segment)

theorem canonicalPath_eq (h : path.head? = some '/') : canonicalPath path = ['/'].intercalate
      ((keptSegments path).map (normalizeEscapes isPathSafe isUnreserved)) := by
  obtain ⟨rest, hrest, hne⟩ := keptSegments_eq h
  obtain ⟨first, more, rfl⟩ := exists_cons_of_ne_nil hne
  unfold canonicalPath
  rw [removeDotSegments_eq h, normalizeEscapes_intercalate, hrest, map_cons, map_cons,
    intercalate_cons_cons]
  rfl

theorem head?_canonicalPath (h : path.head? = some '/') :
    (canonicalPath path).head? = some '/' := by
  obtain ⟨rest, hrest, hne⟩ := keptSegments_eq h
  obtain ⟨first, more, rfl⟩ := exists_cons_of_ne_nil hne
  rw [canonicalPath_eq h, hrest, map_cons, map_cons, intercalate_cons_cons]
  rfl

theorem splitOn_canonicalPath (h : path.head? = some '/') : (canonicalPath path).splitOn '/' =
      (keptSegments path).map (normalizeEscapes isPathSafe isUnreserved) := by
  obtain ⟨rest, hrest, -⟩ := keptSegments_eq h
  rw [canonicalPath_eq h, splitOn_intercalate]
  · intro segment hsegment
    obtain ⟨kept, hkept, rfl⟩ := mem_map.mp hsegment
    exact slash_notMem_normalizeEscapes (slash_notMem_keptSegments hkept)
  · rw [hrest]
    exact cons_ne_nil _ _

theorem canonicalPath_settled (h : ∀ c ∈ path.head?, c = '/') :
    canonicalPath (canonicalPath path) = canonicalPath path ↔ hidesDots path = false := by
  cases path with
  | nil => decide
  | cons c tail =>
    obtain rfl := h c rfl
    have habsolute : ('/' :: tail).head? = some '/' := rfl
    have hhead := head?_canonicalPath habsolute
    have hsplit := splitOn_canonicalPath habsolute
    have hkept : keptSegments (canonicalPath ('/' :: tail)) = resolveDots []
        ((keptSegments ('/' :: tail)).map (normalizeEscapes isPathSafe isUnreserved)) := by
      rw [keptSegments, hsplit]
    constructor
    · intro hsettled
      rw [hidesDots, any_eq_false]
      intro segment hsegment
      -- The second pass keeps no dot segment, and what it keeps is the same.
      rw [← hsettled, splitOn_canonicalPath hhead] at hsplit
      have hmem := mem_map_of_mem
        (f := normalizeEscapes isPathSafe isUnreserved) hsegment
      rw [← hsplit] at hmem
      obtain ⟨kept, hin, heq⟩ := mem_map.mp hmem
      have hself : normalizeEscapes isPathSafe isUnreserved kept = kept := by
        rw [hkept] at hin
        rcases mem_resolveDots hin with hin | rfl | ⟨hin, -⟩
        · cases hin
        · rfl
        · obtain ⟨old, -, rfl⟩ := mem_map.mp hin
          exact pathQuotable.normalizeEscapes_idem old
      rw [← heq, hself, isDots_keptSegments hin]
      exact Bool.false_ne_true
    · intro hplain
      have hnone : ∀ segment ∈ (keptSegments ('/' :: tail)).map
          (normalizeEscapes isPathSafe isUnreserved), isDots segment = false := by
        intro segment hsegment
        obtain ⟨kept, hmem, rfl⟩ := mem_map.mp hsegment
        exact eq_false_of_ne_true (any_eq_false.mp hplain kept hmem)
      rw [canonicalPath_eq hhead, hkept, resolveDots_of_plain [] hnone, nil_append, map_map,
        canonicalPath_eq rfl]
      congr 1
      exact map_congr_left fun segment _ => pathQuotable.normalizeEscapes_idem segment

theorem isPathSafe_visible (h : isPathSafe c) :
    isSpace c = false ∧ 0x20 ≤ c.toNat ∧ c ≠ '?' ∧ c ≠ '#' := by
  have hlow : ∀ n < 128, isPathSafe (Char.ofNat n) → isSpace (Char.ofNat n) = false ∧
      0x20 ≤ (Char.ofNat n).toNat ∧ Char.ofNat n ≠ '?' ∧ Char.ofNat n ≠ '#' := by
    simp only [isPathSafe_eq]
    decide +kernel
  refine ascii_or (fun c => isPathSafe c →
    isSpace c = false ∧ 0x20 ≤ c.toNat ∧ c ≠ '?' ∧ c ≠ '#') hlow (fun c hc hsafe => ?_) c h
  have hascii : c.toNat < 128 := of_decide_eq_true (pathQuotable.ascii c hsafe)
  omega

theorem hexDigits_safe (h : c ∈ hexDigits) : isUnreserved c :=
  all_eq_true.mp (by decide : hexDigits.all isUnreserved) c h

theorem canonicalPath_chars (path : List Char) :
    ∀ c ∈ canonicalPath path, isSpace c = false ∧ 0x20 ≤ c.toNat ∧ c ≠ '?' ∧ c ≠ '#' := by
  intro c hc
  unfold canonicalPath at hc
  dsimp only at hc
  split_ifs at hc
  · rw [mem_singleton.mp hc]
    decide
  · rcases mem_normalizeEscapes pathQuotable hc with ⟨hsafe, -⟩ | rfl | hdigit
    · exact isPathSafe_visible hsafe
    · decide
    · exact isPathSafe_visible (pathQuotable.plain_safe c (hexDigits_safe hdigit))

/-! ## Queries -/

theorem queryAscii : ∀ c, isUnreserved c → isAscii c := fun _ => isAscii_of_isUnreserved

theorem notMem_quote (h : isUnreserved c = false) (hpercent : c ≠ '%')
    (hdigit : c ∉ hexDigits) (s : List Char) : c ∉ quote isUnreserved s := by
  intro hc
  rcases mem_quote hc with hc | hc | hc
  · rw [h] at hc
    cases hc
  · exact hpercent hc
  · exact hdigit hc

theorem unquotePlus_quote (s : List Char) : unquotePlus (quote isUnreserved s) = s := by
  have hmap : (quote isUnreserved s).map (fun c => if c = '+' then ' ' else c) =
      quote isUnreserved s := by
    have hself : (quote isUnreserved s).map (fun c => if c = '+' then ' ' else c) =
        (quote isUnreserved s).map id := by
      apply map_congr_left
      intro c hc
      exact if_neg fun heq => notMem_quote (by decide) (by decide) (by decide) s (heq ▸ hc)
    rw [hself, map_id]
  unfold unquotePlus
  rw [hmap, unquote_quote queryAscii (by decide)]

theorem parseQsl_urlencode (pairs : List (List Char × List Char)) :
    parseQsl (urlencode pairs) = pairs := by
  have hpiece : ∀ piece ∈ pairs.map (fun pair =>
      quote isUnreserved pair.1 ++ '=' :: quote isUnreserved pair.2), '&' ∉ piece ∧ piece ≠ [] := by
    intro piece hpiece
    obtain ⟨pair, -, rfl⟩ := mem_map.mp hpiece
    refine ⟨fun h => ?_, by simp⟩
    rcases mem_append.mp h with h | h
    · exact notMem_quote (by decide) (by decide) (by decide) _ h
    · rcases mem_cons.mp h with h | h
      · exact absurd h (by decide)
      · exact notMem_quote (by decide) (by decide) (by decide) _ h
  have hread : ∀ pair : List Char × List Char,
      (unquotePlus (before '=' (quote isUnreserved pair.1 ++ '=' :: quote isUnreserved pair.2)),
        unquotePlus (after '=' (quote isUnreserved pair.1 ++ '=' :: quote isUnreserved pair.2))) =
      pair := by
    intro pair
    have hname : '=' ∉ quote isUnreserved pair.1 :=
      notMem_quote (by decide) (by decide) (by decide) _
    rw [before_append hname, after_append hname, unquotePlus_quote, unquotePlus_quote]
  cases pairs with
  | nil => rfl
  | cons first rest =>
    have hsplit : (urlencode (first :: rest)).splitOn '&' = (first :: rest).map (fun pair =>
        quote isUnreserved pair.1 ++ '=' :: quote isUnreserved pair.2) :=
      splitOn_intercalate '&' (fun piece hmem => (hpiece piece hmem).1) (cons_ne_nil _ _)
    have hne : urlencode (first :: rest) ≠ [] := by
      intro hnil
      rw [hnil, splitOn_nil] at hsplit
      have hhead := (List.cons.inj hsplit).1
      exact (hpiece _ (mem_map_of_mem (mem_cons_self ..))).2 hhead.symm
    have hkept : ((first :: rest).map fun pair =>
        quote isUnreserved pair.1 ++ '=' :: quote isUnreserved pair.2).filter (· ≠ []) =
        (first :: rest).map fun pair =>
          quote isUnreserved pair.1 ++ '=' :: quote isUnreserved pair.2 :=
      filter_eq_self.mpr fun piece hmem => decide_eq_true (hpiece piece hmem).2
    unfold parseQsl
    rw [if_neg hne, hsplit, hkept, map_map]
    exact (map_congr_left fun pair _ => hread pair).trans (map_id _)

theorem pairLe_iff (a b : List Char × List Char) :
    pairLe a b = true ↔ (toLex a : List Char ×ₗ List Char) ≤ toLex b := by
  unfold pairLe
  rw [decide_eq_true_iff, Prod.Lex.le_iff]
  rfl

instance : Std.Total fun a b : List Char × List Char => pairLe a b = true :=
  ⟨fun a b => by
    rw [pairLe_iff, pairLe_iff]
    exact le_total _ _⟩

instance : IsTrans (List Char × List Char) fun a b => pairLe a b = true :=
  ⟨fun a b c => by
    rw [pairLe_iff, pairLe_iff, pairLe_iff]
    exact le_trans⟩

instance : Std.Antisymm fun a b : List Char × List Char => pairLe a b = true :=
  ⟨fun a b => by
    rw [pairLe_iff, pairLe_iff]
    intro hab hba
    exact toLex.injective (le_antisymm hab hba)⟩

variable {py : Unicode}

theorem parseQsl_canonicalQuery : parseQsl (py.canonicalQuery query) =
      ((parseQsl query).filter fun pair => !py.isTrackingParam pair.1).insertionSort
        fun a b => pairLe a b :=
  parseQsl_urlencode _

theorem canonicalQuery_idem :
    py.canonicalQuery (py.canonicalQuery query) = py.canonicalQuery query := by
  have hparsed : parseQsl (py.canonicalQuery query) = _ := parseQsl_canonicalQuery query
  have hkept : (parseQsl (py.canonicalQuery query)).filter (fun pair => !py.isTrackingParam pair.1) =
      parseQsl (py.canonicalQuery query) := by
    rw [filter_eq_self]
    intro pair hpair
    rw [hparsed, mem_insertionSort, mem_filter] at hpair
    exact hpair.2
  have hsorted : (parseQsl (py.canonicalQuery query)).Pairwise fun a b => pairLe a b := by
    rw [hparsed]
    exact pairwise_insertionSort _ _
  calc py.canonicalQuery (py.canonicalQuery query)
      = urlencode (((parseQsl (py.canonicalQuery query)).filter fun pair =>
          !py.isTrackingParam pair.1).insertionSort fun a b => pairLe a b) := rfl
    _ = urlencode (parseQsl (py.canonicalQuery query)) := by rw [hkept, hsorted.insertionSort_eq]
    _ = py.canonicalQuery query := by
      rw [hparsed]
      rfl

theorem canonicalQuery_chars :
    ∀ c ∈ py.canonicalQuery query, isSpace c = false ∧ 0x20 ≤ c.toNat ∧ c ≠ '#' := by
  have hunreserved : ∀ c, isUnreserved c → isSpace c = false ∧ 0x20 ≤ c.toNat ∧ c ≠ '#' := by
    intro c hc
    obtain ⟨hspace, hle, -, hne⟩ := isPathSafe_visible (pathQuotable.plain_safe c hc)
    exact ⟨hspace, hle, hne⟩
  have hquoted : ∀ text, ∀ c ∈ quote isUnreserved text,
      isSpace c = false ∧ 0x20 ≤ c.toNat ∧ c ≠ '#' := by
    intro text c hc
    rcases mem_quote hc with hc | rfl | hc
    · exact hunreserved c hc
    · decide
    · exact hunreserved c (hexDigits_safe hc)
  intro c hc
  rcases mem_intercalate hc with rfl | ⟨piece, hpiece, hc⟩
  · decide
  · obtain ⟨pair, -, rfl⟩ := mem_map.mp hpiece
    rcases mem_append.mp hc with hc | hc
    · exact hquoted _ c hc
    · rcases mem_cons.mp hc with rfl | hc
      · decide
      · exact hquoted _ c hc

end OmniSense.Enrichment.Url
