import Mathlib.Data.List.Chain
import OmniSense.Enrichment.Cleaning
import OmniSense.Library.Fields

/-! `collapse_whitespace` is a normal form: each of its passes keeps the fields of a text, and leaves
alone what the passes together make. -/

namespace OmniSense.Enrichment

open Library List

variable {text : List Char} {c : Char}

/-! ## Fields -/

def Respaces (f : List Char → List Char) : Prop :=
  ∀ before text, fields isSpace (before ++ f text) = fields isSpace (before ++ text)

theorem isSpace_of_isHorizontal (h : isHorizontal c = true) : isSpace c = true :=
  (Bool.and_eq_true_iff.mp h).1

theorem respaces_newlines : Respaces newlines := by
  intro before text
  induction text generalizing before with
  | nil => rfl
  | cons c rest ih =>
    unfold newlines
    split_ifs with hplain hpair
    · rw [append_cons, ih, ← append_cons]
    · obtain ⟨rest, rfl⟩ : ∃ tail, rest = '\n' :: tail := by
        cases rest with
        | nil => cases hpair
        | cons d tail => exact ⟨tail, by rw [Option.some.inj hpair]⟩
      rw [ih, not_ne_iff.mp hplain]
      exact (fields_merge rfl rfl).symm
    · rw [append_cons, ih, ← append_cons, not_ne_iff.mp hplain]
      exact fields_exchange rfl rfl

theorem respaces_horizontalRun : Respaces horizontalRun := by
  intro before text
  induction text generalizing before with
  | nil => rfl
  | cons c rest ih =>
    unfold horizontalRun
    split_ifs with hplain hrun
    · rw [append_cons, ih, ← append_cons]
    · have hc : isSpace c = true := isSpace_of_isHorizontal (by simpa using hplain)
      cases rest with
      | nil => cases hrun
      | cons d tail =>
        rw [ih]
        exact (fields_merge hc (isSpace_of_isHorizontal hrun)).symm
    · have hc : isSpace c = true := isSpace_of_isHorizontal (by simpa using hplain)
      rw [append_cons, ih, ← append_cons]
      exact fields_exchange rfl hc

variable {rest : List Char}

theorem head_before_newline (h : (rest.dropWhile isHorizontal).head? = some '\n') :
    ∃ d tail, rest = d :: tail ∧ isSpace d = true := by
  cases rest with
  | nil => cases h
  | cons d tail =>
    refine ⟨d, tail, rfl, ?_⟩
    cases hd : isHorizontal d with
    | true => exact isSpace_of_isHorizontal hd
    | false =>
      rw [dropWhile_cons_of_neg (by simp [hd])] at h
      rw [Option.some.inj h]
      rfl

theorem respaces_beforeNewlines : Respaces beforeNewlines := by
  intro before text
  induction text generalizing before with
  | nil => rfl
  | cons c rest ih =>
    unfold beforeNewlines
    split_ifs with hdrop
    · rw [Bool.and_eq_true, beq_iff_eq] at hdrop
      obtain ⟨d, tail, rfl, hd⟩ := head_before_newline hdrop.2
      rw [ih]
      exact (fields_merge (isSpace_of_isHorizontal hdrop.1) hd).symm
    · rw [append_cons, ih, ← append_cons]

theorem respaces_blankRun : Respaces blankRun := by
  intro before text
  induction text generalizing before with
  | nil => rfl
  | cons c rest ih =>
    unfold blankRun
    split_ifs with hdrop
    · rw [Bool.and_eq_true, beq_iff_eq, beq_iff_eq] at hdrop
      obtain ⟨tail, rfl⟩ : ∃ tail, rest = '\n' :: tail := by
        rcases rest with _ | ⟨d, tail⟩
        · cases hdrop.2
        · exact ⟨tail, by rw [(List.cons.inj hdrop.2).1]⟩
      rw [ih, hdrop.1]
      exact (fields_merge rfl rfl).symm
    · rw [append_cons, ih, ← append_cons]

theorem Respaces.fields {f : List Char → List Char} (h : Respaces f) (text : List Char) :
    fields isSpace (f text) = Library.fields isSpace text := h [] text

theorem fields_lineEdges (text : List Char) :
    fields isSpace (lineEdges text) = fields isSpace text := by
  have hback := fields_reverse_congr (respaces_beforeNewlines.fields (beforeNewlines text).reverse)
  rw [reverse_reverse, respaces_beforeNewlines.fields] at hback
  exact hback

/-! ## Zero-width characters and exotic spaces -/

def isZeroWidth (c : Char) : Bool := (zeroWidthAndSpaces c).isNone

theorem zeroWidthAndSpaces_cases (c : Char) : zeroWidthAndSpaces c = none ∨
    zeroWidthAndSpaces c = some c ∨ isSpace c = true ∧ zeroWidthAndSpaces c = some ' ' := by
  unfold zeroWidthAndSpaces
  dsimp only
  split_ifs with hzero hspace
  · exact .inl rfl
  · refine .inr (.inr ⟨?_, rfl⟩)
    simp only [isSpace, decide_eq_true_eq]
    omega
  · exact .inr (.inl rfl)

theorem fields_translate (text : List Char) : fields isSpace (text.filterMap zeroWidthAndSpaces) =
    fields isSpace (text.filter fun c => !isZeroWidth c) := by
  have hsplit : text.filterMap zeroWidthAndSpaces =
      (text.filter fun c => !isZeroWidth c).map fun c => (zeroWidthAndSpaces c).getD c := by
    induction text with
    | nil => rfl
    | cons c rest ih =>
      cases hc : zeroWidthAndSpaces c with
      | none =>
        rw [filterMap_cons_none hc, filter_cons_of_neg (by simp [isZeroWidth, hc]), ih]
      | some d =>
        rw [filterMap_cons_some hc, filter_cons_of_pos (by simp [isZeroWidth, hc]),
          map_cons, hc, ih]
        rfl
  rw [hsplit]
  refine fields_map (fun c => ?_) _
  rcases zeroWidthAndSpaces_cases c with hc | hc | ⟨hspace, hc⟩
  · rw [hc]
    exact .inl rfl
  · rw [hc]
    exact .inl rfl
  · rw [hc]
    exact .inr ⟨hspace, rfl⟩

/-! ## The normal form -/

def Single (a b : Char) : Prop := ¬(isHorizontal a = true ∧ isHorizontal b = true)

def Trimmed (a b : Char) : Prop := Single a b ∧ (isHorizontal a = true → b ≠ '\n')

def Beside (a b : Char) : Prop := Trimmed a b ∧ (isHorizontal b = true → a ≠ '\n')

theorem head?_horizontalRun (text : List Char) :
    (horizontalRun text).head?.any isHorizontal = text.head?.any isHorizontal := by
  induction text with
  | nil => rfl
  | cons c rest ih =>
    unfold horizontalRun
    split_ifs with hplain hrun
    · rfl
    · rw [ih, hrun]
      have hc : isHorizontal c = true := by simpa using hplain
      exact hc.symm
    · have hc : isHorizontal c = true := by simpa using hplain
      exact hc.symm

theorem single_horizontalRun (text : List Char) : (horizontalRun text).IsChain Single := by
  induction text with
  | nil => exact .nil
  | cons c rest ih =>
    unfold horizontalRun
    split_ifs with hplain hrun
    · refine ih.cons fun d _ h => ?_
      rw [h.1] at hplain
      cases hplain
    · exact ih
    · refine ih.cons fun d hd h => hrun ?_
      rw [← head?_horizontalRun, hd]
      exact h.2

variable {text : List Char}

theorem mem_horizontalRun (h : c ∈ horizontalRun text) :
    c = ' ' ∨ c ∈ text ∧ isHorizontal c = false := by
  induction text with
  | nil => cases h
  | cons d rest ih =>
    unfold horizontalRun at h
    split_ifs at h with hplain hrun
    · rcases mem_cons.mp h with rfl | h
      · exact .inr ⟨mem_cons_self, by simpa using hplain⟩
      · exact (ih h).imp_right fun h => ⟨mem_cons_of_mem _ h.1, h.2⟩
    · exact (ih h).imp_right fun h => ⟨mem_cons_of_mem _ h.1, h.2⟩
    · rcases mem_cons.mp h with rfl | h
      · exact .inl rfl
      · exact (ih h).imp_right fun h => ⟨mem_cons_of_mem _ h.1, h.2⟩

theorem beforeNewlines_solid (h : isHorizontal c = false) :
    beforeNewlines (c :: rest) = c :: beforeNewlines rest := by
  rw [beforeNewlines, h, Bool.false_and, if_neg Bool.false_ne_true]

theorem newline_next (hc : isHorizontal c = true) (hnext : ∀ d ∈ rest.head?, Single c d)
    (h : (rest.dropWhile isHorizontal).head? = some '\n') : ∃ tail, rest = '\n' :: tail := by
  cases rest with
  | nil => cases h
  | cons d tail =>
    have hd : isHorizontal d = false := Bool.eq_false_iff.mpr fun hd => hnext d rfl ⟨hc, hd⟩
    rw [dropWhile_cons_of_neg (by simp [hd])] at h
    exact ⟨tail, by rw [Option.some.inj h]⟩

theorem trimmed_beforeNewlines {T : Char → Char → Prop} (hT : ∀ a, T a '\n') {text : List Char}
    (h : text.IsChain fun a b => Single a b ∧ T a b) :
    (beforeNewlines text).IsChain fun a b => Trimmed a b ∧ T a b := by
  induction text with
  | nil => exact .nil
  | cons c rest ih =>
    obtain ⟨hhead, hrest⟩ := isChain_cons.mp h
    have hkept := ih hrest
    unfold beforeNewlines
    split_ifs with hdrop
    · exact hkept
    · refine hkept.cons fun d hd => ?_
      cases rest with
      | nil => cases hd
      | cons e tail =>
        have hce := hhead e rfl
        cases he : isHorizontal e && (tail.dropWhile isHorizontal).head? == some '\n' with
        | true =>
          -- The blank between the two goes, so the newline comes to stand here.
          have hpair := he
          rw [Bool.and_eq_true, beq_iff_eq] at hpair
          obtain ⟨tail, rfl⟩ := newline_next hpair.1
            (fun d hd => ((isChain_cons.mp hrest).1 d hd).1) hpair.2
          rw [beforeNewlines, if_pos he, beforeNewlines_solid rfl] at hd
          cases hd
          have hc : isHorizontal c = false := Bool.eq_false_iff.mpr fun hc => hce.1 ⟨hc, hpair.1⟩
          exact ⟨⟨fun h => by simp [hc] at h, fun h => by simp [hc] at h⟩, hT c⟩
        | false =>
          rw [beforeNewlines, he, if_neg Bool.false_ne_true] at hd
          cases hd
          refine ⟨⟨hce.1, ?_⟩, hce.2⟩
          rintro hc rfl
          exact hdrop (by rw [hc]; rfl)

theorem beforeNewlines_eq (h : text.IsChain Trimmed) :
    beforeNewlines text = text := by
  induction text with
  | nil => rfl
  | cons c rest ih =>
    obtain ⟨hhead, hrest⟩ := isChain_cons.mp h
    rw [beforeNewlines, if_neg, ih hrest]
    intro hdrop
    rw [Bool.and_eq_true, beq_iff_eq] at hdrop
    obtain ⟨tail, rfl⟩ := newline_next hdrop.1 (fun d hd => (hhead d hd).1) hdrop.2
    exact (hhead '\n' rfl).2 hdrop.1 rfl

theorem single_comm {a b : Char} (h : Single a b) : Single b a := fun hba => h ⟨hba.2, hba.1⟩

theorem beside_lineEdges (h : text.IsChain Single) :
    (lineEdges text).IsChain Beside := by
  have hfront := trimmed_beforeNewlines (T := fun _ _ => True) (fun _ => trivial)
    (h.imp fun _ _ hab => ⟨hab, trivial⟩)
  have hturned : (beforeNewlines text).reverse.IsChain
      fun a b => Single a b ∧ (isHorizontal b = true → a ≠ '\n') := by
    rw [isChain_reverse]
    exact hfront.imp fun a b hab => ⟨single_comm hab.1.1, hab.1.2⟩
  have hback := trimmed_beforeNewlines
    (T := fun a b => isHorizontal b = true → a ≠ '\n') (fun _ hn => by cases hn) hturned
  unfold lineEdges
  rw [isChain_reverse]
  exact hback.imp fun a b hab => ⟨⟨single_comm hab.1.1, hab.2⟩, hab.1.2⟩

theorem lineEdges_eq (h : text.IsChain Beside) : lineEdges text = text := by
  have hturned : text.reverse.IsChain Trimmed := by
    rw [isChain_reverse]
    exact h.imp fun a b hab => ⟨single_comm hab.1.1, hab.2⟩
  unfold lineEdges
  rw [beforeNewlines_eq (h.imp fun _ _ hab => hab.1), beforeNewlines_eq hturned,
    reverse_reverse]

theorem mem_beforeNewlines (h : c ∈ beforeNewlines text) : c ∈ text := by
  induction text with
  | nil => exact h
  | cons d rest ih =>
    unfold beforeNewlines at h
    split_ifs at h
    · exact mem_cons_of_mem _ (ih h)
    · exact (mem_cons.mp h).elim (fun h => h ▸ mem_cons_self) fun h =>
        mem_cons_of_mem _ (ih h)

theorem mem_lineEdges (h : c ∈ lineEdges text) : c ∈ text :=
  mem_beforeNewlines (mem_reverse.mp (mem_beforeNewlines (mem_reverse.mp h)))

/-! ## Runs of newlines -/

theorem head?_blankRun (text : List Char) : (blankRun text).head? = text.head? := by
  induction text with
  | nil => rfl
  | cons c rest ih =>
    unfold blankRun
    split_ifs with hdrop
    · rw [Bool.and_eq_true, beq_iff_eq, beq_iff_eq] at hdrop
      rw [ih, hdrop.1]
      cases rest with
      | nil => cases hdrop.2
      | cons d tail => rw [List.head?_cons, (List.cons.inj hdrop.2).1, List.head?_cons]
    · rfl

theorem isChain_blankRun {R : Char → Char → Prop} {text : List Char} (h : text.IsChain R) :
    (blankRun text).IsChain R := by
  induction text with
  | nil => exact .nil
  | cons c rest ih =>
    obtain ⟨hhead, hrest⟩ := isChain_cons.mp h
    unfold blankRun
    split_ifs
    · exact ih hrest
    · exact (ih hrest).cons fun d hd => hhead d (head?_blankRun rest ▸ hd)

theorem mem_blankRun (h : c ∈ blankRun text) : c ∈ text := by
  induction text with
  | nil => exact h
  | cons d rest ih =>
    unfold blankRun at h
    split_ifs at h
    · exact mem_cons_of_mem _ (ih h)
    · exact (mem_cons.mp h).elim (fun h => h ▸ mem_cons_self) fun h =>
        mem_cons_of_mem _ (ih h)

theorem take_blankRun (h : ['\n', '\n'] <+: blankRun rest) : rest.take 2 = ['\n', '\n'] := by
  cases rest with
  | nil => exact absurd (prefix_nil.mp h) (cons_ne_nil _ _)
  | cons c tail =>
    unfold blankRun at h
    split_ifs at h with hdrop
    · rw [Bool.and_eq_true, beq_iff_eq, beq_iff_eq] at hdrop
      obtain ⟨d, tail, rfl⟩ : ∃ d rest, tail = d :: rest := by
        cases tail with
        | nil => cases hdrop.2
        | cons d rest => exact ⟨d, rest, rfl⟩
      rw [hdrop.1, (List.cons.inj hdrop.2).1]
      rfl
    · obtain ⟨rfl, hnext⟩ := cons_prefix_cons.mp h
      have hhead : tail.head? = some '\n' := by
        rw [← head?_blankRun]
        obtain ⟨behind, hbehind⟩ := hnext
        rw [← hbehind]
        rfl
      cases tail with
      | nil => cases hhead
      | cons d tail =>
        rw [Option.some.inj hhead]
        rfl

theorem blankRun_two (text : List Char) : ¬['\n', '\n', '\n'] <:+: blankRun text := by
  induction text with
  | nil => exact fun h => absurd (infix_nil.mp h) (cons_ne_nil _ _)
  | cons c rest ih =>
    unfold blankRun
    split_ifs with hdrop
    · exact ih
    · intro hin
      rcases infix_cons_iff.mp hin with hpre | hin
      · obtain ⟨rfl, hnext⟩ := cons_prefix_cons.mp hpre
        exact hdrop (by rw [take_blankRun hnext]; rfl)
      · exact ih hin

theorem blankRun_eq (h : ¬['\n', '\n', '\n'] <:+: text) :
    blankRun text = text := by
  induction text with
  | nil => rfl
  | cons c rest ih =>
    rw [blankRun, if_neg, ih fun hin => h (infix_cons hin)]
    intro hdrop
    rw [Bool.and_eq_true, beq_iff_eq, beq_iff_eq] at hdrop
    have hpre : ['\n', '\n'] <+: rest := hdrop.2 ▸ take_prefix 2 rest
    have hrun := cons_prefix_cons.mpr ⟨hdrop.1.symm, hpre⟩
    exact h hrun.isInfix

/-! ## The passes together -/

def collapseChars (text : List Char) : List Char :=
  stripEnds isSpace (blankRun (lineEdges (horizontalRun (newlines
    (text.filterMap zeroWidthAndSpaces)))))

theorem collapseWhitespace_toList (text : String) :
    (collapseWhitespace text).toList = collapseChars text.toList := by
  unfold collapseWhitespace
  split_ifs with hempty
  · rw [hempty]
    rfl
  · rw [strip_eq, String.toList_ofList, String.toList_ofList]
    rfl

structure IsCollapsed (text : List Char) : Prop where
  plain : ∀ c ∈ text, zeroWidthAndSpaces c = some c ∧ c ≠ '\r' ∧ (isHorizontal c = true → c = ' ')
  beside : text.IsChain Beside
  two : ¬['\n', '\n', '\n'] <:+: text
  ends : stripEnds isSpace text = text

theorem mem_newlines (h : c ∈ newlines text) :
    c ≠ '\r' ∧ (c = '\n' ∨ c ∈ text) := by
  induction text with
  | nil => cases h
  | cons d rest ih =>
    have hlater : c ∈ newlines rest → c ≠ '\r' ∧ (c = '\n' ∨ c ∈ d :: rest) := fun h =>
      (ih h).imp_right fun h => h.imp_right (mem_cons_of_mem _)
    unfold newlines at h
    split_ifs at h with hplain hpair
    · rcases mem_cons.mp h with rfl | h
      · exact ⟨hplain, .inr mem_cons_self⟩
      · exact hlater h
    · exact hlater h
    · rcases mem_cons.mp h with rfl | h
      · exact ⟨by decide, .inl rfl⟩
      · exact hlater h

theorem newlines_eq (h : ∀ c ∈ text, c ≠ '\r') : newlines text = text := by
  induction text with
  | nil => rfl
  | cons c rest ih =>
    rw [newlines, if_pos (h c mem_cons_self), ih fun d hd => h d (mem_cons_of_mem _ hd)]

theorem horizontalRun_eq (h : text.IsChain Single)
    (hplain : ∀ c ∈ text, isHorizontal c = true → c = ' ') : horizontalRun text = text := by
  induction text with
  | nil => rfl
  | cons c rest ih =>
    obtain ⟨hhead, hrest⟩ := isChain_cons.mp h
    have hih := ih hrest fun d hd => hplain d (mem_cons_of_mem _ hd)
    unfold horizontalRun
    split_ifs with hsolid hrun
    · rw [hih]
    · have hc : isHorizontal c = true := by simpa using hsolid
      cases rest with
      | nil => cases hrun
      | cons d tail => exact absurd ⟨hc, hrun⟩ (hhead d rfl)
    · rw [hih, hplain c mem_cons_self (by simpa using hsolid)]

theorem isCollapsed_collapseChars (text : List Char) : IsCollapsed (collapseChars text) := by
  have hwithin : collapseChars text <:+: blankRun (lineEdges (horizontalRun (newlines
      (text.filterMap zeroWidthAndSpaces)))) := stripEnds_within _ _
  refine ⟨fun c hc => ?_, ?_, fun hin => blankRun_two _ (hin.trans hwithin),
    stripEnds_stripEnds (fun _ h => h) _⟩
  · have hrun := mem_lineEdges (mem_blankRun (hwithin.subset hc))
    rcases mem_horizontalRun hrun with rfl | ⟨hmem, hsolid⟩
    · exact ⟨rfl, by decide, fun _ => rfl⟩
    · obtain ⟨hreturn, hline⟩ := mem_newlines hmem
      refine ⟨?_, hreturn, fun h => by rw [hsolid] at h; cases h⟩
      rcases hline with rfl | hline
      · rfl
      · obtain ⟨d, -, hd⟩ := mem_filterMap.mp hline
        rcases zeroWidthAndSpaces_cases d with hnone | hsome | ⟨-, hblank⟩
        · rw [hnone] at hd
          cases hd
        · rw [hsome] at hd
          exact Option.some.inj hd ▸ hsome
        · rw [hblank] at hd
          rw [← Option.some.inj hd]
          rfl
  · exact IsChain.infix (isChain_blankRun (beside_lineEdges (single_horizontalRun _))) hwithin

theorem IsCollapsed.collapseChars_eq (h : IsCollapsed text) :
    collapseChars text = text := by
  have htable : text.filterMap zeroWidthAndSpaces = text := by
    rw [filterMap_congr (g := some) fun c hc => (h.plain c hc).1, filterMap_some]
  unfold collapseChars
  rw [htable, newlines_eq fun c hc => (h.plain c hc).2.1,
    horizontalRun_eq (h.beside.imp fun _ _ hab => hab.1.1) fun c hc => (h.plain c hc).2.2,
    lineEdges_eq h.beside, blankRun_eq h.two, h.ends]

theorem fields_collapseChars (text : List Char) : fields isSpace (collapseChars text) =
    fields isSpace (text.filter fun c => !isZeroWidth c) := by
  unfold collapseChars
  rw [fields_stripEnds, respaces_blankRun.fields, fields_lineEdges, respaces_horizontalRun.fields,
    respaces_newlines.fields, fields_translate]

theorem isHorizontal_of_ne (h : isSpace c = true) (hne : c ≠ '\n') : isHorizontal c = true := by
  unfold isHorizontal
  rw [h, Bool.true_and, bne_iff_ne]
  exact hne

theorem IsCollapsed.edges {text line : List Char} (h : IsCollapsed text)
    (hline : line ∈ text.splitOn '\n') (hc : isSpace c = true) :
    line.head? ≠ some c ∧ line.getLast? ≠ some c := by
  obtain ⟨hnot, before, after, heq, hbefore, hafter⟩ := splitOn_around hline
  have hchain := heq ▸ h.beside
  obtain ⟨-, hrest, hleft⟩ := isChain_append.mp hchain
  obtain ⟨-, -, hright⟩ := isChain_append.mp hrest
  constructor
  · intro hhead
    have hmem : c ∈ line := mem_of_mem_head? hhead
    have hstart : (line ++ after).head? = some c := by rw [List.head?_append, hhead]; rfl
    have hhorizontal := isHorizontal_of_ne hc fun hn => hnot (hn ▸ hmem)
    cases hlast : before.getLast? with
    | none =>
      rw [List.getLast?_eq_none_iff.mp hlast, nil_append] at heq
      have hsolid : isSpace c = false := head_stripEnds (l := text) (by rw [h.ends, heq, hstart])
      rw [hsolid] at hc
      cases hc
    | some b =>
      obtain rfl := hbefore b hlast
      exact (hleft _ hlast c hstart).2 hhorizontal rfl
  · intro hlast
    have hmem : c ∈ line := mem_of_mem_getLast? hlast
    have hhorizontal := isHorizontal_of_ne hc fun hn => hnot (hn ▸ hmem)
    cases hnext : after.head? with
    | none =>
      rw [List.head?_eq_none_iff.mp hnext, append_nil] at heq
      have hend : text.getLast? = some c := by
        rw [heq, List.getLast?_append_of_ne_nil _ (ne_nil_of_mem hmem), hlast]
      have hsolid : isSpace c = false := last_stripEnds (l := text) (by rw [h.ends, hend])
      rw [hsolid] at hc
      cases hc
    | some b =>
      obtain rfl := hafter b hnext
      exact (hright c hlast _ hnext).1.2 hhorizontal rfl

/-- **Collapsing whitespace is done once**, and it keeps the words of a text: what is no blank, in its
order, with a blank where there was one. No run of newlines is longer than two, and there is no
blank at an edge of a line. -/
theorem collapseWhitespace_normal (text : String) :
    collapseWhitespace (collapseWhitespace text) = collapseWhitespace text ∧
      ((collapseWhitespace text).toList.filter fun c => !isSpace c) =
        (text.toList.filter fun c => !isZeroWidth c).filter (fun c => !isSpace c) ∧
      fields isSpace (collapseWhitespace text).toList =
        fields isSpace (text.toList.filter fun c => !isZeroWidth c) ∧
      ¬['\n', '\n', '\n'] <:+: (collapseWhitespace text).toList ∧
      ∀ line ∈ (collapseWhitespace text).toList.splitOn '\n', ∀ c, isSpace c = true →
        line.head? ≠ some c ∧ line.getLast? ≠ some c := by
  have hnormal : IsCollapsed (collapseWhitespace text).toList :=
    collapseWhitespace_toList text ▸ isCollapsed_collapseChars text.toList
  have hfields : fields isSpace (collapseWhitespace text).toList =
      fields isSpace (text.toList.filter fun c => !isZeroWidth c) := by
    rw [collapseWhitespace_toList, fields_collapseChars]
  refine ⟨?_, ?_, hfields, hnormal.two, fun line hline c hc => hnormal.edges hline hc⟩
  · rw [← String.toList_inj, collapseWhitespace_toList, hnormal.collapseChars_eq]
  · rw [← flatten_fields, hfields, flatten_fields]

end OmniSense.Enrichment
