import OmniSense.Tools.Fences
import OmniSense.Tools.McpClient
import OmniSense.Tools.WireNames

/-! A rendered result outside the fences of its spans. -/

namespace OmniSense.Tools

open Agents Library List

/-! ## Reading what is outside -/

@[grind =] def unfenced : Bool → List (Char ⊕ List Char) → List Char
  | _, [] => []
  | false, .inl c :: items => c :: unfenced false items
  | false, .inr m :: items =>
    if m = FENCE_OPEN_PREFIX then unfenced true items else m ++ unfenced false items
  | true, .inl _ :: items => unfenced true items
  | true, .inr m :: items => unfenced (m ≠ FENCE_CLOSE) items

def outsideText (text : List Char) : List Char := unfenced false (lexMarks fenceMarks 0 text)

variable {items : List (Char ⊕ List Char)}

theorem unfenced_outside (text : List Char) :
    unfenced false (text.map .inl ++ items) = text ++ unfenced false items := by
  induction text with
  | nil => rfl
  | cons c text ih => exact congrArg (c :: ·) ih

theorem unfenced_inside (text : List Char) :
    unfenced true (text.map .inl ++ items) = unfenced true items := by
  induction text with
  | nil => rfl
  | cons c text ih => exact ih

theorem unfenced_span (s : UntrustedText) (rest : List Char) :
    unfenced false (lexMarks fenceMarks 0 (FENCE_OPEN_PREFIX ++ (s.inside ++ FENCE_CLOSE) ++ rest)) =
      unfenced false (lexMarks fenceMarks 0 rest) := by
  rw [lexMarks_span, unfenced, if_pos rfl, unfenced_inside, unfenced]
  rfl

theorem unfenced_spans (spans : List UntrustedText) (rest : List Char) (hne : spans ≠ []) :
    unfenced false (lexMarks fenceMarks 0 (['\n'].intercalate (spans.map fun s =>
        FENCE_OPEN_PREFIX ++ (s.inside ++ FENCE_CLOSE)) ++ rest)) =
      List.replicate (spans.length - 1) '\n' ++ unfenced false (lexMarks fenceMarks 0 rest) := by
  induction spans with
  | nil => exact absurd rfl hne
  | cons s spans ih =>
    cases spans with
    | nil =>
      rw [map_singleton, intercalate_singleton, unfenced_span]
      rfl
    | cons t spans =>
      have hrest := ih (cons_ne_nil t spans)
      rw [map_cons] at hrest
      rw [map_cons, map_cons, intercalate_cons_cons, append_assoc,
        append_assoc, unfenced_span, lexMarks_newline, unfenced_outside, hrest]
      rfl

theorem fenced_some_ne_nil (block : List Char) : fenced (some block) items ≠ some [] := by
  induction items generalizing block with
  | nil =>
    intro h
    cases h
  | cons item items ih =>
    cases item with
    | inl c => exact ih (block ++ [c])
    | inr m =>
      rw [fenced]
      split_ifs
      · intro h
        obtain ⟨blocks, _, hblocks⟩ := Option.map_eq_some_iff.mp h
        cases hblocks
      · intro h
        cases h

theorem unfenced_of_fenced (h : fenced none items = some []) :
    unfenced false items = items.flatMap (Sum.elim (fun c => [c]) id) := by
  induction items with
  | nil => rfl
  | cons item items ih =>
    cases item with
    | inl c => exact congrArg (c :: ·) (ih h)
    | inr m =>
      rw [fenced] at h
      split_ifs at h
      exact absurd h (fenced_some_ne_nil [])

variable {text : List Char}

theorem outsideText_of_read (h : readDataBlock text = some []) : outsideText text = text := by
  obtain ⟨blocks, hfenced, hblocks⟩ := Option.bind_eq_some_iff.mp h
  have hnone : blocks = [] := by
    cases blocks with
    | nil => rfl
    | cons block blocks =>
      rw [mapM_cons] at hblocks
      obtain ⟨b, _, hrest⟩ := Option.bind_eq_some_iff.mp hblocks
      obtain ⟨bs, _, heq⟩ := Option.bind_eq_some_iff.mp hrest
      cases heq
  subst hnone
  unfold outsideText
  rw [unfenced_of_fenced hfenced, lexMarks_flatten (by decide), drop_zero]

/-! ## Renderings -/

theorem mark_not_inside_single (h : IsSingle text) : ∀ m ∈ fenceMarks, ¬m <:+: text := by
  have hdouble : ∀ m ∈ fenceMarks, ['<', '<'] <:+: m := by decide
  intro m hm hin
  refine h ['<', '<'] (mem_singleton_self _) ?_
  rw [map_id]
  exact (hdouble m hm).trans hin

def frame (n : ℕ) : List Char :=
  DATA_HANDLING_NOTICE ++ '\n' :: '\n' ::
    (List.replicate (n - 1) '\n' ++ '\n' :: '\n' :: DATA_HANDLING_NOTICE)

theorem read_single (h : IsSingle text) : readDataBlock text = some [] := by
  have hlex : lexMarks fenceMarks 0 (text ++ []) = text.map .inl ++ lexMarks fenceMarks 0 [] :=
    lexMarks_text (mark_not_inside_single h) (.inl rfl)
  rw [append_nil] at hlex
  unfold readDataBlock
  rw [hlex, fenced_outside]
  rfl

theorem lexMarks_front {front : List Char} (h : IsSingle front) (rest : List Char) :
    lexMarks fenceMarks 0 (front ++ '\n' :: '\n' :: rest) =
      (front ++ ['\n', '\n']).map .inl ++ lexMarks fenceMarks 0 rest := by
  have hends : IsSingle (front ++ ['\n', '\n']) :=
    isSingle_append h (isSingle_of_not_mem (by decide)) (by decide)
  have hlast : (front ++ ['\n', '\n']).getLast? = some '\n' := by
    rw [append_cons]
    exact List.getLast?_concat
  have hread := lexMarks_text (mark_not_inside_single hends)
    (.inr ⟨'\n', hlast, newline_apart⟩ : rest = [] ∨ _)
  rw [append_assoc] at hread
  exact hread

theorem read_front {front : List Char} (h : IsSingle front) {spans : List UntrustedText}
    (hne : spans ≠ []) :
    readDataBlock (front ++ '\n' :: '\n' :: blockText spans) =
        some (spans.map UntrustedText.view) ∧
      outsideText (front ++ '\n' :: '\n' :: blockText spans) =
        front ++ '\n' :: '\n' :: frame spans.length := by
  constructor
  · unfold readDataBlock
    rw [lexMarks_front h, fenced_outside, fenced_blockText hne, Option.bind_some, mapM_readBlock]
  · unfold outsideText blockText frame
    rw [lexMarks_front h, unfenced_outside, (lexMarks_notice _).1, unfenced_outside,
      unfenced_spans spans _ hne, (lexMarks_notice []).2, unfenced_outside, unfenced]
    simp

/-! ## Results -/

section

variable {isPrintable : Char → Bool} {r : ToolResult}

def ToolResult.front (isPrintable : Char → Bool) (r : ToolResult) : List Char :=
  r.header ++ '\n' :: skeleton isPrintable r.data

theorem rstrip_concat {text : List Char} {c : Char} (h : isSpace c = false) :
    rstrip (text ++ [c]) = text ++ [c] :=
  rdropWhile_concat_neg _ _ _ (Bool.eq_false_iff.mp h)

theorem jsonObject_ends (fields : List (List Char × List Char)) :
    ∃ text, jsonObject fields = text ++ ['}'] := by
  unfold jsonObject
  generalize [',', '\n'].intercalate _ = inner
  exact ⟨"\x7b\n".toList ++ (inner ++ ['\n']), by simp⟩

theorem blockText_ends (spans : List UntrustedText) :
    ∃ text, blockText spans = text ++ DATA_HANDLING_NOTICE := by
  unfold blockText
  generalize ['\n'].intercalate _ = inner
  exact ⟨DATA_HANDLING_NOTICE ++ '\n' :: '\n' :: (inner ++ ['\n', '\n']), by simp⟩

theorem render_none (h : r.data.blocks = []) :
    r.renderForPrompt isPrintable = .ok (r.front isPrintable) := by
  obtain ⟨inner, hinner⟩ := jsonObject_ends (redactedFields isPrintable r.data)
  have hfront : r.front isPrintable = (r.header ++ '\n' :: inner) ++ ['}'] := by
    unfold ToolResult.front skeleton
    rw [hinner, append_assoc, cons_append]
  have hstrip : rstrip (r.front isPrintable ++ ['\n'] ++ ['\n']) = r.front isPrintable := by
    unfold rstrip
    rw [rdropWhile_concat_pos _ _ _ (by decide), rdropWhile_concat_pos _ _ _ (by decide),
      hfront]
    exact rstrip_concat (by decide)
  have htext : r.header ++ '\n' :: (skeleton isPrintable r.data ++ ['\n', '\n']) =
      r.front isPrintable ++ ['\n'] ++ ['\n'] := by
    unfold ToolResult.front
    simp
  unfold ToolResult.renderForPrompt
  rw [h]
  exact congrArg Except.ok ((congrArg rstrip htext).trans hstrip)

theorem render_some (h : r.data.blocks ≠ []) : r.renderForPrompt isPrintable =
    .ok (r.front isPrintable ++ '\n' :: '\n' :: blockText r.data.blocks) := by
  obtain ⟨inner, hinner⟩ := blockText_ends r.data.blocks
  have hnotice : DATA_HANDLING_NOTICE = DATA_HANDLING_NOTICE.dropLast ++ ['.'] := by
    unfold DATA_HANDLING_NOTICE
    rw [String.toList_append, String.toList_append, String.toList_ofList, String.toList_ofList,
      String.toList_ofList]
    decide +kernel
  have hstrip : ∀ text, rstrip (text ++ DATA_HANDLING_NOTICE) = text ++ DATA_HANDLING_NOTICE := by
    intro text
    rw [hnotice, ← append_assoc]
    exact rstrip_concat (by decide)
  have htext : r.front isPrintable ++ '\n' :: '\n' :: (inner ++ DATA_HANDLING_NOTICE) =
      (r.front isPrintable ++ '\n' :: '\n' :: inner) ++ DATA_HANDLING_NOTICE := by simp
  have hwhole : r.header ++ '\n' :: (skeleton isPrintable r.data ++ '\n' :: '\n' ::
      blockText r.data.blocks) = r.front isPrintable ++ '\n' :: '\n' :: blockText r.data.blocks := by
    unfold ToolResult.front
    simp
  unfold ToolResult.renderForPrompt
  rw [renderDataBlock_eq h]
  refine congrArg Except.ok ((congrArg rstrip hwhole).trans ?_)
  rw [hinner, htext, hstrip]

/-! ## Angle brackets of the front -/

theorem isSeparator_of_not_mem {text : List Char} (h : '<' ∉ text) (hne : text ≠ []) :
    IsSeparator [['<', '<']] id text where
  free := isSingle_of_not_mem h
  ne_nil := hne
  head := fun _ hc => isApart_of_ne fun heq => h (heq ▸ mem_of_mem_head? hc)
  last := fun _ hc => isApart_of_ne fun heq => h (heq ▸ mem_of_mem_getLast? hc)

theorem isSingle_after {text rest : List Char} (h : '<' ∉ text) (hrest : IsSingle rest)
    (hne : text ≠ []) : IsSingle (text ++ rest) :=
  (isSeparator_of_not_mem h hne).append hrest

theorem less_not_mem_jsonText {s : List Char} (h : '<' ∉ s) : '<' ∉ jsonText s := by
  have hinner : '<' ∉ s.flatMap jsonChar := less_not_mem_flatMap h fun c hc => less_not_mem_jsonChar hc
  have hquote : '<' ≠ quote := by decide
  unfold jsonText
  simp [hinner, hquote]

theorem isSingle_reference (s : UntrustedText) :
    IsSingle (jsonText (fenceReference isPrintable s)) := by
  have hopening : "<see fenced data ref=".toList.flatMap jsonChar = "<see fenced data ref=".toList := by
    decide
  have href : '<' ∉ reprText isPrintable s.ref ++ ['>'] := by
    have hless : '<' ∉ s.ref := fun hmem => (s.ref_attribute.unmarked '<' hmem).2.1 rfl
    have hrepr := @less_not_mem_reprText isPrintable s.ref hless
    simp [hrepr]
  have hrest : '<' ∉ (reprText isPrintable s.ref ++ ['>']).flatMap jsonChar ++ [quote] := by
    have hinner := less_not_mem_flatMap href fun c hc => less_not_mem_jsonChar hc
    have hquote : '<' ≠ quote := by decide
    simp only [mem_append, hinner, mem_singleton, hquote, or_false, not_false_eq_true]
  have htext : jsonText (fenceReference isPrintable s) =
      (quote :: "<see fenced data ref=".toList) ++
        ((reprText isPrintable s.ref ++ ['>']).flatMap jsonChar ++ [quote]) := by
    unfold jsonText fenceReference
    rw [flatMap_append, hopening, append_assoc, cons_append]
  have hfront : IsSingle (quote :: "<see fenced data ref=".toList) := by
    unfold IsSingle IsFree
    decide
  rw [htext]
  exact isSingle_append hfront (isSingle_of_not_mem hrest) fun hc =>
    hrest (mem_of_mem_head? hc)

theorem isSingle_jsonArray (spans : List UntrustedText) :
    IsSingle (jsonArray (spans.map (fenceReference isPrintable))) := by
  unfold jsonArray
  split_ifs
  · exact isSingle_of_not_mem (by decide)
  · refine isSingle_after (by decide) (isSingle_append ?_ (isSingle_of_not_mem (by decide)) (by decide))
      (by decide)
    refine IsFree.intercalate nil_not_mem_double (isSeparator_of_not_mem (by decide) (by decide)) ?_
    intro piece hpiece
    rw [map_map] at hpiece
    obtain ⟨s, _, rfl⟩ := mem_map.mp hpiece
    exact isSingle_after (by decide) (isSingle_reference s) (by decide)

theorem isSingle_jsonObject {fields : List (List Char × List Char)}
    (hkeys : ∀ key ∈ fields.map Prod.fst, '<' ∉ key)
    (hvalues : ∀ value ∈ fields.map Prod.snd, IsSingle value) : IsSingle (jsonObject fields) := by
  refine isSingle_after (by decide) (isSingle_append ?_ (isSingle_of_not_mem (by decide)) (by decide))
    (by decide)
  refine IsFree.intercalate nil_not_mem_double (isSeparator_of_not_mem (by decide) (by decide)) ?_
  intro piece hpiece
  obtain ⟨field, hfield, rfl⟩ := mem_map.mp hpiece
  have hkey : '<' ∉ field.1 := hkeys field.1 (mem_map_of_mem hfield)
  have hvalue : IsSingle field.2 := hvalues field.2 (mem_map_of_mem hfield)
  have hcolon : IsSingle (": ".toList ++ field.2) := isSingle_after (by decide) hvalue (by decide)
  refine isSingle_after (by decide) ?_ (by decide)
  rw [append_assoc]
  exact isSingle_after (less_not_mem_jsonText hkey) hcolon (cons_ne_nil _ _)

theorem less_not_mem_nat (n : ℕ) : '<' ∉ (toString n).toList := by
  intro hmem
  rw [Nat.toString_eq_repr, Nat.toList_repr] at hmem
  exact absurd (Nat.isDigit_of_mem_toDigits (by decide) (by decide) hmem) (by decide)

theorem less_not_mem_bool (b : Bool) : '<' ∉ jsonBool b := by
  cases b <;> decide

structure IsPlain (r : ToolResult) : Prop where
  name : '<' ∉ r.tool.toList
  server : '<' ∉ r.data.server
  tool : '<' ∉ r.data.tool
  reason : '<' ∉ r.data.unavailableReason

theorem isSingle_skeleton (h : IsPlain r) : IsSingle (skeleton isPrintable r.data) := by
  have htext : ∀ {s : List Char}, '<' ∉ s → IsSingle (jsonText s) := fun h =>
    isSingle_of_not_mem (less_not_mem_jsonText h)
  have hbool : ∀ b, IsSingle (jsonBool b) := fun b => isSingle_of_not_mem (less_not_mem_bool b)
  have hkeys : ∀ key ∈ ["blocks".toList, "degraded".toList, "dropped".toList, "is_error".toList,
      "server".toList, "tool".toList, "truncated".toList, "unavailable_reason".toList],
      '<' ∉ key := by decide
  refine isSingle_jsonObject hkeys fun value hvalue => ?_
  unfold redactedFields at hvalue
  simp only [map_cons, map_nil, mem_cons, not_mem_nil, or_false] at hvalue
  rcases hvalue with rfl | rfl | rfl | rfl | rfl | rfl | rfl | rfl
  · exact isSingle_jsonArray _
  · exact hbool _
  · exact isSingle_of_not_mem (less_not_mem_nat _)
  · exact hbool _
  · exact htext h.server
  · exact htext h.tool
  · exact hbool _
  · exact htext h.reason

theorem isSingle_front (h : IsPlain r) : IsSingle (r.front isPrintable) := by
  have hagent : '<' ∉ agentText r.agent := by
    cases r.agent <;> decide
  have hflag : '<' ∉ (if r.data.truncated then "True".toList else "False".toList) := by
    cases r.data.truncated <;> decide
  have hkeys : '<' ∉ "tool=".toList ∧ '<' ∉ " agent=".toList ∧ '<' ∉ " truncated=".toList := by decide
  have hheader : '<' ∉ r.header := by
    unfold ToolResult.header
    simp only [mem_append, hkeys.1, h.name, hkeys.2.1, hagent, hkeys.2.2, hflag, or_self,
      not_false_eq_true]
  exact (isSingle_of_not_mem hheader).append_cons (isSingle_skeleton h)
    (isApart_of_ne (by decide : '\n' ≠ '<'))

def ToolResult.outside (isPrintable : Char → Bool) (r : ToolResult) : List Char :=
  r.front isPrintable ++
    (if r.data.blocks = [] then [] else '\n' :: '\n' :: frame r.data.blocks.length)

/-- **A plain result is read back**: its fences are those of its spans. -/
theorem render_plain (h : IsPlain r) : ∃ out, r.renderForPrompt isPrintable = .ok out ∧
    readDataBlock out = some (r.data.blocks.map UntrustedText.view) ∧
      outsideText out = r.outside isPrintable := by
  unfold ToolResult.outside
  rcases eq_or_ne r.data.blocks [] with hnone | hne
  · have hread := read_single (@isSingle_front isPrintable r h)
    refine ⟨_, render_none hnone, ?_, ?_⟩
    · rw [hnone]
      exact hread
    · rw [if_pos hnone, append_nil]
      exact outsideText_of_read hread
  · obtain ⟨hread, houtside⟩ := read_front (@isSingle_front isPrintable r h) hne
    refine ⟨_, render_some hne, hread, ?_⟩
    rw [if_neg hne]
    exact houtside

end

end OmniSense.Tools
