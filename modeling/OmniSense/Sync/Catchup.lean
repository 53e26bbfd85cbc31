import Mathlib.Algebra.Order.Ring.Int
import Mathlib.Data.List.Dedup
import OmniSense.Library.Blocks
import OmniSense.Library.Effect
import OmniSense.Library.Reflow
import OmniSense.Models.Common

/-! `services/catchup_service.py`: the numbered digest that the model reads, and the numbers of its
draft turned back into artifacts. -/

namespace OmniSense.Sync.Catchup

open Library List

/-! ## Artifacts -/

inductive ArtifactKind
  | commit | pullRequest | review | ciRun | issue | deployment | message | meeting | document
  | paper | model | agentRun
  deriving DecidableEq

def ArtifactKind.value : ArtifactKind → String
  | .commit => "commit"
  | .pullRequest => "pull_request"
  | .review => "review"
  | .ciRun => "ci_run"
  | .issue => "issue"
  | .deployment => "deployment"
  | .message => "message"
  | .meeting => "meeting"
  | .document => "document"
  | .paper => "paper"
  | .model => "model"
  | .agentRun => "agent_run"

inductive ArtifactState
  | queued | running | opened | draft | closed | merged | completed | unknown

def ArtifactState.value : ArtifactState → String
  | .queued => "queued"
  | .running => "running"
  | .opened => "open"
  | .draft => "draft"
  | .closed => "closed"
  | .merged => "merged"
  | .completed => "completed"
  | .unknown => "unknown"

inductive ArtifactOutcome
  | success | failure | cancelled | timedOut | skipped | approved | changesRequested | commented
  | dismissed | notPlanned | unknown

def ArtifactOutcome.value : ArtifactOutcome → String
  | .success => "success"
  | .failure => "failure"
  | .cancelled => "cancelled"
  | .timedOut => "timed_out"
  | .skipped => "skipped"
  | .approved => "approved"
  | .changesRequested => "changes_requested"
  | .commented => "commented"
  | .dismissed => "dismissed"
  | .notPlanned => "not_planned"
  | .unknown => "unknown"

/-- `τ` is the type of dates. -/
structure ArtifactRow (τ : Type) where
  id : String
  kind : ArtifactKind
  title : Option String
  occurredAt : τ
  url : Option String
  state : Option ArtifactState
  outcome : Option ArtifactOutcome

structure Citation (τ : Type) where
  artifactId : String
  kind : ArtifactKind
  title : String
  occurredAt : τ
  url : Option String
  deriving DecidableEq

structure CatchupPhase (τ : Type) where
  label : String
  period : String
  narrative : String
  citations : List (Citation τ)
  deriving DecidableEq

structure DraftPhase where
  label : String
  period : String
  narrative : String
  refs : List ℤ
  label_length : 1 ≤ label.length ∧ label.length ≤ 80
  period_length : 1 ≤ period.length ∧ period.length ≤ 40
  narrative_length : 1 ≤ narrative.length ∧ narrative.length ≤ 700
  refs_length : 1 ≤ refs.length ∧ refs.length ≤ 40

structure Draft where
  headline : String
  phases : List DraftPhase
  headline_length : 1 ≤ headline.length ∧ headline.length ≤ 200
  phases_length : 1 ≤ phases.length ∧ phases.length ≤ 8

/-! ## Titles -/

inductive IndexError
  | outOfRange
  deriving DecidableEq

/-- Where `str.splitlines` ends a line. -/
def isLineBreak (c : Char) : Bool :=
  let n := c.toNat
  (0x0a ≤ n ∧ n ≤ 0x0d) ∨ (0x1c ≤ n ∧ n ≤ 0x1e) ∨ n = 0x85 ∨ n = 0x2028 ∨ n = 0x2029

/-- `str.splitlines`; a carriage return before a newline ends the line with it. -/
@[grind =] def splitLines : List Char → List (List Char)
  | [] => []
  | c :: rest =>
    if isLineBreak c then
      if c = '\r' ∧ rest.head? = some '\n' then splitLines rest else [] :: splitLines rest
    else
      match splitLines rest with
      | line :: lines => (c :: line) :: lines
      | [] => [[c]]

/-- `.strip().splitlines()[0]`. -/
def firstLine (title : String) : Except IndexError String :=
  match splitLines (strip title).toList with
  | line :: _ => .ok (String.ofList line)
  | [] => .error .outOfRange

/-- `row.title or default`. -/
def titleOr {τ : Type} (row : ArtifactRow τ) (default : String) : String :=
  match row.title with
  | some title => if title = "" then default else title
  | none => default

def MAX_BODY_CHARS : ℕ := 240

section

variable {τ : Type} (date : τ → String)

/-- The line of `_digest` that shows an artifact under a number. -/
def digestLine (entry : ArtifactRow τ × ℕ) : Except IndexError String := do
  let row := entry.1
  let title ← firstLine (titleOr row "(no title)")
  return " ".intercalate (["[" ++ toString entry.2 ++ "]", date row.occurredAt, row.kind.value] ++
    (row.state.map fun state => "(" ++ state.value ++ ")").toList ++
    (row.outcome.map fun outcome => "[" ++ outcome.value ++ "]").toList ++
    [String.ofList (title.toList.take MAX_BODY_CHARS)])

variable (rows : List (ArtifactRow τ))

def digest : Except IndexError String := do
  let lines ← (rows.zipIdx 1).mapM (digestLine date)
  return "\n".intercalate lines

/-- The citation of `rows[ref - 1]`. -/
def cite (ref : ℤ) : Except IndexError (Citation τ) :=
  match rows[(ref - 1).toNat]? with
  | some row => do
    let title ← firstLine (titleOr row "")
    return ⟨row.id, row.kind, title, row.occurredAt, row.url⟩
  | none => .error .outOfRange

/-- `sorted(set(refs))`, those in range. -/
def inRange (refs : List ℤ) : List ℤ :=
  (sorted refs.dedup).filter fun ref => 1 ≤ ref ∧ ref ≤ rows.length

def resolvePhase (acc : List (CatchupPhase τ) × List String)
    (phase : DraftPhase) : Except IndexError (List (CatchupPhase τ) × List String) := do
  let citations ← (inRange rows phase.refs).mapM (cite rows)
  return if citations.isEmpty then (acc.1, acc.2 ++ [phase.label])
    else (acc.1 ++ [⟨phase.label, phase.period, phase.narrative, citations⟩], acc.2)

/-- `_resolve`: the phases with their citations, and the labels of those dropped. -/
def resolve (draft : Draft) (rows : List (ArtifactRow τ)) :
    Except IndexError (List (CatchupPhase τ) × List String) :=
  draft.phases.foldlM (resolvePhase rows) ([], [])

end

/-! ## Titles that have a first line -/

def HasText (title : String) : Prop := ∃ c ∈ title.toList, isSpace c = false

theorem splitLines_ne_nil {text : List Char} (h : text ≠ []) : splitLines text ≠ [] := by
  induction text with
  | nil => exact absurd rfl h
  | cons c rest ih =>
    unfold splitLines
    split_ifs with hbreak hpair
    · exact ih (ne_nil_of_mem (mem_of_mem_head? hpair.2))
    · exact cons_ne_nil _ _
    · cases splitLines rest with
      | nil | cons => exact cons_ne_nil _ _

theorem firstLine_cases (title : String) : (HasText title ∧ ∃ line, firstLine title = .ok line) ∨
    (¬HasText title ∧ firstLine title = .error .outOfRange) := by
  have hstrip : (strip title).toList = stripEnds isSpace title.toList := String.toList_ofList
  unfold firstLine
  rw [hstrip]
  by_cases hnil : stripEnds isSpace title.toList = []
  · refine .inr ⟨?_, by rw [hnil]; rfl⟩
    rintro ⟨c, hc, hsolid⟩
    rw [stripEnds_eq_nil.mp hnil c hc] at hsolid
    cases hsolid
  · obtain ⟨line, lines, hlines⟩ := exists_cons_of_ne_nil (splitLines_ne_nil hnil)
    refine .inl ⟨?_, String.ofList line, by rw [hlines]⟩
    by_contra hblank
    refine hnil (stripEnds_eq_nil.mpr fun c hc => ?_)
    by_contra hsolid
    exact hblank ⟨c, hc, Bool.eq_false_iff.mpr hsolid⟩

theorem firstLine_ok_iff {title : String} : (∃ line, firstLine title = .ok line) ↔ HasText title := by
  rcases firstLine_cases title with ⟨htext, hok⟩ | ⟨hblank, herror⟩
  · exact iff_of_true hok htext
  · refine iff_of_false ?_ hblank
    rintro ⟨line, hline⟩
    rw [herror] at hline
    cases hline

theorem not_hasText_empty : ¬HasText "" := by
  rintro ⟨c, hc, -⟩
  exact absurd hc not_mem_nil

theorem hasText_placeholder : HasText "(no title)" := ⟨'(', mem_cons_self, rfl⟩

/-! ## What a brief says -/

section

variable {τ : Type} {date : τ → String} {rows : List (ArtifactRow τ)} {row : ArtifactRow τ}

theorem hasText_titleOr {default : String} : HasText (titleOr row default) ↔
    (∃ title ∈ row.title, title ≠ "" ∧ HasText title) ∨
      (∀ title ∈ row.title, title = "") ∧ HasText default := by
  unfold titleOr
  cases row.title with
  | none => simp
  | some title =>
    by_cases hempty : title = ""
    · simp [hempty]
    · simp [hempty]

def Shows (rows : List (ArtifactRow τ)) (n : ℕ) (c : Citation τ) : Prop :=
  ∃ row line, rows[n - 1]? = some row ∧ firstLine (titleOr row "") = .ok line ∧
    c = ⟨row.id, row.kind, line, row.occurredAt, row.url⟩

structure Keeps (rows : List (ArtifactRow τ)) (phase : DraftPhase) (kept : CatchupPhase τ) :
    Prop where
  label : kept.label = phase.label
  period : kept.period = phase.period
  narrative : kept.narrative = phase.narrative
  citations : ∃ numbers : List ℕ, numbers ≠ [] ∧ numbers.Pairwise (· < ·) ∧
    (∀ n, n ∈ numbers ↔ 1 ≤ n ∧ n ≤ rows.length ∧ (n : ℤ) ∈ phase.refs) ∧
    List.Forall₂ (Shows rows) numbers kept.citations

def citesAny (rows : List (ArtifactRow τ)) (phase : DraftPhase) : Bool :=
  phase.refs.any fun ref => 1 ≤ ref ∧ ref ≤ rows.length

structure Resolution (rows : List (ArtifactRow τ)) (drafted : List DraftPhase)
    (result : List (CatchupPhase τ) × List String) : Prop where
  kept : List.Forall₂ (Keeps rows) (drafted.filter (citesAny rows)) result.1
  dropped : result.2 = (drafted.filter fun phase => !citesAny rows phase).map DraftPhase.label

structure Titled (rows : List (ArtifactRow τ)) (draft : Draft) : Prop where
  shown : ∀ row ∈ rows, ∀ title ∈ row.title, title = "" ∨ HasText title
  cited : ∀ phase ∈ draft.phases, ∀ ref ∈ phase.refs, 1 ≤ ref → ∀ row,
    rows[(ref - 1).toNat]? = some row → ∃ title ∈ row.title, HasText title

variable {ref : ℤ}

theorem mem_inRange {refs : List ℤ} :
    ref ∈ inRange rows refs ↔ ref ∈ refs ∧ 1 ≤ ref ∧ ref ≤ rows.length := by
  unfold inRange
  rw [mem_filter, mem_sorted, mem_dedup, decide_eq_true_eq]

theorem inRange_ascending (rows : List (ArtifactRow τ)) (refs : List ℤ) :
    (inRange rows refs).Pairwise (· < ·) := by
  have hsorted : (sorted refs.dedup).Pairwise (· ≤ ·) := pairwise_insertionSort _ _
  have hnodup : (sorted refs.dedup).Nodup := (sorted_perm _).nodup_iff.mpr refs.nodup_dedup
  exact (hsorted.imp₂ (fun _ _ hle hne => lt_of_le_of_ne hle hne) hnodup).filter _

theorem inRange_eq_nil {phase : DraftPhase} :
    inRange rows phase.refs = [] ↔ citesAny rows phase = false := by
  rw [eq_nil_iff_forall_not_mem, citesAny, any_eq_false]
  simp only [mem_inRange, decide_eq_true_eq, not_and]

theorem hasText_cited : HasText (titleOr row "") ↔ ∃ title ∈ row.title, HasText title := by
  rw [hasText_titleOr]
  constructor
  · rintro (⟨title, htitle, -, htext⟩ | ⟨-, htext⟩)
    · exact ⟨title, htitle, htext⟩
    · exact absurd htext not_hasText_empty
  · rintro ⟨title, htitle, htext⟩
    refine .inl ⟨title, htitle, ?_, htext⟩
    rintro rfl
    exact not_hasText_empty htext

theorem hasText_shown : HasText (titleOr row "(no title)") ↔
    ∀ title ∈ row.title, title = "" ∨ HasText title := by
  rw [hasText_titleOr]
  constructor
  · rintro (⟨title, htitle, -, htext⟩ | ⟨hempty, -⟩) other hother
    · rw [Option.mem_unique hother htitle]
      exact .inr htext
    · exact .inl (hempty other hother)
  · intro h
    by_cases hempty : ∀ title ∈ row.title, title = ""
    · exact .inr ⟨hempty, hasText_placeholder⟩
    · push Not at hempty
      obtain ⟨title, htitle, hne⟩ := hempty
      exact .inl ⟨title, htitle, hne, (h title htitle).resolve_left hne⟩

theorem digestLine_ok_iff {n : ℕ} : (∃ line, digestLine date (row, n) = .ok line) ↔
    ∀ title ∈ row.title, title = "" ∨ HasText title := by
  rw [← hasText_shown, ← firstLine_ok_iff]
  constructor
  · rintro ⟨line, hline⟩
    obtain ⟨title, htitle, -⟩ := ok_of_bind hline
    exact ⟨title, htitle⟩
  · rintro ⟨title, htitle⟩
    unfold digestLine
    dsimp only
    rw [htitle]
    exact ⟨_, rfl⟩

theorem cite_ok {c : Citation τ} (h : cite rows ref = .ok c) :
    ∃ row line, rows[(ref - 1).toNat]? = some row ∧ firstLine (titleOr row "") = .ok line ∧
      c = ⟨row.id, row.kind, line, row.occurredAt, row.url⟩ := by
  unfold cite at h
  cases hrow : rows[(ref - 1).toNat]? with
  | none =>
    rw [hrow] at h
    cases h
  | some row =>
    rw [hrow] at h
    obtain ⟨line, hline, heq⟩ := ok_of_bind h
    exact ⟨row, line, rfl, hline, (Except.ok.inj heq).symm⟩

theorem cite_total (hrange : 1 ≤ ref ∧ ref ≤ rows.length)
    (h : ∀ row, rows[(ref - 1).toNat]? = some row → ∃ title ∈ row.title, HasText title) :
    ∃ c, cite rows ref = .ok c := by
  have hlt : (ref - 1).toNat < rows.length := by omega
  have hrow := List.getElem?_eq_getElem hlt
  obtain ⟨line, hline⟩ := firstLine_ok_iff.mpr (hasText_cited.mpr (h _ hrow))
  unfold cite
  rw [hrow]
  dsimp only
  rw [hline]
  exact ⟨_, rfl⟩

theorem numbers_of_inRange (rows : List (ArtifactRow τ)) (refs : List ℤ) :
    ∃ numbers : List ℕ, inRange rows refs = numbers.map Int.ofNat ∧ numbers.Pairwise (· < ·) ∧
      ∀ n, n ∈ numbers ↔ 1 ≤ n ∧ n ≤ rows.length ∧ (n : ℤ) ∈ refs := by
  have hback : ((inRange rows refs).map Int.toNat).map Int.ofNat = inRange rows refs := by
    rw [map_map, map_congr_left (g := id), map_id]
    intro ref href
    exact Int.toNat_of_nonneg (by have := (mem_inRange.mp href).2.1; omega)
  refine ⟨(inRange rows refs).map Int.toNat, hback.symm, ?_, fun n => ?_⟩
  · rw [pairwise_map]
    refine (inRange_ascending rows refs).imp_of_mem fun href href' hlt => ?_
    have hpos := (mem_inRange.mp href).2.1
    omega
  · have hmem : n ∈ (inRange rows refs).map Int.toNat ↔ (n : ℤ) ∈ inRange rows refs := by
      conv_rhs => rw [← hback]
      exact (mem_map_of_injective fun _ _ h => Int.ofNat.inj h).symm
    rw [hmem, mem_inRange]
    constructor
    · rintro ⟨href, hpos, hle⟩
      exact ⟨by omega, by omega, href⟩
    · rintro ⟨hpos, hle, href⟩
      exact ⟨href, by omega, by omega⟩

theorem resolvePhase_keeps {phase : DraftPhase} {done : List DraftPhase}
    {acc : List (CatchupPhase τ) × List String} {citations : List (Citation τ)}
    (hcite : (inRange rows phase.refs).mapM (cite rows) = .ok citations)
    (h : Resolution rows done acc) :
    ∃ acc', resolvePhase rows acc phase = .ok acc' ∧ Resolution rows (done ++ [phase]) acc' := by
  have hshown := ok_of_mapM hcite
  obtain ⟨numbers, hnumbers, hascending, hmem⟩ := numbers_of_inRange rows phase.refs
  unfold resolvePhase
  rw [hcite]
  refine ⟨_, rfl, ?_⟩
  cases hany : citesAny rows phase with
  | false =>
    rw [inRange_eq_nil.mpr hany] at hshown
    cases hshown
    constructor
    · rw [filter_append, filter_cons_of_neg (by simp [hany]), filter_nil,
        append_nil]
      exact h.kept
    · rw [filter_append, filter_cons_of_pos (by simp [hany]), filter_nil,
        map_append, ← h.dropped]
      rfl
  | true =>
    have hnonempty : inRange rows phase.refs ≠ [] := by
      intro hnil
      rw [inRange_eq_nil.mp hnil] at hany
      cases hany
    have hcitations : citations.isEmpty = false := by
      rw [isEmpty_eq_false_iff]
      rintro rfl
      exact hnonempty (List.forall₂_nil_right_iff.mp hshown)
    rw [hnumbers, List.forall₂_map_left_iff] at hshown
    have hphase : Keeps rows phase ⟨phase.label, phase.period, phase.narrative, citations⟩ := by
      refine ⟨rfl, rfl, rfl, numbers, ?_, hascending, hmem, hshown.imp fun n c hc => ?_⟩
      · rintro rfl
        exact hnonempty hnumbers
      · obtain ⟨row, line, hrow, hline, rfl⟩ := cite_ok hc
        have hindex : (Int.ofNat n - 1).toNat = n - 1 := by
          have : Int.ofNat n = (n : ℤ) := rfl
          omega
        exact ⟨row, line, hindex ▸ hrow, hline, rfl⟩
    rw [hcitations]
    constructor
    · rw [filter_append, filter_cons_of_pos hany, filter_nil]
      exact rel_append h.kept (.cons hphase .nil)
    · rw [filter_append, filter_cons_of_neg (by simp [hany]), filter_nil,
        append_nil]
      exact h.dropped

structure Digested (date : τ → String) (rows : List (ArtifactRow τ)) (text : String) : Prop where
  lines : ∃ lines, text = "\n".intercalate lines ∧
    List.Forall₂ (fun entry line => digestLine date entry = .ok line) (rows.zipIdx 1) lines

theorem digest_ok {text : String} (h : digest date rows = .ok text) : Digested date rows text := by
  obtain ⟨lines, hlines, heq⟩ := ok_of_bind h
  exact ⟨lines, (Except.ok.inj heq).symm, ok_of_mapM hlines⟩

theorem digest_ok_iff : (∃ text, digest date rows = .ok text) ↔
    ∀ row ∈ rows, ∀ title ∈ row.title, title = "" ∨ HasText title := by
  constructor
  · rintro ⟨text, htext⟩ row hrow
    obtain ⟨lines, -, hlines⟩ := (digest_ok htext).lines
    obtain ⟨i, hi, rfl⟩ := getElem_of_mem hrow
    have hentry : (rows[i], i + 1) ∈ rows.zipIdx 1 := by
      rw [mk_mem_zipIdx_iff_le_and_getElem?_sub]
      exact ⟨by omega, by simp [hi]⟩
    obtain ⟨line, -, hline⟩ := forall₂_mem_right (List.Forall₂.flip (R := flip _) hlines) _ hentry
    exact digestLine_ok_iff.mp ⟨line, hline⟩
  · intro h
    have hlines : ∀ entry ∈ rows.zipIdx 1, ∃ line, digestLine date entry = .ok line ∧ True := by
      rintro ⟨row, n⟩ hentry
      have hrow : row ∈ rows := fst_mem_of_mem_zipIdx hentry
      obtain ⟨line, hline⟩ := digestLine_ok_iff.mpr (h row hrow)
      exact ⟨line, hline, trivial⟩
    obtain ⟨lines, hrun, -⟩ := mapM_done hlines
    unfold digest
    rw [hrun]
    exact ⟨_, rfl⟩

theorem resolve_ok_iff {draft : Draft} : (∃ result, resolve draft rows = .ok result) ↔
    ∀ phase ∈ draft.phases, ∃ citations,
      (inRange rows phase.refs).mapM (cite rows) = .ok citations := by
  constructor
  · rintro ⟨result, hresult⟩ phase hphase
    obtain ⟨acc, acc', hround⟩ := ok_of_foldlM hresult phase hphase
    obtain ⟨citations, hcite, -⟩ := ok_of_bind hround
    exact ⟨citations, hcite⟩
  · intro h
    have hstart : Resolution rows [] (([], []) : List (CatchupPhase τ) × List String) :=
      ⟨.nil, rfl⟩
    obtain ⟨result, hresult, -⟩ := foldlM_done (I := Resolution rows) hstart
      fun done phase hphase acc hacc =>
        (h phase hphase).elim fun citations hcite => resolvePhase_keeps hcite hacc
    exact ⟨result, hresult⟩

theorem resolve_keeps {draft : Draft} {result : List (CatchupPhase τ) × List String}
    (h : resolve draft rows = .ok result) : Resolution rows draft.phases result := by
  have hstart : Resolution rows [] (([], []) : List (CatchupPhase τ) × List String) := ⟨.nil, rfl⟩
  have hall := resolve_ok_iff.mp ⟨result, h⟩
  obtain ⟨result', hresult, hkept⟩ := foldlM_done (I := Resolution rows) hstart
    fun done phase hphase acc hacc =>
      (hall phase hphase).elim fun citations hcite => resolvePhase_keeps hcite hacc
  rw [resolve, hresult] at h
  rw [← Except.ok.inj h]
  exact hkept

theorem cites_ok_iff {refs : List ℤ} :
    (∃ citations, (inRange rows refs).mapM (cite rows) = .ok citations) ↔
      ∀ ref ∈ refs, 1 ≤ ref → ∀ row, rows[(ref - 1).toNat]? = some row →
        ∃ title ∈ row.title, HasText title := by
  constructor
  · rintro ⟨citations, hcitations⟩ ref href hpos row hrow
    have hlt := (List.getElem?_eq_some_iff.mp hrow).1
    have hmem : ref ∈ inRange rows refs := mem_inRange.mpr ⟨href, hpos, by omega⟩
    obtain ⟨c, -, hc⟩ := forall₂_mem_right
      (List.Forall₂.flip (R := flip _) (ok_of_mapM hcitations)) ref hmem
    obtain ⟨row', line, hrow', hline, -⟩ := cite_ok hc
    rw [hrow] at hrow'
    rw [← hasText_cited, ← firstLine_ok_iff, Option.some.inj hrow']
    exact ⟨line, hline⟩
  · intro h
    have hcites : ∀ ref ∈ inRange rows refs, ∃ c, cite rows ref = .ok c ∧ True := by
      intro ref href
      obtain ⟨hmem, hrange⟩ := mem_inRange.mp href
      obtain ⟨c, hc⟩ := cite_total hrange (h ref hmem hrange.1)
      exact ⟨c, hc, trivial⟩
    obtain ⟨citations, hrun, -⟩ := mapM_done hcites
    exact ⟨citations, hrun⟩

/-- **A brief cites what it shows**: it is made when no title shown is blank and each title cited is
there, and then each phase kept has one citation for each number of the digest that it refers to. -/
theorem brief_made (date : τ → String) (rows : List (ArtifactRow τ)) (draft : Draft) :
    (∃ text result, digest date rows = .ok text ∧ resolve draft rows = .ok result ∧
      Digested date rows text ∧ Resolution rows draft.phases result) ↔ Titled rows draft := by
  constructor
  · rintro ⟨text, result, htext, hresult, -, -⟩
    refine ⟨digest_ok_iff.mp ⟨text, htext⟩, fun phase hphase => ?_⟩
    exact cites_ok_iff.mp (resolve_ok_iff.mp ⟨result, hresult⟩ phase hphase)
  · rintro ⟨hshown, hcited⟩
    obtain ⟨text, htext⟩ : ∃ text, digest date rows = .ok text := digest_ok_iff.mpr hshown
    obtain ⟨result, hresult⟩ := resolve_ok_iff.mpr fun phase hphase =>
      cites_ok_iff.mpr (hcited phase hphase)
    exact ⟨text, result, htext, hresult, digest_ok htext, resolve_keeps hresult⟩

end

def untitled : ArtifactRow ℕ := ⟨"art_1", .ciRun, none, 0, none, some .completed, some .success⟩

theorem release_label : 1 ≤ "Release".length ∧ "Release".length ≤ 80 := by decide

theorem release_period : 1 ≤ "May".length ∧ "May".length ≤ 40 := by decide

theorem release_narrative : 1 ≤ "It went out.".length ∧ "It went out.".length ≤ 700 := by decide

theorem release_refs : 1 ≤ ([1, 1, 7] : List ℤ).length ∧ ([1, 1, 7] : List ℤ).length ≤ 40 := by
  decide

def releasePhase : DraftPhase :=
  ⟨"Release", "May", "It went out.", [1, 1, 7], release_label, release_period, release_narrative,
    release_refs⟩

theorem release_headline : 1 ≤ "Release".length ∧ "Release".length ≤ 200 := by decide

theorem release_phases : 1 ≤ [releasePhase].length ∧ [releasePhase].length ≤ 8 := by decide

def releaseDraft : Draft := ⟨"Release", [releasePhase], release_headline, release_phases⟩

/-- The digest has a placeholder for a title that is not there, the citation has none. -/
theorem untitled_raises : digest (fun _ => "2026-05-01") [untitled] =
      .ok "[1] 2026-05-01 ci_run (completed) [success] (no title)" ∧
    resolve releaseDraft [untitled] = .error .outOfRange := by
  decide

end OmniSense.Sync.Catchup
