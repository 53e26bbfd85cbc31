import Mathlib.Logic.Relation
import OmniSense.Library.Effect
import OmniSense.Library.Runs
import OmniSense.Reports.Service

/-! The reports of one investigation over any sequence of calls: when there is one current version,
and the placeholder's id is the report's. -/

namespace OmniSense.Reports

open Library List

variable (svc : ReportService) (investigationId : String)

inductive Call
  | createPlaceholder (reportId : Option String) (uuids : Uuids)
  | store (document : Document) (reportId objectKey : Option String) (uuids : Uuids)

inductive Answer
  | summary (report : ReportSummary)
  | view (report : ReportView)

variable (t : Tables)

def ReportService.call : Call → Tables × Except ReportError Answer
  | .createPlaceholder reportId uuids =>
    ((svc.createPlaceholder t investigationId reportId uuids).1,
      (svc.createPlaceholder t investigationId reportId uuids).2.map .summary)
  | .store document reportId objectKey uuids =>
    ((svc.store t investigationId document reportId objectKey uuids).1,
      (svc.store t investigationId document reportId objectKey uuids).2.map .view)

def ReportService.step (c : Call) : Option Tables :=
  some (svc.call investigationId t c).1

/-! ## What the calls should do -/

def Tables.reportsOf : List ReportRow :=
  t.reports.filter fun row => row.investigationId = investigationId

/-- `row` points at `next` through `superseded_by`. -/
def Supersedes (row next : ReportRow) : Prop :=
  row ∈ t.reportsOf investigationId ∧ next ∈ t.reportsOf investigationId ∧
    row.supersededBy = some next.id

structure Versioned (t : Tables) : Prop where
  current : ∃ row ∈ t.reportsOf investigationId, row.supersededBy = none ∧
    (∀ other ∈ t.reportsOf investigationId, other.supersededBy = none → other = row) ∧
    ∀ other ∈ t.reportsOf investigationId,
      Relation.ReflTransGen (Supersedes investigationId t) other row
  increasing : ∀ row next, Supersedes investigationId t row next → row.version < next.version
  distinct : ((t.reportsOf investigationId).map ReportRow.version).Nodup

def Tables.contentOf (row : ReportRow) :
    String × List ReportSectionRow × List CitationRow :=
  (row.title, t.sections.filter fun part => part.reportId = row.id,
    t.citations.filter fun c => c.reportId = row.id)

def CitationView.toDraft (c : CitationView) : CitationDraft :=
  ⟨c.signalId, c.quote, c.charStart, c.charEnd, c.relevance⟩

def SectionView.Shows (part : SectionView) (draft : SectionDraft) : Prop :=
  part.heading = draft.heading ∧ part.body = draft.body ∧ part.confidence = draft.confidence ∧
    (part.citations.map CitationView.toDraft).Perm draft.citations

def Wrote (t t' : Tables) (document : Document) (view : ReportView) : Prop :=
  ∃ row ∈ t'.reportsOf investigationId, row.id ∉ t.reports.map ReportRow.id ∧
    row.status = .ready ∧ view.toReportSummary = row.toSummary ∧
    view.title = titleOf svc.py document ∧
    ∃ drafts, sectionDrafts svc.py document = some drafts ∧
      List.Forall₂ SectionView.Shows view.sections drafts

/-- A document that passes every check of `store` and of the tables. -/
def ValidDocument (py : Coercion) (document : Document) : Prop :=
  ReportService.checkLimits document = .ok () ∧
    (∃ confidence, floatOf py document "confidence" = some confidence ∧ inRange confidence) ∧
    ∃ drafts, sectionDrafts py document = some drafts ∧ ∀ draft ∈ drafts,
      inRange draft.confidence ∧ ∀ c ∈ draft.citations,
        0 ≤ c.charStart ∧ c.charStart ≤ c.charEnd ∧ inRange c.relevance

/-- What the call of `c` on `t` has to do. -/
structure Serves (t : Tables) (c : Call) : Prop where
  versioned : ∀ answer, (svc.call investigationId t c).2 = .ok answer →
    Versioned investigationId (svc.call investigationId t c).1
  unchanged : ∀ row ∈ t.reports, row.status = .ready →
    ∃ row' ∈ (svc.call investigationId t c).1.reports, row'.id = row.id ∧
      (svc.call investigationId t c).1.contentOf row' = t.contentOf row
  returned : ∀ document reportId objectKey uuids view, c = .store document reportId objectKey uuids →
    (svc.call investigationId t c).2 = .ok (.view view) →
      Wrote svc investigationId t (svc.call investigationId t c).1 document view
  raised : ∀ err, (svc.call investigationId t c).2 = .error err →
    (svc.call investigationId t c).1 = t
  adopted : ∀ document reportId objectKey uuids, c = .store document reportId objectKey uuids →
    ValidDocument svc.py document → ∀ row ∈ t.reportsOf investigationId, row.status = .draft →
      ∃ view, (svc.call investigationId t c).2 = .ok (.view view) ∧ view.id = row.id

/-- No valid document is stored while the investigation has a placeholder, and a placeholder is not
asked for under the id of another investigation's report while it has none. -/
def Avoids : Call → Prop
  | .createPlaceholder reportId uuids => t.reportsOf investigationId = [] →
      ∀ row ∈ t.reports, row.id ≠ ReportService.orId reportId ("rpt_" ++ uuids.report)
  | .store document _ _ _ => ValidDocument svc.py document →
      ∀ row ∈ t.reportsOf investigationId, row.status ≠ .draft

variable {svc investigationId} {t t' : Tables} {row : ReportRow}

/-! ## What each call does -/

theorem insertReport_ok (h : t.insertReport row = .ok t') :
    t' = { t with reports := t.reports ++ [row] } ∧ row.id ∉ t.reports.map ReportRow.id ∧
      ∀ other ∈ t.reports, other.investigationId = row.investigationId →
        other.version ≠ row.version := by
  unfold Tables.insertReport at h
  split_ifs at h with hallowed
  obtain ⟨hnew, hallows⟩ := Bool.and_eq_true_iff.mp hallowed
  have hid : ∀ other ∈ t.reports, other.id ≠ row.id := by simpa using hnew
  refine ⟨(Except.ok.inj h).symm, fun hmem => ?_, fun other hother hsame => ?_⟩
  · obtain ⟨other, hother, heq⟩ := mem_map.mp hmem
    exact hid other hother heq
  · have hversions : ∀ other ∈ t.reports, (other.id = row.id ∨
        ¬other.investigationId = row.investigationId) ∨ ¬other.version = row.version := by
      simp only [Tables.allows, Bool.and_eq_true, all_eq_true, Bool.or_eq_true,
        decide_eq_true_eq, ne_eq] at hallows
      exact hallows.2
    exact (hversions other hother).resolve_left fun h => h.elim (hid other hother) fun h => h hsame

theorem createPlaceholder_cases (reportId : Option String) (uuids : Uuids) :
    (∃ existing ∈ t.reports, existing.id = ReportService.orId reportId ("rpt_" ++ uuids.report) ∧
      svc.createPlaceholder t investigationId reportId uuids = (t, .ok existing.toSummary)) ∨
    (∀ other ∈ t.reports, other.id ≠ ReportService.orId reportId ("rpt_" ++ uuids.report)) ∧
      ((∃ err, svc.createPlaceholder t investigationId reportId uuids = (t, .error err)) ∨
        ∃ t' row, row = svc.newRow investigationId
            (ReportService.orId reportId ("rpt_" ++ uuids.report)) 1 ∧
          t.insertReport row = .ok t' ∧
          svc.createPlaceholder t investigationId reportId uuids = (t', .ok row.toSummary)) := by
  unfold ReportService.createPlaceholder
  dsimp only
  cases hfind : t.reports.find? fun row =>
      row.id = ReportService.orId reportId ("rpt_" ++ uuids.report) with
  | some existing =>
    have hid := List.find?_some hfind
    exact .inl ⟨existing, mem_of_find?_eq_some hfind, of_decide_eq_true hid, rfl⟩
  | none =>
    have hnone := List.find?_eq_none.mp hfind
    refine .inr ⟨fun other hother heq => hnone other hother (decide_eq_true heq), ?_⟩
    cases hinsert : t.insertReport (svc.newRow investigationId
        (ReportService.orId reportId ("rpt_" ++ uuids.report)) 1) with
    | error err => exact .inl ⟨err, rfl⟩
    | ok t' => exact .inr ⟨t', _, rfl, hinsert, rfl⟩

variable {uuids : Uuids} {document : Document} {reportId objectKey : Option String}
    {drafts : List SectionDraft}

theorem storeTransaction_previous (h : svc.previous t investigationId = some row) :
    svc.storeTransaction t investigationId document reportId objectKey uuids =
      .error (.attribute "PENDING") := by
  unfold ReportService.storeTransaction
  rw [h]
  rfl

theorem ok_of_coerced {α : Type} {value : Option α} {a : α}
    (h : ReportService.coerced value = .ok a) : value = some a := by
  cases value with
  | none => cases h
  | some b => exact congrArg some (Except.ok.inj h)

/-- A row that `store` adds. -/
structure Added (svc : ReportService) (investigationId : String) (t t' : Tables)
    (document : Document) (uuids : Uuids) (row : ReportRow) (drafts : List SectionDraft) : Prop where
  investigation : row.investigationId = investigationId
  tenant : row.tenantId = svc.tenantId
  version : row.version = 1
  superseded : row.supersededBy = none
  status : row.status = .ready
  title : row.title = titleOf svc.py document
  new : row.id ∉ t.reports.map ReportRow.id
  alone : ∀ other ∈ t.reports, other.investigationId = investigationId → other.version ≠ 1
  drafted : sectionDrafts svc.py document = some drafts
  written : Tables.replaceSections { t with reports := t.reports ++ [row] } row.id
    (svc.sectionRows row.id uuids drafts) (svc.citationRows row.id uuids drafts) = .ok t'

theorem storeTransaction_ok {id : String} (hnone : svc.previous t investigationId = none)
    (h : svc.storeTransaction t investigationId document reportId objectKey uuids = .ok (t', id)) :
    ∃ row drafts, row.id = id ∧ Added svc investigationId t t' document uuids row drafts := by
  unfold ReportService.storeTransaction at h
  rw [hnone] at h
  obtain ⟨reuse, hreuse, h⟩ := ok_of_bind h
  cases hreuse
  obtain ⟨confidence, -, h⟩ := ok_of_bind h
  obtain ⟨written, hwritten, h⟩ := ok_of_bind h
  obtain ⟨drafts, hdrafts, h⟩ := ok_of_bind h
  obtain ⟨stored, hstored, h⟩ := ok_of_bind h
  obtain ⟨rfl, rfl⟩ := Prod.mk.inj (Except.ok.inj h)
  obtain ⟨rfl, hnew, hversions⟩ := insertReport_ok hwritten
  exact ⟨_, drafts, rfl, rfl, rfl, rfl, rfl, rfl, rfl, hnew, hversions, ok_of_coerced hdrafts, hstored⟩

/-! ## Reading a stored report back -/

theorem replaceSections_ok {reportId : String} {sections : List ReportSectionRow}
    {citations : List CitationRow} (h : t.replaceSections reportId sections citations = .ok t') :
    t'.reports = t.reports ∧
      t'.sections = (t.sections.filter fun old => old.reportId ≠ reportId) ++ sections ∧
      t'.citations = (t.citations.filter fun old => old.reportId ≠ reportId) ++ citations ∧
      (sections.map ReportSectionRow.id).Nodup := by
  unfold Tables.replaceSections at h
  dsimp only at h
  split_ifs at h with hchecks
  cases h
  have hnodup := hchecks.1
  rw [map_append, nodup_append] at hnodup
  exact ⟨rfl, rfl, rfl, hnodup.2.1⟩

theorem filter_citations (drafts : List SectionDraft) (k i : ℕ) :
    (((drafts.zipIdx k).flatMap fun draft => draft.1.citations.map (draft.2, ·)).filter
      fun c => c.1 = i).map Prod.snd =
        if k ≤ i then (drafts[i - k]?).elim [] SectionDraft.citations else [] := by
  induction drafts generalizing k with
  | nil => split_ifs <;> rfl
  | cons draft drafts ih =>
    rw [zipIdx_cons, flatMap_cons, filter_append, map_append, ih]
    rcases lt_trichotomy k i with hlt | rfl | hgt
    · have hnone : (draft.citations.map (k, ·)).filter (fun c => decide (c.1 = i)) = [] := by
        refine filter_eq_nil_iff.mpr fun c hc => ?_
        obtain ⟨d, -, rfl⟩ := mem_map.mp hc
        simpa using hlt.ne
      obtain ⟨j, rfl⟩ := Nat.exists_eq_add_of_lt hlt
      rw [hnone, if_pos (by omega), if_pos (by omega),
        show k + j + 1 - k = (k + j + 1 - (k + 1)) + 1 by omega, List.getElem?_cons_succ]
      rfl
    · have hall : (draft.citations.map (k, ·)).filter (fun c => decide (c.1 = k)) =
          draft.citations.map (k, ·) := by
        refine filter_eq_self.mpr fun c hc => ?_
        obtain ⟨d, -, rfl⟩ := mem_map.mp hc
        exact decide_eq_true rfl
      rw [hall, if_neg (by omega), if_pos le_rfl, append_nil, Nat.sub_self, map_map]
      exact map_id _
    · have hnone : (draft.citations.map (k, ·)).filter (fun c => decide (c.1 = i)) = [] := by
        refine filter_eq_nil_iff.mpr fun c hc => ?_
        obtain ⟨d, -, rfl⟩ := mem_map.mp hc
        simpa using hgt.ne'
      rw [hnone, if_neg (by omega), if_neg (by omega)]
      rfl

theorem sectionRows_ids (svc : ReportService) (reportId : String) (uuids : Uuids)
    (drafts : List SectionDraft) :
    (svc.sectionRows reportId uuids drafts).map ReportSectionRow.id =
      (List.range drafts.length).map fun k => "sec_" ++ uuids.part k := by
  unfold ReportService.sectionRows
  rw [range_eq_range', ← zipIdx_map_snd, map_map, map_map]
  rfl

theorem filter_zipIdx {α : Type*} (p : α → Bool) (xs : List α) :
    (xs.zipIdx.filter fun x => p x.1).map Prod.fst = xs.filter p := by
  have hxs : xs = xs.zipIdx.map Prod.fst := (zipIdx_map_fst 0 xs).symm
  conv_rhs => rw [hxs, filter_map]
  rfl

theorem citationRows_of_section {reportId : String}
    (hnodup : ((svc.sectionRows reportId uuids drafts).map ReportSectionRow.id).Nodup) {i : ℕ}
    {draft : SectionDraft} (hdraft : drafts[i]? = some draft) :
    ((svc.citationRows reportId uuids drafts).filter fun c =>
      c.sectionId = some ("sec_" ++ uuids.part i)).map (fun c => c.toView.toDraft) =
        draft.citations := by
  obtain ⟨hi, -⟩ := List.getElem?_eq_some_iff.mp hdraft
  set flat := drafts.zipIdx.flatMap fun draft => draft.1.citations.map (draft.2, ·) with hflat
  -- The ids of the sections tell the ordinals apart.
  have hsame : (flat.filter fun c => some ("sec_" ++ uuids.part c.1) =
      some ("sec_" ++ uuids.part i)) = flat.filter fun c => c.1 = i := by
    refine filter_congr fun c hc => decide_eq_decide.mpr ⟨?_, fun h => by rw [h]⟩
    intro h
    obtain ⟨d, hd, hmem⟩ := mem_flatMap.mp hc
    obtain ⟨_, _, rfl⟩ := mem_map.mp hmem
    have hlt : d.2 < drafts.length := (mem_zipIdx' hd).1
    rw [sectionRows_ids] at hnodup
    exact inj_on_of_nodup_map hnodup (mem_range.mpr hlt) (mem_range.mpr hi)
      (Option.some.inj h)
  have hrows : ((svc.citationRows reportId uuids drafts).filter fun c =>
      c.sectionId = some ("sec_" ++ uuids.part i)).map (fun c => c.toView.toDraft) =
        (flat.filter fun c => some ("sec_" ++ uuids.part c.1) =
          some ("sec_" ++ uuids.part i)).map Prod.snd := by
    rw [← filter_zipIdx (fun c => decide (some ("sec_" ++ uuids.part c.1) =
      some ("sec_" ++ uuids.part i))) flat, map_map]
    unfold ReportService.citationRows
    rw [← hflat, filter_map, map_map]
    rfl
  rw [hrows, hsame, hflat, filter_citations, if_pos (Nat.zero_le _), Nat.sub_zero, hdraft]
  rfl

theorem forall₂_zipIdx {α β : Type*} {R : β → α → Prop} {f : α × ℕ → β} {xs : List α} (k : ℕ)
    (h : ∀ i x, xs[i]? = some x → R (f (x, k + i)) x) :
    List.Forall₂ R ((xs.zipIdx k).map f) xs := by
  induction xs generalizing k with
  | nil => exact .nil
  | cons x xs ih =>
    rw [zipIdx_cons, map_cons]
    refine .cons (h 0 x rfl) (ih (k + 1) fun i y hy => ?_)
    have hnext := h (i + 1) y hy
    rwa [Nat.add_right_comm, ← Nat.add_assoc] at *

theorem get_stored (h : Added svc investigationId t t' document uuids row drafts) :
    ∃ view, svc.get t' row.id = some view ∧ view.toReportSummary = row.toSummary ∧
      List.Forall₂ SectionView.Shows view.sections drafts := by
  obtain ⟨hreports, hsections, hcitations, hnodup⟩ := replaceSections_ok h.written
  have hfind : (t'.reports.find? fun other => other.id = row.id ∧ other.tenantId = svc.tenantId) =
      some row := by
    rw [hreports, List.find?_append]
    have hnone : (t.reports.find? fun other =>
        other.id = row.id ∧ other.tenantId = svc.tenantId) = none := by
      refine List.find?_eq_none.mpr fun other hother heq => h.new ?_
      exact mem_map.mpr ⟨other, hother, (of_decide_eq_true heq).1⟩
    rw [hnone, Option.none_or, List.find?_singleton, if_pos]
    exact decide_eq_true ⟨rfl, h.tenant⟩
  have hown : ∀ part ∈ svc.sectionRows row.id uuids drafts, part.reportId = row.id := by
    intro part hpart
    obtain ⟨d, -, rfl⟩ := mem_map.mp hpart
    rfl
  have hparts : (t'.sections.filter fun part => part.reportId = row.id) =
      svc.sectionRows row.id uuids drafts := by
    rw [hsections, filter_append, filter_filter, filter_eq_nil_iff.mpr,
      nil_append, filter_eq_self.mpr]
    · exact fun part hpart => decide_eq_true (hown part hpart)
    · intro part _ hboth
      simp at hboth
  have hcited : (t'.citations.filter fun c => c.reportId = row.id) =
      svc.citationRows row.id uuids drafts := by
    rw [hcitations, filter_append, filter_filter, filter_eq_nil_iff.mpr,
      nil_append, filter_eq_self.mpr]
    · intro c hc
      obtain ⟨d, -, rfl⟩ := mem_map.mp hc
      exact decide_eq_true rfl
    · intro c _ hboth
      simp at hboth
  have hsorted : (svc.sectionRows row.id uuids drafts).insertionSort
      (fun a b => a.ordinal ≤ b.ordinal) = svc.sectionRows row.id uuids drafts := by
    refine List.Pairwise.insertionSort_eq ?_
    have hordinals : ((svc.sectionRows row.id uuids drafts).map ReportSectionRow.ordinal).Pairwise
        (· ≤ ·) := by
      unfold ReportService.sectionRows
      rw [map_map]
      change (drafts.zipIdx.map Prod.snd).Pairwise (· ≤ ·)
      rw [zipIdx_map_snd]
      exact pairwise_le_range' ..
    exact pairwise_map.mp hordinals
  unfold ReportService.get
  rw [hfind]
  refine ⟨_, rfl, rfl, ?_⟩
  dsimp only
  rw [hparts, hsorted, hcited]
  unfold ReportService.sectionRows
  rw [map_map]
  refine forall₂_zipIdx 0 fun i draft hdraft => ⟨rfl, rfl, rfl, ?_⟩
  have hperm := ((svc.unordered_perm (svc.citationRows row.id uuids drafts)).filter fun c =>
    c.sectionId = some ("sec_" ++ uuids.part i)).map fun c => c.toView.toDraft
  rw [citationRows_of_section hnodup hdraft] at hperm
  simpa [Function.comp_def] using hperm

/-! ## One call -/

theorem store_cases (document : Document) (reportId objectKey : Option String) (uuids : Uuids) :
    (∃ err, svc.store t investigationId document reportId objectKey uuids = (t, .error err)) ∨
    (svc.previous t investigationId = none ∧ ∃ t' view row drafts,
      Added svc investigationId t t' document uuids row drafts ∧
      view.toReportSummary = row.toSummary ∧
      List.Forall₂ SectionView.Shows view.sections drafts ∧
      svc.store t investigationId document reportId objectKey uuids = (t', .ok view)) := by
  unfold ReportService.store
  cases hlimits : ReportService.checkLimits document with
  | error err => exact .inl ⟨err, rfl⟩
  | ok checked =>
    cases htransaction :
        svc.storeTransaction t investigationId document reportId objectKey uuids with
    | error err => exact .inl ⟨err, rfl⟩
    | ok stored =>
      obtain ⟨t', id⟩ := stored
      have hnone : svc.previous t investigationId = none := by
        by_contra hsome
        obtain ⟨row, hrow⟩ := Option.ne_none_iff_exists'.mp hsome
        rw [storeTransaction_previous hrow] at htransaction
        cases htransaction
      obtain ⟨row, drafts, rfl, hadded⟩ := storeTransaction_ok hnone htransaction
      obtain ⟨view, hview, hsummary, hshows⟩ := get_stored hadded
      refine .inr ⟨hnone, t', view, row, drafts, hadded, hsummary, hshows, ?_⟩
      dsimp only
      rw [hview]

def Single (svc : ReportService) (investigationId : String) (t : Tables) : Prop :=
  t.reportsOf investigationId = [] ∨ ∃ row, t.reportsOf investigationId = [row] ∧
    row.tenantId = svc.tenantId ∧ row.version = 1 ∧ row.supersededBy = none

theorem Single.alone (h : Single svc investigationId t)
    (hversions : ∀ other ∈ t.reports, other.investigationId = investigationId →
      other.version ≠ 1) : t.reportsOf investigationId = [] := by
  refine h.resolve_right ?_
  rintro ⟨row, hrow, -, hversion, -⟩
  have hmem : row ∈ t.reportsOf investigationId := hrow ▸ mem_cons_self
  obtain ⟨hreport, hinv⟩ := mem_filter.mp hmem
  exact hversions row hreport (of_decide_eq_true hinv) hversion

theorem versioned_single (hrow : t.reportsOf investigationId = [row])
    (hcurrent : row.supersededBy = none) : Versioned investigationId t := by
  have hall : ∀ other ∈ t.reportsOf investigationId, other = row := by
    intro other hother
    rw [hrow] at hother
    exact mem_singleton.mp hother
  constructor
  · refine ⟨row, hrow ▸ mem_cons_self, hcurrent, fun other hother _ => hall other hother, ?_⟩
    intro other hother
    rw [hall other hother]
  · rintro a next ⟨ha, -, hnext⟩
    rw [hall a ha, hcurrent] at hnext
    cases hnext
  · rw [hrow]
    exact nodup_singleton _

theorem reportsOf_append (hempty : t.reportsOf investigationId = [])
    (hreports : t'.reports = t.reports ++ [row]) (hinv : row.investigationId = investigationId) :
    t'.reportsOf investigationId = [row] := by
  unfold Tables.reportsOf at hempty ⊢
  rw [hreports, filter_append, hempty, nil_append]
  exact filter_cons_of_pos (decide_eq_true hinv)

theorem call_placeholder {reportId : Option String} {result : Except ReportError ReportSummary}
    (h : svc.createPlaceholder t investigationId reportId uuids = (t', result)) :
    svc.call investigationId t (.createPlaceholder reportId uuids) = (t', result.map .summary) := by
  change (_, _) = _
  rw [h]

theorem call_store {result : Except ReportError ReportView}
    (h : svc.store t investigationId document reportId objectKey uuids = (t', result)) :
    svc.call investigationId t (.store document reportId objectKey uuids) =
      (t', result.map .view) := by
  change (_, _) = _
  rw [h]

theorem call_keeps (h : Single svc investigationId t) (c : Call) :
    Single svc investigationId (svc.call investigationId t c).1 := by
  cases c with
  | createPlaceholder reportId uuids =>
    rcases @createPlaceholder_cases svc investigationId t reportId uuids with
      ⟨existing, -, -, hcall⟩ | ⟨-, ⟨err, hcall⟩ | ⟨t', row, hrow, hinsert, hcall⟩⟩
    · rw [call_placeholder hcall]
      exact h
    · rw [call_placeholder hcall]
      exact h
    · obtain ⟨rfl, -, hversions⟩ := insertReport_ok hinsert
      subst hrow
      rw [call_placeholder hcall]
      exact .inr ⟨_, reportsOf_append (h.alone hversions) rfl rfl, rfl, rfl, rfl⟩
  | store document reportId objectKey uuids =>
    rcases @store_cases svc investigationId t document reportId objectKey uuids with
      ⟨err, hcall⟩ | ⟨-, t', view, row, drafts, hadded, -, -, hcall⟩
    · rw [call_store hcall]
      exact h
    · rw [call_store hcall]
      have hreports := (replaceSections_ok hadded.written).1
      exact .inr ⟨row, reportsOf_append (h.alone hadded.alone) hreports hadded.investigation,
        hadded.tenant, hadded.version, hadded.superseded⟩

theorem contentOf_added
    {old : ReportRow} (h : Added svc investigationId t t' document uuids row drafts)
    (hold : old ∈ t.reports) : t'.contentOf old = t.contentOf old := by
  obtain ⟨-, hsections, hcitations, -⟩ := replaceSections_ok h.written
  have hne : old.id ≠ row.id := fun heq => h.new (heq ▸ mem_map_of_mem hold)
  have hparts : (t'.sections.filter fun part => part.reportId = old.id) =
      t.sections.filter fun part => part.reportId = old.id := by
    have hnone : ((svc.sectionRows row.id uuids drafts).filter
        fun part => decide (part.reportId = old.id)) = [] := by
      refine filter_eq_nil_iff.mpr fun part hpart => ?_
      obtain ⟨d, -, rfl⟩ := mem_map.mp hpart
      simpa using hne.symm
    rw [hsections, filter_append, hnone, append_nil, filter_filter]
    refine filter_congr fun part _ => ?_
    by_cases hpart : part.reportId = old.id <;> simp [hpart, hne]
  have hcited : (t'.citations.filter fun c => c.reportId = old.id) =
      t.citations.filter fun c => c.reportId = old.id := by
    have hnone : ((svc.citationRows row.id uuids drafts).filter
        fun c => decide (c.reportId = old.id)) = [] := by
      refine filter_eq_nil_iff.mpr fun c hc => ?_
      obtain ⟨d, -, rfl⟩ := mem_map.mp hc
      simpa using hne.symm
    rw [hcitations, filter_append, hnone, append_nil, filter_filter]
    refine filter_congr fun c _ => ?_
    by_cases hc : c.reportId = old.id <;> simp [hc, hne]
  unfold Tables.contentOf
  rw [hparts, hcited]

theorem unchanged_refl (row : ReportRow) (hrow : row ∈ t.reports) :
    ∃ row' ∈ t.reports, row'.id = row.id ∧ t.contentOf row' = t.contentOf row :=
  ⟨row, hrow, rfl, rfl⟩

theorem not_versioned_empty (h : t.reportsOf investigationId = []) :
    ¬Versioned investigationId t := by
  intro hversioned
  obtain ⟨row, hrow, -⟩ := hversioned.current
  rw [h] at hrow
  exact not_mem_nil hrow

theorem serves_error {c : Call} {err : ReportError}
    (hanswer : svc.call investigationId t c = (t, .error err))
    (havoids : ∀ document reportId objectKey uuids, c = .store document reportId objectKey uuids →
      ValidDocument svc.py document → ∀ row ∈ t.reportsOf investigationId, row.status ≠ .draft) :
    Serves svc investigationId t c := by
  constructor
  · intro answer hok
    rw [hanswer] at hok
    cases hok
  · intro row hrow _
    rw [hanswer]
    exact unchanged_refl row hrow
  · intro _ _ _ _ _ _ hok
    rw [hanswer] at hok
    cases hok
  · intro err herr
    rw [hanswer]
  · intro document reportId objectKey uuids hc hvalid row hrow hdraft
    exact absurd hdraft (havoids document reportId objectKey uuids hc hvalid row hrow)

theorem createPlaceholder_serves (h : Single svc investigationId t) (reportId : Option String)
    (uuids : Uuids) :
    Serves svc investigationId t (.createPlaceholder reportId uuids) ↔
      Avoids svc investigationId t (.createPlaceholder reportId uuids) := by
  rcases @createPlaceholder_cases svc investigationId t reportId uuids with
    ⟨existing, hexisting, hid, hcall⟩ | ⟨hnew, hcall⟩
  · -- The row of that id is answered, whosever it is.
    have hanswer := call_placeholder hcall
    constructor
    · intro hserves hempty
      refine absurd (hserves.versioned _ (congrArg Prod.snd hanswer)) ?_
      rw [hanswer]
      exact not_versioned_empty hempty
    · intro havoids
      obtain ⟨row, hrow, -, -, hcurrent⟩ :=
        h.resolve_left fun hempty => havoids hempty existing hexisting hid
      constructor
      · intro answer _
        rw [hanswer]
        exact versioned_single hrow hcurrent
      · intro row hrow _
        rw [hanswer]
        exact unchanged_refl row hrow
      · intro _ _ _ _ _ hc
        cases hc
      · intro err herr
        rw [hanswer]
      · intro _ _ _ _ hc
        cases hc
  · refine iff_of_true ?_ fun _ => hnew
    rcases hcall with ⟨err, hcall⟩ | ⟨t', row, hrow, hinsert, hcall⟩
    · refine serves_error (call_placeholder hcall) fun _ _ _ _ hc => ?_
      cases hc
    · have hanswer := call_placeholder hcall
      obtain ⟨rfl, -, hversions⟩ := insertReport_ok hinsert
      subst hrow
      constructor
      · intro answer _
        rw [hanswer]
        exact versioned_single (reportsOf_append (h.alone hversions) rfl rfl) rfl
      · intro row hrow _
        rw [hanswer]
        exact ⟨row, mem_append_left _ hrow, rfl, rfl⟩
      · intro _ _ _ _ _ hc
        cases hc
      · intro err herr
        rw [hanswer] at herr
        cases herr
      · intro _ _ _ _ hc
        cases hc

theorem store_serves (h : Single svc investigationId t) (document : Document)
    (reportId objectKey : Option String) (uuids : Uuids) :
    Serves svc investigationId t (.store document reportId objectKey uuids) ↔
      Avoids svc investigationId t (.store document reportId objectKey uuids) := by
  rcases @store_cases svc investigationId t document reportId objectKey uuids with
    ⟨err, hcall⟩ | ⟨hnone, t', view, row, drafts, hadded, hsummary, hshows, hcall⟩
  · have hanswer := call_store hcall
    constructor
    · intro hserves hvalid row hrow hdraft
      obtain ⟨view, hview, -⟩ := hserves.adopted _ _ _ _ rfl hvalid row hrow hdraft
      rw [hanswer] at hview
      cases hview
    · intro havoids
      refine serves_error hanswer fun document' _ _ _ hc => ?_
      obtain ⟨rfl, -, -, -⟩ := Call.store.inj hc
      exact havoids
  · -- The first report of the investigation.
    have hanswer := call_store hcall
    have hempty := h.alone hadded.alone
    have hreports := (replaceSections_ok hadded.written).1
    have hone := reportsOf_append hempty hreports hadded.investigation
    refine iff_of_true ?_ ?_
    · constructor
      · intro answer _
        rw [hanswer]
        exact versioned_single hone hadded.superseded
      · intro old hold _
        rw [hanswer]
        exact ⟨old, hreports ▸ mem_append_left _ hold, rfl, contentOf_added hadded hold⟩
      · intro document' _ _ _ view' hc hok
        obtain ⟨rfl, -, -, -⟩ := Call.store.inj hc
        rw [hanswer] at hok ⊢
        obtain rfl : view = view' := Answer.view.inj (Except.ok.inj hok)
        refine ⟨row, hone ▸ mem_cons_self, hadded.new, hadded.status, hsummary, ?_,
          drafts, hadded.drafted, hshows⟩
        rw [← hadded.title]
        exact congrArg ReportSummary.title hsummary
      · intro err herr
        rw [hanswer] at herr
        cases herr
      · intro _ _ _ _ _ _ old hold
        rw [hempty] at hold
        exact absurd hold not_mem_nil
    · intro _ old hold
      rw [hempty] at hold
      exact absurd hold not_mem_nil

/-- Every call does what it should if and only if none of them is one that goes wrong. -/
theorem serves_iff_avoids (svc : ReportService) (investigationId : String) (t : Tables)
    (hnone : t.reportsOf investigationId = []) (calls : List Call) :
    Along (svc.step investigationId) (Serves svc investigationId) t calls ↔
      Along (svc.step investigationId) (Avoids svc investigationId) t calls := by
  refine along_congr (I := Single svc investigationId) (fun t c t' h hstep => ?_)
    (fun t c h => ?_) (.inl hnone)
  · cases hstep
    exact call_keeps h c
  · cases c with
    | createPlaceholder reportId uuids => exact createPlaceholder_serves h reportId uuids
    | store document reportId objectKey uuids =>
      exact store_serves h document reportId objectKey uuids

def sampleService : ReportService where
  tenantId := "default"
  py := ⟨fun _ => "", fun _ => none, fun _ => none⟩
  unordered := id
  unordered_perm := List.Perm.refl

def sampleUuids (call : String) : Uuids :=
  ⟨call, fun k => call ++ "-" ++ toString k, fun k => call ++ "-" ++ toString k⟩

def sampleTables : Tables := ⟨["inv_1"], [], [], []⟩

def sampleDocument : Document :=
  [("title", .str "Acme"), ("confidence", .number (1 / 2)), ("sections", .array [.object
    [("title", .str "Findings"), ("body", .str "Acme rose."), ("claims", .array [.object
      [("text", .str "rose"), ("citations", .array [.str "sig_1", .str "sig_2"])]])]])]

/-- A report is stored, a second store raises, and a placeholder under the report's id is the
report. -/
theorem serves_first_report : Along (sampleService.step "inv_1") (Serves sampleService "inv_1")
    sampleTables [.store sampleDocument none none (sampleUuids "a"),
      .store sampleDocument none none (sampleUuids "b"),
      .createPlaceholder (some "rpt_a") (sampleUuids "c")] := by
  refine (serves_iff_avoids sampleService "inv_1" sampleTables rfl _).mpr ⟨?_, ?_⟩
  · intro _ row hrow
    exact absurd hrow not_mem_nil
  · rintro t ht
    cases ht
    refine ⟨?_, ?_⟩
    · intro _
      decide +kernel
    · rintro t ht
      cases ht
      refine ⟨?_, fun _ _ => trivial⟩
      intro hempty
      exact absurd hempty (by decide +kernel)

/-- The report of an investigation with a placeholder cannot be stored. -/
theorem placeholder_never_filled : ¬ Along (sampleService.step "inv_1")
    (Serves sampleService "inv_1") sampleTables
    [.createPlaceholder none (sampleUuids "a"),
      .store sampleDocument none none (sampleUuids "b")] := by
  rintro ⟨-, hrest⟩
  have hserves := (hrest _ rfl).1
  have hvalid : ValidDocument sampleService.py sampleDocument :=
    ⟨by decide, ⟨1 / 2, by decide +kernel⟩, ⟨[⟨"Findings", "Acme rose.", 0,
      [⟨"sig_1", "rose", 0, 4, 0⟩, ⟨"sig_2", "rose", 0, 4, 0⟩]⟩], by decide⟩⟩
  obtain ⟨view, hview, -⟩ := hserves.adopted _ _ _ _ rfl hvalid
    (sampleService.newRow "inv_1" "rpt_a" 1) (by decide) rfl
  have hraised : (sampleService.store (sampleService.createPlaceholder sampleTables "inv_1" none
      (sampleUuids "a")).1 "inv_1" sampleDocument none none (sampleUuids "b")).2 =
        .error (.attribute "PENDING") := by decide
  have hanswer : Except.map Answer.view (.error (.attribute "PENDING") :
      Except ReportError ReportView) = .ok (.view view) := hraised ▸ hview
  cases hanswer

end OmniSense.Reports
