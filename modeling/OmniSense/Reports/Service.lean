import Mathlib.Algebra.GroupWithZero.Nat
import Mathlib.Data.List.Sort
import Mathlib.Data.String.Basic
import Mathlib.Algebra.Order.Ring.Rat
import OmniSense.Models.Common
import OmniSense.Models.Json

/-! `ReportService`: placeholders, stored reports and reading one back, over the three tables and
their constraints. -/

namespace OmniSense.Reports

inductive ReportStatus
  | draft | ready | superseded | failed | unknown
  deriving DecidableEq

inductive ReportFormat
  | markdown | json | html | pdf | unknown
  deriving DecidableEq

inductive ReportError
  | validation (message : String)
  | conflict (message : String)
  | attribute (name : String)
  -- A constraint of the tables.
  | integrity
  -- `float()`, `int()`, `len()` or `for` over a value that is not made for it.
  | coercion
  deriving DecidableEq

def ReportStatus.members : List (String × ReportStatus) :=
  [("DRAFT", .draft), ("READY", .ready), ("SUPERSEDED", .superseded), ("FAILED", .failed),
    ("UNKNOWN", .unknown)]

/-- `ReportStatus.<name>`. -/
def ReportStatus.attribute (name : String) : Except ReportError ReportStatus :=
  match members.find? fun member => member.1 = name with
  | some member => .ok member.2
  | none => .error (.attribute name)

/-! ## Tables -/

structure ReportRow where
  id : String
  tenantId : String
  investigationId : String
  title : String
  summary : Option String
  status : ReportStatus
  format : ReportFormat
  confidence : ℚ
  version : ℕ
  supersededBy : Option String
  objectKey : Option String
  deriving DecidableEq

structure ReportSectionRow where
  id : String
  tenantId : String
  reportId : String
  ordinal : ℕ
  heading : String
  body : String
  confidence : ℚ
  deriving DecidableEq

structure CitationRow where
  id : String
  tenantId : String
  reportId : String
  sectionId : Option String
  signalId : String
  quote : String
  charStart : ℤ
  charEnd : ℤ
  relevance : ℚ
  deriving DecidableEq

structure Tables where
  investigations : List String
  reports : List ReportRow
  sections : List ReportSectionRow
  citations : List CitationRow
  deriving DecidableEq

def inRange (q : ℚ) : Bool := 0 ≤ q ∧ q ≤ 1

namespace Tables

variable (t : Tables)

variable (row : ReportRow)

/-- The constraints on one row of `reports`, its own key apart. -/
def allows : Bool :=
  inRange row.confidence && 1 ≤ row.version && row.supersededBy ≠ some row.id &&
    row.investigationId ∈ t.investigations &&
    t.reports.all fun other =>
      other.id = row.id || other.investigationId ≠ row.investigationId ||
        other.version ≠ row.version

def insertReport : Except ReportError Tables :=
  if t.reports.all (·.id ≠ row.id) && t.allows row then
    .ok { t with reports := t.reports ++ [row] }
  else .error .integrity

def updateReport : Except ReportError Tables :=
  if t.allows row then
    .ok { t with reports := t.reports.map fun old => if old.id = row.id then row else old }
  else .error .integrity

/-- `previous.superseded_by = row.id`. -/
def supersede (previous id : String) : Tables :=
  { t with reports := t.reports.map fun old =>
      if old.id = previous then { old with supersededBy := some id } else old }

/-- The deletes of `_write_sections`, and the flush of what it adds. -/
def replaceSections (reportId : String) (sections : List ReportSectionRow)
    (citations : List CitationRow) : Except ReportError Tables :=
  let oldSections := t.sections.filter fun old => old.reportId ≠ reportId
  let oldCitations := t.citations.filter fun old => old.reportId ≠ reportId
  if ((oldSections ++ sections).map ReportSectionRow.id).Nodup ∧
      ((oldCitations ++ citations).map CitationRow.id).Nodup ∧
      (∀ row ∈ sections, inRange row.confidence) ∧
      ∀ row ∈ citations, 0 ≤ row.charStart ∧ row.charStart ≤ row.charEnd ∧ inRange row.relevance
  then .ok { t with sections := oldSections ++ sections, citations := oldCitations ++ citations }
  else .error .integrity

end Tables

/-! ## Documents -/

abbrev Document := List (String × Json)

structure CitationDraft where
  signalId : String
  quote : String
  charStart : ℤ
  charEnd : ℤ
  relevance : ℚ
  deriving DecidableEq

structure SectionDraft where
  heading : String
  body : String
  confidence : ℚ
  citations : List CitationDraft
  deriving DecidableEq

/-- What Python makes of a value: `str()` of what is no string, `float()` and `int()` of a string. -/
structure Coercion where
  text : Json → String
  float : String → Option ℚ
  int : String → Option ℤ

namespace Coercion

variable (py : Coercion)

def str : Json → String
  | .str s => s
  | value => py.text value

def toFloat : Json → Option ℚ
  | .number q => some q
  | .bool b => some (if b then 1 else 0)
  | .str s => py.float s
  | _ => none

def toInt : Json → Option ℤ
  | .number q => some (q.num.tdiv q.den)
  | .bool b => some (if b then 1 else 0)
  | .str s => py.int s
  | _ => none

end Coercion

def cut (n : ℕ) (s : String) : String := String.ofList (s.toList.take n)

def sectionsOf (document : Document) : List Document :=
  match Json.get document "sections" with
  | some (.array raw) => raw.filterMap Json.asMapping
  | _ => []

def asStrOrNone : Option Json → Option String
  | some (.str s) => if strip s = "" then none else some s
  | _ => none

/-- `mapping.get(key) or []`, to be counted or gone through. -/
def elementsOf (mapping : Document) (key : String) : Option (List Json) :=
  (Json.getTrue mapping key).elim (some []) Json.elements

def totalCitations (sections : List Document) : Option ℕ :=
  (sections.mapM fun part => elementsOf part "claims").map fun claims =>
    (claims.map List.length).sum

section

variable (py : Coercion)

/-- `float(mapping.get(key) or 0.0)`. -/
def floatOf (mapping : Document) (key : String) : Option ℚ :=
  (Json.getTrue mapping key).elim (some 0) py.toFloat

def citationDrafts (claim : Document) : Option (List CitationDraft) := do
  let quote := (Json.getTrue claim "text").elim "" py.str
  let signalIds ← elementsOf claim "citations"
  ((signalIds.filterMap Json.asString).filter (· ≠ "")).mapM fun signalId => do
    let charStart ← (Json.getTrue claim "char_start").elim (some 0) py.toInt
    let charEnd ← (Json.getTrue claim "char_end").elim (some (quote.length : ℤ)) py.toInt
    let relevance ← floatOf py claim "confidence"
    some ⟨signalId, cut 4000 quote, charStart, charEnd, relevance⟩

def sectionDraft (ordinal : ℕ) (part : Document) : Option SectionDraft := do
  let confidence ← floatOf py part "confidence"
  let claims ← elementsOf part "claims"
  let citations ← (claims.filterMap Json.asMapping).mapM (citationDrafts py)
  some ⟨cut 500 ((Json.getTrue part "title").elim ("Section " ++ toString (ordinal + 1)) py.str),
    (Json.getTrue part "body").elim "" py.str, confidence, citations.flatten⟩

def sectionDrafts (document : Document) : Option (List SectionDraft) :=
  (sectionsOf document).zipIdx.mapM fun part => sectionDraft py part.2 part.1

def titleOf (document : Document) : String :=
  cut 1000 ((Json.getTrue document "title").elim "Investigation report" py.str)

end

/-! ## The service -/

/-- What `uuid4` gives one call. -/
structure Uuids where
  report : String
  part : ℕ → String
  citation : ℕ → String

structure ReportService where
  tenantId : String
  py : Coercion
  -- The order in which an unordered select returns citations.
  unordered : List CitationRow → List CitationRow
  unordered_perm : ∀ rows, (unordered rows).Perm rows

structure ReportSummary where
  id : String
  investigationId : String
  title : String
  summary : Option String
  status : ReportStatus
  format : ReportFormat
  confidence : ℚ
  version : ℕ
  supersededBy : Option String
  deriving DecidableEq

structure CitationView where
  id : String
  signalId : String
  quote : String
  charStart : ℤ
  charEnd : ℤ
  relevance : ℚ
  sectionId : Option String
  deriving DecidableEq

structure SectionView where
  id : String
  ordinal : ℕ
  heading : String
  body : String
  confidence : ℚ
  citations : List CitationView
  deriving DecidableEq

structure ReportView extends ReportSummary where
  objectKey : Option String
  sections : List SectionView
  deriving DecidableEq

/-- `_summary`. -/
def ReportRow.toSummary (row : ReportRow) : ReportSummary where
  id := row.id
  investigationId := row.investigationId
  title := row.title
  summary := row.summary
  status := row.status
  format := row.format
  confidence := row.confidence
  version := row.version
  supersededBy := row.supersededBy

def CitationRow.toView (row : CitationRow) : CitationView where
  id := row.id
  signalId := row.signalId
  quote := row.quote
  charStart := row.charStart
  charEnd := row.charEnd
  relevance := row.relevance
  sectionId := row.sectionId

def maxSections : ℕ := 20
def maxCitationsPerReport : ℕ := 500

namespace ReportService

variable (svc : ReportService)

/-- `report_id or ..`. -/
def orId (reportId : Option String) (other : String) : String :=
  (reportId.filter (· ≠ "")).getD other

def newRow (investigationId id : String) (version : ℕ) : ReportRow where
  id := id
  tenantId := svc.tenantId
  investigationId := investigationId
  title := ""
  summary := none
  status := .draft
  format := .markdown
  confidence := 0
  version := version
  supersededBy := none
  objectKey := none

variable (t : Tables)

variable (investigationId : String)

def createPlaceholder (reportId : Option String)
    (uuids : Uuids) : Tables × Except ReportError ReportSummary :=
  let resolvedId := orId reportId ("rpt_" ++ uuids.report)
  match t.reports.find? fun row => row.id = resolvedId with
  | some existing => (t, .ok existing.toSummary)
  | none =>
    let row := svc.newRow investigationId resolvedId 1
    match t.insertReport row with
    | .ok t' => (t', .ok row.toSummary)
    | .error err => (t, .error err)

def currents : List ReportRow :=
  t.reports.filter fun row =>
    row.investigationId = investigationId ∧ row.tenantId = svc.tenantId ∧ row.supersededBy = none

def previous : Option ReportRow :=
  ((svc.currents t investigationId).insertionSort fun a b => b.version ≤ a.version).head?

variable (reportId : String)

def sectionRows (uuids : Uuids) (drafts : List SectionDraft) :
    List ReportSectionRow :=
  drafts.zipIdx.map fun draft =>
    { id := "sec_" ++ uuids.part draft.2, tenantId := svc.tenantId, reportId := reportId
      ordinal := draft.2, heading := draft.1.heading, body := draft.1.body
      confidence := draft.1.confidence }

def citationRows (uuids : Uuids) (drafts : List SectionDraft) :
    List CitationRow :=
  (drafts.zipIdx.flatMap fun draft => draft.1.citations.map (draft.2, ·)).zipIdx.map fun c =>
    { id := "cit_" ++ uuids.citation c.2, tenantId := svc.tenantId, reportId := reportId
      sectionId := some ("sec_" ++ uuids.part c.1.1), signalId := c.1.2.signalId
      quote := c.1.2.quote, charStart := c.1.2.charStart, charEnd := c.1.2.charEnd
      relevance := c.1.2.relevance }

def coerced {α : Type} (value : Option α) : Except ReportError α := value.elim (.error .coercion) .ok

/-- The checks that `store` makes before it opens a transaction. -/
def checkLimits (document : Document) : Except ReportError Unit := do
  let sections := sectionsOf document
  if maxSections < sections.length then
    throw (.validation ("report has " ++ toString sections.length ++
      " sections; the maximum is " ++ toString maxSections))
  let total ← coerced (totalCitations sections)
  if maxCitationsPerReport < total then
    throw (.validation ("report carries " ++ toString total ++ " citations, above the " ++
      toString maxCitationsPerReport ++ " ceiling. That many is not better evidence -- it means " ++
      "something is emitting citations mechanically."))

/-- The transaction of `store`, and the id that it resolved. -/
def storeTransaction (document : Document)
    (reportId objectKey : Option String) (uuids : Uuids) : Except ReportError (Tables × String) := do
  let previous := svc.previous t investigationId
  let reuse ← match previous with
    | none => pure none
    | some row => do
      let pending ← ReportStatus.attribute "PENDING"
      pure (if row.status = pending then some row else none)
  let version := if reuse.isSome then 1 else previous.elim 1 fun row => row.version + 1
  let resolvedId := orId reportId (reuse.elim ("rpt_" ++ uuids.report) ReportRow.id)
  let confidence ← coerced (floatOf svc.py document "confidence")
  let row := { reuse.getD (svc.newRow investigationId resolvedId version) with
    title := titleOf svc.py document
    summary := asStrOrNone (Json.get document "executive_summary")
    status := .ready
    format := .markdown
    confidence := confidence
    objectKey := objectKey }
  let written ← if reuse.isSome then t.updateReport row else t.insertReport row
  let superseded := previous.elim written fun old =>
    if old.id = row.id then written else written.supersede old.id row.id
  let drafts ← coerced (sectionDrafts svc.py document)
  let stored ← superseded.replaceSections row.id (svc.sectionRows row.id uuids drafts)
    (svc.citationRows row.id uuids drafts)
  pure (stored, resolvedId)

def get : Option ReportView :=
  (t.reports.find? fun row => row.id = reportId ∧ row.tenantId = svc.tenantId).map fun row =>
    let sectionRows := (t.sections.filter fun part => part.reportId = reportId).insertionSort
      fun a b => a.ordinal ≤ b.ordinal
    let citationRows := svc.unordered (t.citations.filter fun c => c.reportId = reportId)
    { row.toSummary with
      objectKey := row.objectKey
      sections := sectionRows.map fun part =>
        { id := part.id, ordinal := part.ordinal, heading := part.heading, body := part.body
          confidence := part.confidence
          citations :=
            (citationRows.filter fun c => c.sectionId = some part.id).map CitationRow.toView } }

def store (document : Document)
    (reportId objectKey : Option String) (uuids : Uuids) : Tables × Except ReportError ReportView :=
  match checkLimits document with
  | .error err => (t, .error err)
  | .ok () =>
    match svc.storeTransaction t investigationId document reportId objectKey uuids with
    | .error err => (t, .error err)
    | .ok (t', resolvedId) =>
      match svc.get t' resolvedId with
      | none => (t', .error (.conflict "the report vanished immediately after being written"))
      | some view => (t', .ok view)

end ReportService

end OmniSense.Reports
