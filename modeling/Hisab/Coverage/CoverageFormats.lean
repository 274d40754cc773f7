import Hisab.Base.Dict
import Mathlib

/-!
# Coverage formats

`FileCoverage` and `build_summary_json` of `coverage_formats/model.py` and `parse_cobertura` of
`coverage_formats/cobertura.py`, all under `Tools/coverage/src/coverage_tool`. A `dict` is the list
of its entries in insertion order, a `set` of line numbers a list of them, and the percentages,
which are rounded doubles, are left out.
-/

namespace Hisab.Coverage

open Base List Dict

/-- A `<line>` element; an attribute that `int` does not read is `none`. -/
structure LineElement where
  number : Option Nat
  hits : Option Nat
  deriving DecidableEq, Repr

/-- A `<class>` element with its `lines/line` elements. -/
structure ClassElement where
  filename : List Char
  lines : List LineElement
  deriving DecidableEq, Repr

/-- The `<class>` elements of a report, package by package. -/
abbrev CoberturaReport := List ClassElement

/-- `FileCoverage` (`model.py:13–24`). -/
structure FileCoverage where
  executionCounts : List (Nat × Nat) := []
  functionTotal : Nat := 0
  functionCovered : Nat := 0
  deriving DecidableEq, Repr

namespace FileCoverage

variable (coverage : FileCoverage)

def coveredLines : List Nat :=
  (coverage.executionCounts.filter fun entry ↦ 0 < entry.2).map Prod.fst

def uncoveredLines : List Nat :=
  (coverage.executionCounts.filter fun entry ↦ entry.2 = 0).map Prod.fst

def lineTotal : Nat := coverage.executionCounts.length

def lineCovered : Nat := coverage.coveredLines.length

end FileCoverage

/-- The line and the hits that an element reports, if it is well formed. -/
def LineElement.record? (line : LineElement) : Option (Nat × Nat) :=
  match line.number, line.hits with
  | some number, some hits => if number = 0 then none else some (number, hits)
  | _, _ => none

/-- The body of the loop over the lines (`cobertura.py:60–69`). -/
def recordLine (counts : List (Nat × Nat)) (line : LineElement) : List (Nat × Nat) :=
  match line.record? with
  | some (number, hits) => Dict.set counts number hits
  | none => counts

def parseClass (classElem : ClassElement) : FileCoverage where
  executionCounts := classElem.lines.foldl recordLine []

/-- The body of the loop over the classes (`cobertura.py:53–71`): the first class of a file name
is kept. -/
def recordClass (files : List (List Char × FileCoverage)) (classElem : ClassElement) :
    List (List Char × FileCoverage) :=
  if classElem.filename = [] then files
  else Dict.setDefault files classElem.filename (parseClass classElem)

/-- `parse_cobertura` (`cobertura.py:19–73`) of a file that is there and is well-formed XML. -/
def parseCobertura (report : CoberturaReport) : List (List Char × FileCoverage) :=
  report.foldl recordClass []

/-- What `_metric` returns, without the percentage. -/
structure Metric where
  total : Nat
  covered : Nat
  uncovered : Nat
  deriving DecidableEq, Repr

/-- `_metric` (`model.py:43–53`). -/
def metric (total covered : Nat) : Metric :=
  let covered := min covered total
  { total, covered, uncovered := total - covered }

/-- An entry of `summary["files"]`. -/
structure FileSummary where
  file : List Char
  lineCoverage : Metric
  functionCoverage : Metric
  deriving DecidableEq, Repr

/-- The structure that `build_summary_json` returns. -/
structure SummaryJson where
  formatVersion : String := "2.0"
  generator : String
  schema : String := "cobertura-compatible"
  lineCoverage : Metric := metric 0 0
  functionCoverage : Metric := metric 0 0
  regionCoverage : Metric := metric 0 0
  files : List FileSummary := []
  deriving DecidableEq, Repr

def fileSummary (entry : List Char × FileCoverage) : FileSummary where
  file := entry.1
  lineCoverage := metric entry.2.lineTotal entry.2.lineCovered
  functionCoverage := metric entry.2.functionTotal entry.2.functionCovered

/-- `build_summary_json` (`model.py:56–108`). -/
def buildSummaryJson (files : List (List Char × FileCoverage))
    (generator : String := "coverage_tool") : SummaryJson where
  generator
  lineCoverage := metric (files.map fun entry ↦ entry.2.lineTotal).sum
    (files.map fun entry ↦ entry.2.lineCovered).sum
  functionCoverage := metric (files.map fun entry ↦ entry.2.functionTotal).sum
    (files.map fun entry ↦ entry.2.functionCovered).sum
  files := files.map fileSummary

/-! ### Lines of one file -/

variable {coverage : FileCoverage} {line hits : Nat}

theorem mem_coveredLines :
    line ∈ coverage.coveredLines ↔ ∃ hits, (line, hits) ∈ coverage.executionCounts ∧ 0 < hits := by
  simp [FileCoverage.coveredLines]

theorem mem_uncoveredLines :
    line ∈ coverage.uncoveredLines ↔ (line, 0) ∈ coverage.executionCounts := by
  simp [FileCoverage.uncoveredLines]

variable {classElem : ClassElement} {report : CoberturaReport} {filename : List Char}

theorem executionCounts_parseClass (classElem : ClassElement) :
    (parseClass classElem).executionCounts = (classElem.lines.filterMap LineElement.record?).foldl
      (fun counts entry ↦ Dict.set counts entry.1 entry.2) [] := by
  rw [foldl_filterMap]
  change classElem.lines.foldl recordLine [] = _
  congr 1
  funext counts line
  rw [recordLine]
  cases line.record? with
  | none | some entry => rfl

theorem nodup_parseClass (classElem : ClassElement) :
    ((parseClass classElem).executionCounts.map Prod.fst).Nodup := by
  rw [executionCounts_parseClass]
  exact nodup_foldl (fun _ _ hd ↦ nodup_set hd) _ nodup_nil

/-- A count of a class is that of one of its elements. -/
theorem record_of_mem_parseClass (h : (line, hits) ∈ (parseClass classElem).executionCounts) :
    ∃ elem ∈ classElem.lines, elem.record? = some (line, hits) := by
  have hlookup := lookup_of_mem (nodup_parseClass classElem) h
  rw [executionCounts_parseClass, lookup_foldl_set, lookup_nil, Option.or_none] at hlookup
  have hmem := mem_reverse.mp (mem_of_lookup hlookup)
  exact mem_filterMap.mp hmem

/-! ### Files of one report -/

/-- The classes that name a file, with their file names. -/
def namedClasses (report : CoberturaReport) : List (List Char × FileCoverage) :=
  report.filterMap fun classElem ↦
    if classElem.filename = [] then none else some (classElem.filename, parseClass classElem)

theorem parseCobertura_eq (report : CoberturaReport) : parseCobertura report =
    (namedClasses report).foldl (fun files entry ↦ Dict.setDefault files entry.1 entry.2) [] := by
  rw [parseCobertura, namedClasses, foldl_filterMap]
  congr 1
  funext files classElem
  rw [recordClass]
  split
  · rfl
  · rfl

theorem nodup_parseCobertura (report : CoberturaReport) :
    ((parseCobertura report).map Prod.fst).Nodup := by
  rw [parseCobertura_eq]
  exact nodup_foldl (fun _ _ hd ↦ nodup_setDefault hd) _ nodup_nil

theorem lookup_parseCobertura (report : CoberturaReport) (filename : List Char) :
    (parseCobertura report).lookup filename = (namedClasses report).lookup filename := by
  rw [parseCobertura_eq, lookup_foldl_setDefault, lookup_nil, Option.none_or]

theorem mem_namedClasses {entry : List Char × FileCoverage} : entry ∈ namedClasses report ↔
    ∃ classElem ∈ report, classElem.filename ≠ [] ∧
      entry = (classElem.filename, parseClass classElem) := by
  rw [namedClasses, mem_filterMap]
  constructor
  · intro ⟨classElem, hmem, h⟩
    split at h
    · cases h
    · next hne => exact ⟨classElem, hmem, hne, (Option.some.inj h).symm⟩
  · intro ⟨classElem, hmem, hne, h⟩
    exact ⟨classElem, hmem, by rw [if_neg hne, h]⟩

/-- The coverage of a file comes from a class of the report. -/
theorem class_of_mem_parseCobertura (h : (filename, coverage) ∈ parseCobertura report) :
    ∃ classElem ∈ report, classElem.filename ≠ [] ∧ classElem.filename = filename ∧
      parseClass classElem = coverage := by
  have hlookup := lookup_of_mem (nodup_parseCobertura report) h
  rw [lookup_parseCobertura] at hlookup
  obtain ⟨classElem, hmem, hne, heq⟩ := mem_namedClasses.mp (mem_of_lookup hlookup)
  have heq := Prod.mk.inj heq
  exact ⟨classElem, hmem, hne, heq.1.symm, heq.2.symm⟩

end Hisab.Coverage
