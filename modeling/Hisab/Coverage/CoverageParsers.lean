import Hisab.Base.Dict
import Hisab.Base.PythonText
import Mathlib

/-!
# LCOV and Cobertura parsers

`parse_lcov`, `parse_cobertura` and their consumers `build_summary_json` and `to_line_dicts`, from
`coverage_formats/lcov.py`, `cobertura.py` and `model.py`. The files are read as they are written:
an LCOV text character by character and a Cobertura report as the tree of its elements, with counts
that are Python integers and may be negative. `CoverageFormats` has the reports of the MSVC backend
alone, their classes listed and their counts natural. A `dict` is the list of its entries, a `set`
of line numbers a list of them, and the percentages, which are rounded doubles, are left out.
-/

namespace Hisab.Coverage.Parsers

open Base

/-- `FileCoverage` (`model.py:13–40`). -/
structure FileCoverage where
  executionCounts : List (Int × Int) := []
  functionTotal : Int := 0
  functionCovered : Int := 0
  deriving DecidableEq, Repr

namespace FileCoverage

variable (coverage : FileCoverage)

def coveredLines : List Int :=
  (coverage.executionCounts.filter fun entry ↦ 0 < entry.2).map Prod.fst

def uncoveredLines : List Int :=
  (coverage.executionCounts.filter fun entry ↦ entry.2 = 0).map Prod.fst

def lineTotal : Nat := coverage.executionCounts.length

def lineCovered : Nat := coverage.coveredLines.length

end FileCoverage

/-! ### LCOV -/

/-- What a line of an LCOV file says; any other line is skipped. -/
inductive LcovRecord where
  | sourceFile (name : List Char)
  | lineData (line hits : Int)
  | functionsFound (count : Int)
  | functionsHit (count : Int)
  | endOfRecord
  deriving DecidableEq, Repr

/-- `DA:` (`lcov.py:63–70`): further fields are ignored. -/
def lineData? (py : PythonText) (fields : List (List Char)) : Option LcovRecord :=
  match fields with
  | line :: hits :: _ =>
    match py.int line, py.int hits with
    | some line, some hits => some (.lineData line hits)
    | _, _ => none
  | _ => none

/-- A stripped line (`lcov.py:55–85`). -/
def record? (py : PythonText) : List Char → Option LcovRecord
  | 'S' :: 'F' :: ':' :: name => some (.sourceFile name)
  | 'D' :: 'A' :: ':' :: fields => lineData? py (fields.splitOn ',')
  | 'F' :: 'N' :: 'F' :: ':' :: count => (py.int count).map .functionsFound
  | 'F' :: 'N' :: 'H' :: ':' :: count => (py.int count).map .functionsHit
  | line => if line = "end_of_record".toList then some .endOfRecord else none

/-- `files`, and `current_file` with `current`, which is the entry of `files` under that name. -/
structure LcovState where
  files : List (List Char × FileCoverage) := []
  current : Option (List Char × FileCoverage) := none
  deriving DecidableEq, Repr

/-- Writes to `current`, which `files` shows as well. -/
def LcovState.update (state : LcovState) (change : FileCoverage → FileCoverage) : LcovState :=
  match state.current with
  | none => state
  | some (name, coverage) =>
    { files := Dict.set state.files name (change coverage), current := some (name, change coverage) }

/-- A line with several records keeps the largest count. -/
def recordHits (counts : List (Int × Int)) (line hits : Int) : List (Int × Int) :=
  Dict.set counts line (max ((counts.lookup line).getD 0) hits)

/-- The body of the loop over the lines (`lcov.py:54–85`). -/
def LcovState.read (state : LcovState) : LcovRecord → LcovState
  | .sourceFile name => { files := Dict.set state.files name {}, current := some (name, {}) }
  | .lineData line hits => state.update fun coverage ↦
    { coverage with executionCounts := recordHits coverage.executionCounts line hits }
  | .functionsFound count => state.update fun coverage ↦ { coverage with functionTotal := count }
  | .functionsHit count => state.update fun coverage ↦ { coverage with functionCovered := count }
  | .endOfRecord => { state with current := none }

/-- The records of a text, line by line. -/
def lcovRecords (py : PythonText) (text : List Char) : List LcovRecord :=
  (PythonText.lines (PythonText.universalNewlines text)).filterMap fun line ↦
    record? py (py.strip line)

/-- `parse_lcov` (`lcov.py:16–87`) of a file with the given text. -/
def parseLcov (py : PythonText) (text : List Char) : List (List Char × FileCoverage) :=
  ((lcovRecords py text).foldl LcovState.read {}).files

/-! ### Cobertura -/

/-- The line and the hits of a `<line>` element, if it is well formed (`cobertura.py:57–64`). -/
def lineRecord? (py : PythonText) (lineElem : XmlElement) : Option (Int × Int) :=
  match py.int (lineElem.get "number".toList ['0']), py.int (lineElem.get "hits".toList ['0']) with
  | some line, some hits => if line = 0 then none else some (line, hits)
  | _, _ => none

/-- The well-formed records of a `<class>` element. -/
def classRecords (py : PythonText) (classElem : XmlElement) : List (Int × Int) :=
  ((classElem.findall "lines".toList).flatMap (XmlElement.findall · "line".toList)).filterMap
    (lineRecord? py)

/-- The coverage that a `<class>` element gives (`cobertura.py:55–65`). -/
def classCoverage (py : PythonText) (classElem : XmlElement) : FileCoverage where
  executionCounts := (classRecords py classElem).foldl (fun counts record ↦
    Dict.set counts record.1 record.2) []

/-- The body of the loop over the classes (`cobertura.py:50–67`): a file that is there is kept. -/
def recordClass (py : PythonText) (files : List (List Char × FileCoverage))
    (classElem : XmlElement) : List (List Char × FileCoverage) :=
  let filename := classElem.get "filename".toList []
  if filename = [] then files else Dict.setDefault files filename (classCoverage py classElem)

/-- The `<class>` elements of a report, package by package. -/
def classElements (root : XmlElement) : List XmlElement :=
  (root.findallBelow "package".toList).flatMap fun package ↦
    (package.findall "classes".toList).flatMap (XmlElement.findall · "class".toList)

/-- `parse_cobertura` (`cobertura.py:18–69`); `none` is a file that does not exist. -/
def parseCobertura (py : PythonText) (xmlFile : Option XmlElement) :
    List (List Char × FileCoverage) :=
  match xmlFile with
  | none => []
  | some root => (classElements root).foldl (recordClass py) []

/-! ### Consumers -/

/-- What `_metric` returns, without the percentage. -/
structure Metric where
  total : Int
  covered : Int
  uncovered : Int
  deriving DecidableEq, Repr

/-- `_metric` (`model.py:43–53`). -/
def metric (total covered : Int) : Metric :=
  let covered := min covered total
  { total, covered, uncovered := total - covered }

/-- An entry of `summary["files"]`. -/
structure FileSummary where
  file : List Char
  lineCoverage : Metric
  functionCoverage : Metric
  deriving DecidableEq, Repr

/-- The structure that `build_summary_json` returns. -/
structure SummaryJson where
  formatVersion : String := "2.0"
  generator : String
  schema : String := "cobertura-compatible"
  lineCoverage : Metric := metric 0 0
  functionCoverage : Metric := metric 0 0
  regionCoverage : Metric := metric 0 0
  files : List FileSummary := []
  deriving DecidableEq, Repr

def fileSummary (entry : List Char × FileCoverage) : FileSummary where
  file := entry.1
  lineCoverage := metric entry.2.lineTotal entry.2.lineCovered
  functionCoverage := metric entry.2.functionTotal entry.2.functionCovered

/-- `build_summary_json` (`model.py:56–106`). -/
def buildSummaryJson (files : List (List Char × FileCoverage))
    (generator : String := "coverage_tool") : SummaryJson where
  generator
  lineCoverage := metric (files.map fun entry ↦ (entry.2.lineTotal : Int)).sum
    (files.map fun entry ↦ (entry.2.lineCovered : Int)).sum
  functionCoverage := metric (files.map fun entry ↦ entry.2.functionTotal).sum
    (files.map fun entry ↦ entry.2.functionCovered).sum
  files := files.map fileSummary

/-- What `to_line_dicts` returns. -/
structure LineDicts where
  coveredLines : List (List Char × List Int)
  uncoveredLines : List (List Char × List Int)
  executionCounts : List (List Char × List (Int × Int))
  deriving DecidableEq, Repr

/-- `to_line_dicts` (`model.py:109–126`). -/
def toLineDicts (files : List (List Char × FileCoverage)) : LineDicts where
  coveredLines := files.map fun entry ↦ (entry.1, entry.2.coveredLines)
  uncoveredLines := files.map fun entry ↦ (entry.1, entry.2.uncoveredLines)
  executionCounts := files.map fun entry ↦ (entry.1, entry.2.executionCounts)

/-! ### Counts of one file -/

variable {coverage : FileCoverage} {line : Int}

theorem mem_coveredLines :
    line ∈ coverage.coveredLines ↔ ∃ hits, (line, hits) ∈ coverage.executionCounts ∧ 0 < hits := by
  simp [FileCoverage.coveredLines]

theorem mem_uncoveredLines :
    line ∈ coverage.uncoveredLines ↔ (line, 0) ∈ coverage.executionCounts := by
  simp [FileCoverage.uncoveredLines]

/-- Covered and uncovered lines make up the total when no count is negative, and miss those with
a negative count otherwise. -/
theorem length_lines (coverage : FileCoverage) :
    coverage.coveredLines.length + coverage.uncoveredLines.length +
      (coverage.executionCounts.filter fun entry ↦ entry.2 < 0).length = coverage.lineTotal := by
  rw [FileCoverage.lineTotal, FileCoverage.coveredLines, FileCoverage.uncoveredLines,
    List.length_map, List.length_map]
  induction coverage.executionCounts with
  | nil => rfl
  | cons entry entries ih =>
    by_cases hpos : 0 < entry.2
    · have hzero : ¬ entry.2 = 0 := by omega
      have hneg : ¬ entry.2 < 0 := by omega
      simp only [List.filter_cons, hpos, hzero, hneg, decide_true, decide_false, if_true,
        Bool.false_eq_true, if_false, List.length_cons]
      omega
    · by_cases hzero : entry.2 = 0
      · simp only [List.filter_cons, hzero, Int.lt_irrefl, decide_true, decide_false, if_true,
          Bool.false_eq_true, if_false, List.length_cons]
        omega
      · have hneg : entry.2 < 0 := by omega
        simp only [List.filter_cons, hpos, hzero, hneg, decide_true, decide_false, if_true,
          Bool.false_eq_true, if_false, List.length_cons]
        omega

theorem metric_adds (total covered : Int) :
    (metric total covered).covered + (metric total covered).uncovered =
      (metric total covered).total := by
  change min covered total + (total - min covered total) = total
  omega

end Hisab.Coverage.Parsers
