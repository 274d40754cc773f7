import Hisab.Coverage.CoverageFormats
import Mathlib.Data.List.Infix
import Mathlib.Data.List.SplitOn

/-!
# Coverage of several test programs

The two loops of `Tools/coverage/src/coverage_tool/msvc_coverage.py` over the Cobertura reports of
the test executables: `_generate_detailed_html_reports` collects the line sets that
`HtmlGenerator.generate_report` is given, and `_generate_json_summary` the files of the JSON
summary. The reports come in the order in which the directory listing yields them.
-/

namespace Hisab.Coverage

open Base

/-- What the loops ask of the machine: which paths exist, `str.lower`, and
`str(Path(source_root).parent / rel_path)`. -/
structure Environment where
  pathExists : List Char → Bool
  lower : List Char → List Char
  fullPath : List Char → List Char → List Char

/-- `_DRIVE_LETTERS` (`msvc_coverage.py:28`). -/
def driveLetters : List Char := "CDEFGHIJKLMNOPQRSTUVWXYZ".toList

def startsWithDriveLetter : List Char → Bool
  | letter :: ':' :: _ => letter ∈ driveLetters
  | _ => false

/-- `path.replace('/', '\\')`. -/
def backslashes (path : List Char) : List Char := path.map fun c ↦ if c = '/' then '\\' else c

/-- `norm_path` (`msvc_coverage.py:74–77`). -/
def normPath (filename : List Char) : List Char :=
  let path := backslashes filename
  if startsWithDriveLetter path then path else 'C' :: ':' :: '\\' :: path

/-- `rel_path`: the part of a path from the first `library` on (`msvc_coverage.py:99–102`). -/
def relPath (env : Environment) (path : List Char) : Option (List Char) :=
  match (path.splitOn '\\').dropWhile fun part ↦ env.lower part ≠ "library".toList with
  | [] => none
  | parts => some (['\\'].intercalate parts)

/-- The key under which the lines of a file are collected, if the file is found in the source
tree (`msvc_coverage.py:73–110`). -/
def htmlPath (env : Environment) (sourceRoot filename : List Char) : Option (List Char) :=
  let path := normPath filename
  if sourceRoot ≠ [] ∧ ¬ env.lower (backslashes sourceRoot) <:+: env.lower path then none
  else if env.pathExists path then some path
  else if sourceRoot = [] then none
  else match relPath env path with
    | none => none
    | some rel =>
      if env.pathExists (env.fullPath sourceRoot rel) then some (env.fullPath sourceRoot rel)
      else none

/-- The files of a report; one that is not well-formed XML is `none`, and is skipped. -/
def parsedFiles (xmlFile : Option CoberturaReport) : List (List Char × FileCoverage) :=
  match xmlFile with
  | none => []
  | some report => parseCobertura report

/-- The files of the reports in the order in which the loops come to them. -/
def reportedFiles (xmlFiles : List (Option CoberturaReport)) : List (List Char × FileCoverage) :=
  xmlFiles.flatMap parsedFiles

variable {env : Environment} {sourceRoot path filename : List Char}
  {xmlFiles : List (Option CoberturaReport)} {coverage : FileCoverage}

end Hisab.Coverage
