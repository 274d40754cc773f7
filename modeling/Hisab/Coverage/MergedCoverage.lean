import Hisab.Coverage.MsvcCoverage
import Mathlib.Data.List.Perm.Subperm

/-!
# What several reports say of one file

A line of a file is instrumented if some report lists it and covered if some report has a hit of
it. The HTML loop keeps what the last report with lines of a file says, and the JSON loop what the
first one says: the two show the union of the reports when each of these reports alone has it.
-/

namespace Hisab.Coverage

open Base List Dict FileCoverage

variable (env : Environment) (sourceRoot : List Char) (xmlFiles : List (Option CoberturaReport))

/-- A report gives the hits of a line of the file with a key. -/
def Reports (path : List Char) (line hits : Nat) : Prop :=
  ∃ report, some report ∈ xmlFiles ∧ ∃ classElem ∈ report, classElem.filename ≠ [] ∧
    htmlPath env sourceRoot classElem.filename = some path ∧
      ∃ elem ∈ classElem.lines, elem.record? = some (line, hits)

/-- One coverage has every line that some report lists for the file, and a hit of every line that
some report has a hit of. -/
structure HasAll (path : List Char) (coverage : FileCoverage) : Prop where
  lines : ∀ line hits, Reports env sourceRoot xmlFiles path line hits →
    line ∈ coverage.executionCounts.map Prod.fst
  hits : ∀ line hits, Reports env sourceRoot xmlFiles path line hits → 0 < hits →
    line ∈ coverage.coveredLines

variable {path filename : List Char} {coverage : FileCoverage} {line hits : Nat}

/-! ### What the two loops show -/

variable {env sourceRoot xmlFiles}

/-- What a reported file has, some report says. -/
theorem reports_of_mem (hmem : (filename, coverage) ∈ reportedFiles xmlFiles)
    (hpath : htmlPath env sourceRoot filename = some path)
    (hline : (line, hits) ∈ coverage.executionCounts) :
    Reports env sourceRoot xmlFiles path line hits := by
  obtain ⟨xmlFile, hxml, hmem⟩ := mem_flatMap.mp hmem
  cases xmlFile with
  | none => cases hmem
  | some report =>
    obtain ⟨classElem, hclass, hne, rfl, rfl⟩ := class_of_mem_parseCobertura hmem
    exact ⟨report, hxml, classElem, hclass, hne, hpath, record_of_mem_parseClass hline⟩

theorem nodup_executionCounts (hmem : (filename, coverage) ∈ reportedFiles xmlFiles) :
    (coverage.executionCounts.map Prod.fst).Nodup := by
  obtain ⟨xmlFile, _, hmem⟩ := mem_flatMap.mp hmem
  cases xmlFile with
  | none => cases hmem
  | some report =>
    obtain ⟨classElem, _, _, _, rfl⟩ := class_of_mem_parseCobertura hmem
    exact nodup_parseClass classElem

theorem nodup_coveredLines (h : (coverage.executionCounts.map Prod.fst).Nodup) :
    coverage.coveredLines.Nodup :=
  h.sublist (filter_sublist.map Prod.fst)

/-- Two coverages of a file that have everything count the same lines. -/
theorem HasAll.length_le {full : FileCoverage} (hfull : HasAll env sourceRoot xmlFiles path full)
    (hmem : (filename, coverage) ∈ reportedFiles xmlFiles)
    (hpath : htmlPath env sourceRoot filename = some path) :
    coverage.lineCovered ≤ full.lineCovered ∧ coverage.lineTotal ≤ full.lineTotal := by
  have hnodup := nodup_executionCounts hmem
  constructor
  · apply (subperm_of_subset (nodup_coveredLines hnodup) _).length_le
    intro line hline
    obtain ⟨hits, hline, hpos⟩ := mem_coveredLines.mp hline
    exact hfull.hits line hits (reports_of_mem hmem hpath hline) hpos
  · have hsub : coverage.executionCounts.map Prod.fst ⊆ full.executionCounts.map Prod.fst := by
      intro line hline
      obtain ⟨entry, hentry, rfl⟩ := mem_map.mp hline
      exact hfull.lines _ _ (reports_of_mem hmem hpath hentry)
    have hle := (subperm_of_subset hnodup hsub).length_le
    rw [length_map, length_map] at hle
    exact hle

/-! ### The condition -/

end Hisab.Coverage
