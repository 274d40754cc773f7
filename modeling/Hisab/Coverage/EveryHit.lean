import Hisab.Coverage.CoverageParsers
import Mathlib.Data.List.Induction

/-!
# Lines that anything hit

A file may stand in several sections of an LCOV text and in several classes of a Cobertura report.
Its lines should be those of all its records, covered when one of these has a hit. `parse_lcov`
starts anew with each section, so that the last one alone is counted, and `parse_cobertura` skips a
file that it has seen and keeps the last record of a line: both count every hit when the section or
the class that is counted has all the lines and hits of the others.
-/

namespace Hisab.Coverage.Parsers

open Base List Dict Option LineDicts

/-! ### Records of a file -/

/-- The sections of an LCOV text while it is read, each a file name with its records. -/
structure Sections where
  closed : List (List Char × List (Int × Int)) := []
  current : Option (List Char × List (Int × Int)) := none
  deriving DecidableEq, Repr

namespace Sections

def all (sections : Sections) : List (List Char × List (Int × Int)) :=
  sections.closed ++ sections.current.toList

/-- A record belongs to the section that is open, and to no file when none is. -/
def read (sections : Sections) : LcovRecord → Sections
  | .sourceFile name => { closed := sections.all, current := some (name, []) }
  | .lineData line hits =>
    match sections.current with
    | none => sections
    | some (name, records) => { sections with current := some (name, records ++ [(line, hits)]) }
  | .endOfRecord => { closed := sections.all }
  | _ => sections

end Sections

/-- The sections of an LCOV text with their well-formed records. -/
def lcovSections (py : PythonText) (text : List Char) : List (List Char × List (Int × Int)) :=
  ((lcovRecords py text).foldl Sections.read {}).all

/-- The classes of a Cobertura report that name a file, with their well-formed records. -/
def coberturaClasses (py : PythonText) (xmlFile : Option XmlElement) :
    List (List Char × List (Int × Int)) :=
  match xmlFile with
  | none => []
  | some root => (classElements root).filterMap fun classElem ↦
    let filename := classElem.get "filename".toList []
    if filename = [] then none else some (filename, classRecords py classElem)

/-- The records of a file over all its sections or classes. -/
def recordsOf (entries : List (List Char × List (Int × Int))) (name : List Char) :
    List (Int × Int) :=
  (entries.filter fun entry ↦ entry.1 = name).flatMap Prod.snd

/-! ### The law -/

namespace LineDicts

variable (dicts : LineDicts) (name : List Char)

def covered : List Int := (dicts.coveredLines.lookup name).getD []

def uncovered : List Int := (dicts.uncoveredLines.lookup name).getD []

def counts : List (Int × Int) := (dicts.executionCounts.lookup name).getD []

/-- The covered and the uncovered lines of every file partition its instrumented lines. -/
structure Partition : Prop where
  disjoint : ∀ name, ∀ line ∈ dicts.covered name, line ∉ dicts.uncovered name
  lines : ∀ name line, line ∈ (dicts.counts name).map Prod.fst ↔
    line ∈ dicts.covered name ∨ line ∈ dicts.uncovered name
  lengths : ∀ name, (dicts.covered name).length + (dicts.uncovered name).length =
    (dicts.counts name).length

end LineDicts

/-- Covered and uncovered lines make up the total. -/
def Metric.Adds (metric : Metric) : Prop := metric.covered + metric.uncovered = metric.total

/-- Parsed files show their entries: a line is instrumented when a record names it and covered when
a record of it has a positive count, and the consumers partition the lines. -/
structure CountsEveryHit (files : List (List Char × FileCoverage))
    (entries : List (List Char × List (Int × Int))) : Prop where
  names : ∀ name, name ∈ files.map Prod.fst ↔ name ∈ entries.map Prod.fst
  lines : ∀ name coverage, files.lookup name = some coverage →
    ∀ line, line ∈ coverage.executionCounts.map Prod.fst ↔
      ∃ hits, (line, hits) ∈ recordsOf entries name
  covered : ∀ name coverage, files.lookup name = some coverage →
    ∀ line, line ∈ coverage.coveredLines ↔ ∃ hits, (line, hits) ∈ recordsOf entries name ∧ 0 < hits
  partition : (toLineDicts files).Partition
  summary : ∀ generator, (buildSummaryJson files generator).lineCoverage.Adds ∧
    ∀ file ∈ (buildSummaryJson files generator).files, file.lineCoverage.Adds ∧
      file.lineCoverage.uncovered = ((toLineDicts files).uncovered file.file).length

/-- The last section of a file mentions every line that a section of it mentions, and has a hit of
every line that one has a hit of. -/
def LastSectionHasAll (sections : List (List Char × List (Int × Int))) : Prop :=
  ∀ name records, sections.reverse.lookup name = some records →
    ∀ line hits, (line, hits) ∈ recordsOf sections name →
      ∃ hits', (line, hits') ∈ records ∧ (0 < hits → 0 < hits')

/-- The first class of a file mentions every line that a class of it mentions, and its last record
of the line is not negative, and is positive if some class has a hit of the line. -/
def FirstClassHasAll (classes : List (List Char × List (Int × Int))) : Prop :=
  ∀ name records, classes.lookup name = some records →
    ∀ line hits, (line, hits) ∈ recordsOf classes name →
      ∃ last, records.reverse.lookup line = some last ∧ 0 ≤ last ∧ (0 < hits → 0 < last)

/-! ### Counts of a file -/

variable {files : List (List Char × FileCoverage)} {entries : List (List Char × List (Int × Int))}
  {name : List Char} {coverage : FileCoverage} {line hits : Int}

theorem covered_toLineDicts (h : files.lookup name = some coverage) :
    (toLineDicts files).covered name = coverage.coveredLines := by
  rw [LineDicts.covered, toLineDicts, lookup_map, h]
  rfl

theorem uncovered_toLineDicts (h : files.lookup name = some coverage) :
    (toLineDicts files).uncovered name = coverage.uncoveredLines := by
  rw [uncovered, toLineDicts, lookup_map, h]
  rfl

theorem counts_toLineDicts (h : files.lookup name = some coverage) :
    (toLineDicts files).counts name = coverage.executionCounts := by
  rw [counts, toLineDicts, lookup_map, h]
  rfl

/-- The lines of a file that is not there. -/
theorem toLineDicts_of_none (h : files.lookup name = none) :
    (toLineDicts files).covered name = [] ∧ (toLineDicts files).uncovered name = [] ∧
      (toLineDicts files).counts name = [] := by
  simp [LineDicts.covered, uncovered, counts, toLineDicts, lookup_map, h]

theorem mem_keys_of_lookup {counts : List (Int × Int)} (h : counts.lookup line = some hits) :
    line ∈ counts.map Prod.fst :=
  mem_map.mpr ⟨_, mem_of_lookup h, rfl⟩

/-- A count never shows more than some record of its line. -/
def Sound (counts records : List (Int × Int)) : Prop :=
  ∀ line count, counts.lookup line = some count →
    ∃ hits, (line, hits) ∈ records ∧ (0 < count → 0 < hits)

/-- Every record shows: its line is counted, and as a hit if the record is one. -/
def Complete (counts records : List (Int × Int)) : Prop :=
  ∀ line hits, (line, hits) ∈ records →
    ∃ count, counts.lookup line = some count ∧ 0 ≤ count ∧ (0 < hits → 0 < count)

section Counts

variable {records : List (Int × Int)} (hnodup : (coverage.executionCounts.map Prod.fst).Nodup)

include hnodup

theorem covered_not_uncovered (hcov : line ∈ coverage.coveredLines) :
    line ∉ coverage.uncoveredLines := by
  intro huncov
  rw [mem_coveredLines] at hcov
  rw [mem_uncoveredLines] at huncov
  obtain ⟨count, hmem, hpos⟩ := hcov
  have heq : some count = some 0 := by rw [← lookup_of_mem hnodup hmem, lookup_of_mem hnodup huncov]
  have heq := some.inj heq
  omega

variable (hsound : Sound coverage.executionCounts records)

include hsound

/-- When every record shows, no count is negative. -/
theorem count_nonneg (hcomplete : Complete coverage.executionCounts records)
    (hmem : (line, hits) ∈ coverage.executionCounts) : 0 ≤ hits := by
  have hlook := lookup_of_mem hnodup hmem
  obtain ⟨hits', hrecord, -⟩ := hsound line hits hlook
  obtain ⟨count, hcount, hnonneg, -⟩ := hcomplete line hits' hrecord
  have heq := some.inj (hlook.symm.trans hcount)
  omega

theorem mem_counts_iff (hcomplete : Complete coverage.executionCounts records) :
    line ∈ coverage.executionCounts.map Prod.fst ↔ ∃ hits, (line, hits) ∈ records := by
  constructor
  · intro h
    obtain ⟨⟨line', count⟩, hmem, hline⟩ := mem_map.mp h
    subst hline
    obtain ⟨hits, hrecord, -⟩ := hsound _ count (lookup_of_mem hnodup hmem)
    exact ⟨hits, hrecord⟩
  · intro ⟨hits, hrecord⟩
    obtain ⟨count, hcount, -⟩ := hcomplete line hits hrecord
    exact mem_keys_of_lookup hcount

theorem mem_coveredLines_iff (hcomplete : Complete coverage.executionCounts records) :
    line ∈ coverage.coveredLines ↔ ∃ hits, (line, hits) ∈ records ∧ 0 < hits := by
  rw [mem_coveredLines]
  constructor
  · intro ⟨count, hmem, hpos⟩
    obtain ⟨hits, hrecord, h⟩ := hsound line count (lookup_of_mem hnodup hmem)
    exact ⟨hits, hrecord, h hpos⟩
  · intro ⟨hits, hrecord, hpos⟩
    obtain ⟨count, hcount, -, h⟩ := hcomplete line hits hrecord
    exact ⟨count, mem_of_lookup hcount, h hpos⟩

/-- A line that is counted is covered or not. -/
theorem mem_lines_iff (hcomplete : Complete coverage.executionCounts records) :
    line ∈ coverage.executionCounts.map Prod.fst ↔
      line ∈ coverage.coveredLines ∨ line ∈ coverage.uncoveredLines := by
  rw [mem_coveredLines, mem_uncoveredLines]
  constructor
  · intro h
    obtain ⟨⟨line', count⟩, hmem, hline⟩ := mem_map.mp h
    subst hline
    have hnonneg := count_nonneg hnodup hsound hcomplete hmem
    by_cases hpos : 0 < count
    · exact .inl ⟨count, hmem, hpos⟩
    · have hzero : count = 0 := by omega
      subst hzero
      exact .inr hmem
  · intro h
    cases h with
    | inl h =>
      obtain ⟨count, hmem, -⟩ := h
      exact mem_map.mpr ⟨_, hmem, rfl⟩
    | inr h => exact mem_map.mpr ⟨_, h, rfl⟩

theorem length_lines_of_complete (hcomplete : Complete coverage.executionCounts records) :
    coverage.coveredLines.length + coverage.uncoveredLines.length = coverage.lineTotal := by
  have hneg : (coverage.executionCounts.filter fun entry ↦ entry.2 < 0) = [] := by
    rw [filter_eq_nil_iff]
    intro entry hmem
    have hnonneg := count_nonneg hnodup hsound hcomplete hmem
    simpa using hnonneg
  have hlen := length_lines coverage
  rw [hneg] at hlen
  exact hlen

end Counts

/-! ### Parsed files -/

section Parsed

variable (hfiles : (files.map Prod.fst).Nodup)
  (hnodup : ∀ name coverage, files.lookup name = some coverage →
    (coverage.executionCounts.map Prod.fst).Nodup)
  (hsound : ∀ name coverage, files.lookup name = some coverage →
    Sound coverage.executionCounts (recordsOf entries name))

include hnodup

/-- A law that holds shows every record. -/
theorem CountsEveryHit.complete (h : CountsEveryHit files entries)
    (hlook : files.lookup name = some coverage) :
    Complete coverage.executionCounts (recordsOf entries name) := by
  intro line hits hrecord
  have hkey := (h.lines name coverage hlook line).mpr ⟨hits, hrecord⟩
  rw [← counts_toLineDicts hlook, h.partition.lines, covered_toLineDicts hlook,
    uncovered_toLineDicts hlook] at hkey
  have hcov : 0 < hits → line ∈ coverage.coveredLines :=
    fun hpos ↦ (h.covered name coverage hlook line).mpr ⟨hits, hrecord, hpos⟩
  cases hkey with
  | inl hkey =>
    obtain ⟨count, hmem, hpos⟩ := mem_coveredLines.mp hkey
    exact ⟨count, lookup_of_mem (hnodup name coverage hlook) hmem, by omega, fun _ ↦ hpos⟩
  | inr hkey =>
    have hmem := mem_uncoveredLines.mp hkey
    refine ⟨0, lookup_of_mem (hnodup name coverage hlook) hmem, Int.le_refl 0, ?_⟩
    intro hpos
    exact absurd hkey (covered_not_uncovered (hnodup name coverage hlook) (hcov hpos))

include hsound

theorem partition_toLineDicts (hcomplete : ∀ name coverage, files.lookup name = some coverage →
      Complete coverage.executionCounts (recordsOf entries name)) :
    (toLineDicts files).Partition := by
  constructor
  · intro name line hcov
    cases hlook : files.lookup name with
    | none =>
      rw [(toLineDicts_of_none hlook).1] at hcov
      cases hcov
    | some coverage =>
      rw [covered_toLineDicts hlook] at hcov
      rw [uncovered_toLineDicts hlook]
      exact covered_not_uncovered (hnodup name coverage hlook) hcov
  · intro name line
    cases hlook : files.lookup name with
    | none =>
      obtain ⟨hcov, huncov, hcounts⟩ := toLineDicts_of_none hlook
      simp [hcov, huncov, hcounts]
    | some coverage =>
      rw [counts_toLineDicts hlook, covered_toLineDicts hlook, uncovered_toLineDicts hlook]
      exact mem_lines_iff (hnodup name coverage hlook) (hsound name coverage hlook)
        (hcomplete name coverage hlook)
  · intro name
    cases hlook : files.lookup name with
    | none =>
      obtain ⟨hcov, huncov, hcounts⟩ := toLineDicts_of_none hlook
      simp [hcov, huncov, hcounts]
    | some coverage =>
      rw [counts_toLineDicts hlook, covered_toLineDicts hlook, uncovered_toLineDicts hlook]
      exact length_lines_of_complete (hnodup name coverage hlook) (hsound name coverage hlook)
        (hcomplete name coverage hlook)

include hfiles

/-- The law holds when every record shows. -/
theorem countsEveryHit_iff (hnames : ∀ name, name ∈ files.map Prod.fst ↔ name ∈ entries.map Prod.fst) :
    CountsEveryHit files entries ↔ ∀ name coverage, files.lookup name = some coverage →
      Complete coverage.executionCounts (recordsOf entries name) := by
  constructor
  · intro h name coverage hlook
    exact h.complete hnodup hlook
  · intro hcomplete
    constructor
    · exact hnames
    · intro name coverage hlook line
      exact mem_counts_iff (hnodup name coverage hlook) (hsound name coverage hlook)
        (hcomplete name coverage hlook)
    · intro name coverage hlook line
      exact mem_coveredLines_iff (hnodup name coverage hlook) (hsound name coverage hlook)
        (hcomplete name coverage hlook)
    · exact partition_toLineDicts hnodup hsound hcomplete
    · intro generator
      constructor
      · exact metric_adds _ _
      · intro file hfile
        obtain ⟨⟨name, coverage⟩, hmem, heq⟩ := mem_map.mp hfile
        subst heq
        have hlook := lookup_of_mem hfiles hmem
        constructor
        · exact metric_adds _ _
        · have hlen := length_lines_of_complete (hnodup name coverage hlook)
            (hsound name coverage hlook) (hcomplete name coverage hlook)
          rw [fileSummary, uncovered_toLineDicts hlook]
          change (coverage.lineTotal : Int) - min (coverage.coveredLines.length : Int)
            coverage.lineTotal = coverage.uncoveredLines.length
          omega

end Parsed

/-! ### LCOV -/

/-- The counts that the records of one section leave. -/
def hitCounts (records : List (Int × Int)) : List (Int × Int) :=
  records.foldl (fun counts record ↦ recordHits counts record.1 record.2) []

section HitCounts

variable (records : List (Int × Int)) (record : Int × Int)

theorem hitCounts_snoc :
    hitCounts (records ++ [record]) = recordHits (hitCounts records) record.1 record.2 := by
  rw [hitCounts, foldl_append]
  rfl

theorem lookup_recordHits (counts : List (Int × Int)) (line hits line' : Int) :
    (recordHits counts line hits).lookup line' =
      if line = line' then some (max ((counts.lookup line).getD 0) hits)
      else counts.lookup line' := by
  rw [recordHits, lookup_set]
  simp

theorem nodup_hitCounts : ((hitCounts records).map Prod.fst).Nodup :=
  nodup_foldl (fun _ _ hd ↦ nodup_set hd) _ nodup_nil

theorem sound_hitCounts : Sound (hitCounts records) records := by
  induction records using reverseRecOn with
  | nil =>
    intro line count h
    cases h
  | append_singleton records record ih =>
    intro line count h
    rw [hitCounts_snoc, lookup_recordHits] at h
    by_cases hline : record.1 = line
    · rw [if_pos hline] at h
      have h := some.inj h
      by_cases hpos : 0 < record.2
      · exact ⟨record.2, by simp [← hline], fun _ ↦ hpos⟩
      · by_cases hcount : 0 < count
        · -- the count is that of an earlier record
          cases hold : (hitCounts records).lookup record.1 with
          | none =>
            rw [hold, getD_none] at h
            omega
          | some old =>
            rw [hold, getD_some] at h
            rw [hline] at hold
            obtain ⟨hits, hmem, hhits⟩ := ih line old hold
            exact ⟨hits, mem_append_left _ hmem, fun _ ↦ hhits (by omega)⟩
        · exact ⟨record.2, by simp [← hline], fun hc ↦ absurd hc hcount⟩
    · rw [if_neg hline] at h
      obtain ⟨hits, hmem, hhits⟩ := ih line count h
      exact ⟨hits, mem_append_left _ hmem, hhits⟩

theorem nonneg_hitCounts {line count : Int} (h : (hitCounts records).lookup line = some count) :
    0 ≤ count := by
  induction records using reverseRecOn generalizing line count with
  | nil => cases h
  | append_singleton records record ih =>
    rw [hitCounts_snoc, lookup_recordHits] at h
    by_cases hline : record.1 = line
    · rw [if_pos hline] at h
      have h := some.inj h
      cases hold : (hitCounts records).lookup record.1 with
      | none =>
        rw [hold, getD_none] at h
        omega
      | some old =>
        rw [hold, getD_some] at h
        have hnonneg := ih hold
        omega
    · rw [if_neg hline] at h
      exact ih h

theorem complete_hitCounts : Complete (hitCounts records) records := by
  induction records using reverseRecOn with
  | nil =>
    intro line hits h
    cases h
  | append_singleton records record ih =>
    intro line hits hmem
    have hnonneg (count : Int) : (hitCounts (records ++ [record])).lookup line = some count →
        0 ≤ count := nonneg_hitCounts _
    rw [hitCounts_snoc, lookup_recordHits] at hnonneg ⊢
    by_cases hline : record.1 = line
    · rw [if_pos hline] at hnonneg ⊢
      refine ⟨_, rfl, hnonneg _ rfl, ?_⟩
      cases mem_append.mp hmem with
      | inl hmem =>
        obtain ⟨count, hcount, -, h⟩ := ih line hits hmem
        rw [hline, hcount, getD_some]
        omega
      | inr hmem =>
        have heq := mem_singleton.mp hmem
        rw [← heq]
        omega
    · rw [if_neg hline] at hnonneg ⊢
      cases mem_append.mp hmem with
      | inl hmem => exact ih line hits hmem
      | inr hmem =>
        have heq := mem_singleton.mp hmem
        exact absurd (by rw [← heq]) hline

end HitCounts

/-- A parser state shows the sections read so far: those of one name, the last one alone. -/
structure Shows (state : LcovState) (sections : Sections) : Prop where
  files : state.files.map (fun entry ↦ (entry.1, entry.2.executionCounts)) =
    (sections.all.map fun entry ↦ (entry.1, hitCounts entry.2)).foldl
      (fun files entry ↦ Dict.set files entry.1 entry.2) []
  current : state.current.map (fun entry ↦ (entry.1, entry.2.executionCounts)) =
    sections.current.map fun entry ↦ (entry.1, hitCounts entry.2)

section Shows

variable {state : LcovState} {sections : Sections}

theorem Shows.update_of_none (h : Shows state sections) (hnone : sections.current = none)
    (change : FileCoverage → FileCoverage) : state.update change = state := by
  have hcurrent := h.current
  rw [hnone, map_none, map_eq_none_iff] at hcurrent
  rw [LcovState.update, hcurrent]

/-- A write to the open section replaces its counts. -/
theorem Shows.update (h : Shows state sections) {records records' : List (Int × Int)}
    (hsome : sections.current = some (name, records)) (change : FileCoverage → FileCoverage)
    (hchange : ∀ coverage, coverage.executionCounts = hitCounts records →
      (change coverage).executionCounts = hitCounts records') :
    Shows (state.update change) { sections with current := some (name, records') } := by
  have hcurrent := h.current
  rw [hsome, map_some, map_eq_some_iff] at hcurrent
  obtain ⟨⟨name', coverage⟩, hstate, heq⟩ := hcurrent
  obtain ⟨hname, hcounts⟩ := Prod.mk.inj heq
  subst hname
  have hcounts := hchange coverage hcounts
  rw [LcovState.update, hstate]
  constructor
  · have hfiles := h.files
    rw [Sections.all, hsome] at hfiles
    rw [Dict.map_set, hfiles, hcounts, Sections.all]
    simp only [toList_some, map_append, map_cons, map_nil,
      foldl_append, foldl_cons, foldl_nil, Dict.set_set]
  · change some (name', (change coverage).executionCounts) = some (name', hitCounts records')
    rw [hcounts]

/-- Closing a section changes nothing that is shown. -/
theorem Shows.files_all (h : Shows state sections) :
    state.files.map (fun entry ↦ (entry.1, entry.2.executionCounts)) =
      ((({ closed := sections.all } : Sections).all).map fun entry ↦ (entry.1, hitCounts entry.2)).foldl
        (fun files entry ↦ Dict.set files entry.1 entry.2) [] := by
  rw [h.files, Sections.all, Sections.all, toList_none, append_nil]

theorem Shows.read (h : Shows state sections) (record : LcovRecord) :
    Shows (state.read record) (sections.read record) := by
  cases record with
  | sourceFile name =>
    constructor
    · change (set state.files name {}).map _ = ((sections.all ++ [(name, [])]).map _).foldl _ []
      rw [Dict.map_set, h.files, map_append, foldl_append]
      rfl
    · rfl
  | lineData line hits =>
    cases hcurrent : sections.current with
    | none =>
      rw [LcovState.read, h.update_of_none hcurrent, Sections.read, hcurrent]
      exact h
    | some opened =>
      rw [Sections.read, hcurrent]
      apply h.update hcurrent
      intro coverage hcounts
      rw [hitCounts_snoc, ← hcounts]
  | functionsFound count =>
    cases hcurrent : sections.current with
    | none =>
      rw [LcovState.read, h.update_of_none hcurrent]
      exact h
    | some opened =>
      have hshows := h.update hcurrent (fun coverage ↦ { coverage with functionTotal := count })
        (fun _ hcounts ↦ hcounts)
      rw [← hcurrent] at hshows
      exact hshows
  | functionsHit count =>
    cases hcurrent : sections.current with
    | none =>
      rw [LcovState.read, h.update_of_none hcurrent]
      exact h
    | some opened =>
      have hshows := h.update hcurrent (fun coverage ↦ { coverage with functionCovered := count })
        (fun _ hcounts ↦ hcounts)
      rw [← hcurrent] at hshows
      exact hshows
  | endOfRecord =>
    constructor
    · exact h.files_all
    · rfl

theorem nodup_update (h : (state.files.map Prod.fst).Nodup) (change : FileCoverage → FileCoverage) :
    ((state.update change).files.map Prod.fst).Nodup := by
  rw [LcovState.update]
  cases state.current with
  | none => exact h
  | some current => exact nodup_set h

theorem nodup_read (h : (state.files.map Prod.fst).Nodup) (record : LcovRecord) :
    ((state.read record).files.map Prod.fst).Nodup := by
  cases record with
  | sourceFile name => exact nodup_set h
  | lineData line hits | functionsFound count | functionsHit count => exact nodup_update h _
  | endOfRecord => exact h

theorem Shows.run (h : Shows state sections) (records : List LcovRecord) :
    Shows (records.foldl LcovState.read state) (records.foldl Sections.read sections) := by
  induction records generalizing state sections with
  | nil => exact h
  | cons record records ih => exact ih (h.read record)

end Shows

variable (py : PythonText) (text : List Char)

/-- What is parsed for a file are the counts of its last section. -/
theorem lookup_parseLcov (name : List Char) :
    ((parseLcov py text).lookup name).map FileCoverage.executionCounts =
      ((lcovSections py text).reverse.lookup name).map hitCounts := by
  have hshows : Shows {} {} := by
    constructor
    · rfl
    · rfl
  have hfiles := (hshows.run (lcovRecords py text)).files
  rw [← lookup_map, ← lookup_map, map_reverse, parseLcov, hfiles,
    lookup_foldl_set, lookup_nil, or_none]
  rfl

/-! ### Entries of a file -/

theorem mem_recordsOf {record : Int × Int} :
    record ∈ recordsOf entries name ↔ ∃ records, (name, records) ∈ entries ∧ record ∈ records := by
  rw [recordsOf, mem_flatMap]
  constructor
  · intro ⟨⟨name', records⟩, hmem, hrecord⟩
    obtain ⟨hin, hname⟩ := mem_filter.mp hmem
    have hname : name' = name := of_decide_eq_true hname
    subst hname
    exact ⟨records, hin, hrecord⟩
  · intro ⟨records, hmem, hrecord⟩
    exact ⟨(name, records), mem_filter.mpr ⟨hmem, decide_eq_true rfl⟩, hrecord⟩

/-- What is sound for one entry is sound for all records of the file. -/
theorem Sound.of_mem {counts records : List (Int × Int)} (h : Sound counts records)
    (hmem : (name, records) ∈ entries) : Sound counts (recordsOf entries name) := by
  intro line count hlook
  obtain ⟨hits, hrecord, hhits⟩ := h line count hlook
  exact ⟨hits, mem_recordsOf.mpr ⟨records, hmem, hrecord⟩, hhits⟩

/-! ### Files of an LCOV text -/

theorem nodup_parseLcov : ((parseLcov py text).map Prod.fst).Nodup := by
  have hstep : ∀ (records : List LcovRecord) (state : LcovState), (state.files.map Prod.fst).Nodup →
        ((records.foldl LcovState.read state).files.map Prod.fst).Nodup := by
    intro records
    induction records with
    | nil => exact fun _ h ↦ h
    | cons record records ih =>
      intro state h
      exact ih _ (nodup_read h record)
  exact hstep _ {} nodup_nil

/-- A file is parsed when a section names it, and shows the counts of the last one. -/
theorem section_of_lookup (h : (parseLcov py text).lookup name = some coverage) :
    ∃ records, (lcovSections py text).reverse.lookup name = some records ∧
      (name, records) ∈ lcovSections py text ∧ coverage.executionCounts = hitCounts records := by
  have hlook := lookup_parseLcov py text name
  rw [h] at hlook
  obtain ⟨records, hrecords, hcounts⟩ := map_eq_some_iff.mp hlook.symm
  exact ⟨records, hrecords, mem_reverse.mp (mem_of_lookup hrecords), hcounts.symm⟩

theorem names_parseLcov :
    name ∈ (parseLcov py text).map Prod.fst ↔ name ∈ (lcovSections py text).map Prod.fst := by
  rw [mem_keys_iff, ← mem_reverse, ← map_reverse, mem_keys_iff]
  have hlook := congrArg isSome (lookup_parseLcov py text name)
  rw [isSome_map, isSome_map] at hlook
  rw [hlook]

/-- Every record of a text shows exactly when the last section of each file has all of them. -/
theorem countsEveryHit_parseLcov : CountsEveryHit (parseLcov py text) (lcovSections py text) ↔
    LastSectionHasAll (lcovSections py text) := by
  rw [countsEveryHit_iff (nodup_parseLcov py text)]
  · constructor
    · intro h name records hrecords line hits hmem
      have hlook := lookup_parseLcov py text name
      rw [hrecords] at hlook
      obtain ⟨coverage, hcoverage, hcounts⟩ := map_eq_some_iff.mp hlook
      obtain ⟨count, hcount, -, hpos⟩ := h name coverage hcoverage line hits hmem
      rw [hcounts] at hcount
      obtain ⟨hits', hrecord, hhits⟩ := sound_hitCounts records line count hcount
      exact ⟨hits', hrecord, fun h ↦ hhits (hpos h)⟩
    · intro h name coverage hlook line hits hmem
      obtain ⟨records, hrecords, -, hcounts⟩ := section_of_lookup py text hlook
      obtain ⟨hits', hrecord, hhits⟩ := h name records hrecords line hits hmem
      obtain ⟨count, hcount, hnonneg, hpos⟩ := complete_hitCounts records line hits' hrecord
      rw [hcounts]
      exact ⟨count, hcount, hnonneg, fun h ↦ hpos (hhits h)⟩
  · intro name coverage hlook
    obtain ⟨records, -, -, hcounts⟩ := section_of_lookup py text hlook
    rw [hcounts]
    exact nodup_hitCounts records
  · intro name coverage hlook
    obtain ⟨records, -, hmem, hcounts⟩ := section_of_lookup py text hlook
    rw [hcounts]
    exact (sound_hitCounts records).of_mem hmem
  · exact fun name ↦ names_parseLcov py text

/-! ### Files of a Cobertura report -/

variable (xmlFile : Option XmlElement)

/-- The counts that the records of one class leave. -/
def lastCounts (records : List (Int × Int)) : List (Int × Int) :=
  records.foldl (fun counts record ↦ Dict.set counts record.1 record.2) []

theorem lookup_lastCounts (records : List (Int × Int)) (line : Int) :
    (lastCounts records).lookup line = records.reverse.lookup line := by
  rw [lastCounts, lookup_foldl_set, lookup_nil, or_none]

theorem sound_lastCounts (records : List (Int × Int)) : Sound (lastCounts records) records := by
  intro line count h
  rw [lookup_lastCounts] at h
  exact ⟨count, mem_reverse.mp (mem_of_lookup h), fun h ↦ h⟩

theorem parseCobertura_eq : parseCobertura py xmlFile =
    ((coberturaClasses py xmlFile).map fun entry ↦
      (entry.1, ({ executionCounts := lastCounts entry.2 } : FileCoverage))).foldl
        (fun files entry ↦ Dict.setDefault files entry.1 entry.2) [] := by
  cases xmlFile with
  | none => rfl
  | some root =>
    rw [parseCobertura, coberturaClasses, foldl_map, foldl_filterMap]
    congr 1
    funext files classElem
    by_cases h : classElem.get "filename".toList [] = []
    · simp only [recordClass, h, if_true]
    · simp only [recordClass, h]
      rfl

theorem nodup_parseCobertura : ((parseCobertura py xmlFile).map Prod.fst).Nodup := by
  rw [parseCobertura_eq]
  exact nodup_foldl (fun _ _ hd ↦ nodup_setDefault hd) _ nodup_nil

/-- What is parsed for a file are the counts of its first class. -/
theorem lookup_parseCobertura (name : List Char) : (parseCobertura py xmlFile).lookup name =
    ((coberturaClasses py xmlFile).lookup name).map fun records ↦
      { executionCounts := lastCounts records } := by
  rw [parseCobertura_eq, lookup_foldl_setDefault]
  exact lookup_map (fun records ↦ ({ executionCounts := lastCounts records } : FileCoverage))
    _ name

theorem class_of_lookup (h : (parseCobertura py xmlFile).lookup name = some coverage) :
    ∃ records, (coberturaClasses py xmlFile).lookup name = some records ∧
      coverage.executionCounts = lastCounts records := by
  rw [lookup_parseCobertura] at h
  obtain ⟨records, hrecords, hcoverage⟩ := map_eq_some_iff.mp h
  exact ⟨records, hrecords, by rw [← hcoverage]⟩

/-- Every record of a report shows exactly when the first class of each file has all of them. -/
theorem countsEveryHit_parseCobertura :
    CountsEveryHit (parseCobertura py xmlFile) (coberturaClasses py xmlFile) ↔
      FirstClassHasAll (coberturaClasses py xmlFile) := by
  rw [countsEveryHit_iff (nodup_parseCobertura py xmlFile)]
  · constructor
    · intro h name records hrecords line hits hmem
      have hlook := lookup_parseCobertura py xmlFile name
      rw [hrecords] at hlook
      rw [← lookup_lastCounts]
      exact h name _ hlook line hits hmem
    · intro h name coverage hlook line hits hmem
      obtain ⟨records, hrecords, hcounts⟩ := class_of_lookup py xmlFile hlook
      rw [hcounts, lookup_lastCounts]
      exact h name records hrecords line hits hmem
  · intro name coverage hlook
    obtain ⟨records, -, hcounts⟩ := class_of_lookup py xmlFile hlook
    rw [hcounts]
    exact nodup_foldl (fun _ _ hd ↦ nodup_set hd) _ nodup_nil
  · intro name coverage hlook
    obtain ⟨records, hrecords, hcounts⟩ := class_of_lookup py xmlFile hlook
    rw [hcounts]
    exact (sound_lastCounts records).of_mem (mem_of_lookup hrecords)
  · intro name
    rw [mem_keys_iff, mem_keys_iff, lookup_parseCobertura, isSome_map]

/-! ### Both parsers -/

/-- The parsers count every hit of a text and of a report exactly when what they keep of each file,
the last section and the first class, has all the lines and hits of the others. -/
theorem parsers_count_every_hit_iff (py : PythonText) (text : List Char)
    (xmlFile : Option XmlElement) :
    (CountsEveryHit (parseLcov py text) (lcovSections py text) ↔
      LastSectionHasAll (lcovSections py text)) ∧
    (CountsEveryHit (parseCobertura py xmlFile) (coberturaClasses py xmlFile) ↔
      FirstClassHasAll (coberturaClasses py xmlFile)) := by
  constructor
  · exact countsEveryHit_parseLcov py text
  · exact countsEveryHit_parseCobertura py xmlFile

/-- A second section of a file drops the lines of the first one. -/
theorem second_section_drops_lines : ¬ ∀ py text,
    CountsEveryHit (parseLcov py text) (lcovSections py text) := by
  intro h
  have hlaw := h .ascii "SF:a\nDA:1,1\nend_of_record\nSF:a\nDA:2,0\nend_of_record\n".toList
  have hcov := hlaw.covered ['a'] { executionCounts := [(2, 0)] } (by decide) 1
  have hline := hcov.mpr ⟨1, by decide, by decide⟩
  revert hline
  decide

end Hisab.Coverage.Parsers
