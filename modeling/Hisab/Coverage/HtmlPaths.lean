import Hisab.Coverage.HtmlPages

/-!
# Paths of an HTML coverage report

Which pages a report has, which directories are aggregated, and where the references on a page lead:
the names of a path are joined and split again, and as many `..` as a directory is deep lead back to
the index page.
-/

namespace Hisab.Coverage.Html

open Base Location List PurePath
open PurePath (IsName parse join names?)

/-! ### Names of pages -/

theorem indexHtml_eq : indexHtml = htmlName "index".toList := by decide

theorem htmlName_inj {a b : List Char} : htmlName a = htmlName b ↔ a = b := append_left_inj _

theorem isName_htmlName {name : List Char} (h : '/' ∉ name) : IsName (htmlName name) := by
  refine ⟨?_, ?_, ?_⟩
  · simp [htmlName]
  · intro heq
    have hlen := congrArg length heq
    simp [htmlName] at hlen
  · rw [htmlName, mem_append, not_or]
    exact ⟨h, by decide⟩

theorem htmlName_ne_up (name : List Char) : htmlName name ≠ ['.', '.'] := by
  intro heq
  have hlen := congrArg length heq
  simp [htmlName] at hlen

theorem isName_indexHtml : IsName indexHtml := by refine ⟨by decide, by decide, by decide⟩

theorem indexHtml_ne_up : indexHtml ≠ ['.', '.'] := by decide

theorem dropLast_concat_name {path : PurePath} (h : path.names ≠ []) :
    path.names.dropLast ++ [path.name] = path.names := by
  rw [name, getLastD_eq_getLast?, getLast?_eq_getLast_of_ne_nil h]
  exact dropLast_append_getLast h

theorem name_mem_names {path : PurePath} (h : path.names ≠ []) : path.name ∈ path.names := by
  rw [← dropLast_concat_name h]
  exact mem_append_right _ mem_cons_self

theorem not_slash_mem_name (path : PurePath) (h : ∀ name ∈ path.names, IsName name) :
    '/' ∉ path.name := by
  by_cases hnames : path.names = []
  · rw [name, hnames]
    exact not_mem_nil
  · exact (h _ (name_mem_names hnames)).2.2

theorem isName_parse {text : List Char} : ∀ name ∈ (parse text).names, IsName name :=
  fun _ h ↦ isName_of_mem h

/-! ### References -/

/-- The reference to an index page that many levels up. -/
theorem resolve_indexAbove (location : Location) {levels : Nat} (h : 0 < levels) :
    location.resolve (indexAbove levels) =
      (location.walk (List.replicate levels ['.', '.'])).file indexHtml := by
  have hne : replicate levels ['.', '.'] ≠ [] := by
    rw [Ne, replicate_eq_nil_iff]
    omega
  have hnames : ∀ name ∈ replicate levels ['.', '.'] ++ [indexHtml], IsName name := by
    intro name hname
    cases mem_append.mp hname with
    | inl hname =>
      rw [eq_of_mem_replicate hname]
      exact isName_up
    | inr hname =>
      rw [mem_singleton.mp hname]
      exact isName_indexHtml
  rw [indexAbove, ← join_concat hne, resolve_join _ hnames, walk_append]
  exact enter_of_ne _ indexHtml_ne_up

theorem resolve_indexAbove_below (a : List (List Char)) {b : List (List Char)} (h : b ≠ []) :
    (below (a ++ b)).resolve (indexAbove b.length) = below (a ++ [indexHtml]) := by
  rw [resolve_indexAbove _ (length_pos_of_ne_nil h), walk_up, file_below]

theorem resolve_indexHtml (location : Location) :
    location.resolve indexHtml = location.file indexHtml :=
  resolve_name _ isName_indexHtml indexHtml_ne_up

/-- A reference to the index page of a directory next to the page. -/
theorem resolve_subdirectory (location : Location) {name : List Char} (hname : IsName name)
    (hup : name ≠ ['.', '.']) : location.resolve (name ++ '/' :: indexHtml) =
      (location.file name).file indexHtml := by
  have hnames : ∀ n ∈ [name, indexHtml], IsName n := by
    intro n hn
    cases mem_cons.mp hn with
    | inl hn =>
      rw [hn]
      exact hname
    | inr hn =>
      rw [mem_singleton.mp hn]
      exact isName_indexHtml
  have hjoin : name ++ '/' :: indexHtml = join [name, indexHtml] := by
    rw [join_cons (by simp), join_singleton]
  rw [hjoin, resolve_join _ hnames, ← enter_of_ne _ hup]
  rfl

theorem mem_join {c : Char} {names : List (List Char)} (h : c ∈ join names) :
    c = '/' ∨ ∃ name ∈ names, c ∈ name := by
  induction names with
  | nil => cases h
  | cons name names ih =>
    by_cases hnames : names = []
    · subst hnames
      rw [join_singleton] at h
      exact .inr ⟨name, mem_cons_self, h⟩
    · rw [join_cons hnames] at h
      cases mem_append.mp h with
      | inl h => exact .inr ⟨name, mem_cons_self, h⟩
      | inr h =>
        cases mem_cons.mp h with
        | inl h => exact .inl h
        | inr h =>
          cases ih h with
          | inl h => exact .inl h
          | inr h =>
            obtain ⟨n, hn, hc⟩ := h
            exact .inr ⟨n, mem_cons_of_mem _ hn, hc⟩

theorem replace_backslash {text : List Char} (h : '\\' ∉ text) :
    (text.map fun c ↦ if c = '\\' then '/' else c) = text := by
  apply (map_congr_left _).trans (map_id text)
  intro c hc
  have hne : c ≠ '\\' := by
    intro heq
    rw [heq] at hc
    exact h hc
  rw [if_neg hne]
  rfl

/-- A character of a name is one of the text. -/
theorem mem_of_mem_names? {c : Char} {text name : List Char} (hname : name ∈ names? text)
    (hc : c ∈ name) : c ∈ text :=
  mem_of_mem_splitOn (mem_filter.mp hname).1 hc

namespace HtmlGenerator

variable {generator : HtmlGenerator} {files : List SourceFile} {file : SourceFile}
  {dirPath : List Char} {rel : PurePath} {page : Page}

/-! ### Relative paths -/

theorem isName_of_resolve {path : List Char}
    (h : generator.resolveRelativePath path = some rel) : ∀ name ∈ rel.names, IsName name := by
  rw [resolveRelativePath] at h
  split at h
  · rw [← Option.some.inj h]
    exact isName_parse
  · split at h
    · rw [← Option.some.inj h]
      exact isName_parse
    · cases h

theorem hierarchical?_eq_some : generator.hierarchical? file = some rel ↔
    (generator.preserveHierarchy = true ∧ generator.sourceRoot ≠ []) ∧
      generator.resolveRelativePath file.path = some rel := by
  rw [hierarchical?]
  split
  · next h => simp [h]
  · next h => simp [h]

theorem isName_of_hierarchical (h : generator.hierarchical? file = some rel) :
    ∀ name ∈ rel.names, IsName name :=
  isName_of_resolve (hierarchical?_eq_some.mp h).2

/-- Without a source root no file is in a directory. -/
theorem directoryPaths_of_root_nil {path : List Char} (hroot : generator.sourceRoot = [])
    (h : generator.resolveRelativePath path = some rel) : directoryPaths rel = [] := by
  rw [resolveRelativePath, if_pos hroot] at h
  have hrel := Option.some.inj h
  have hslash := not_slash_mem_name (parse path) isName_parse
  have hnames : rel.names.length ≤ 1 := by
    rw [← hrel]
    change (names? (parse path).name).length ≤ 1
    rw [names?, splitOn_eq_singleton hslash]
    exact length_filter_le _ _
  have hrootOf : rel.root = [] := by
    rw [← hrel]
    cases hname : (parse path).name with
    | nil => rfl
    | cons c rest =>
      rw [hname, mem_cons, not_or] at hslash
      exact rootOf_of_ne (Ne.symm hslash.1) rest
  have hparts : rel.parent.parts = [] := by
    rw [parts, parent, if_pos hrootOf]
    exact eq_nil_of_length_eq_zero (by rw [length_dropLast]; omega)
  rw [directoryPaths, hparts]
  rfl

/-! ### Aggregated directories -/

theorem mem_keys_set {stats : List (List Char × List SourceFile)} {key : List Char}
    {value : List SourceFile} :
    dirPath ∈ (Dict.set stats key value).map Prod.fst ↔
      dirPath = key ∨ dirPath ∈ stats.map Prod.fst := by
  rw [← not_iff_not, ← Dict.lookup_eq_none_iff, Dict.lookup_set, not_or, ← Dict.lookup_eq_none_iff]
  by_cases h : dirPath = key
  · simp [h]
  · simp [h, Ne.symm h]

/-- The directories that a file adds, and the files it adds to them. -/
theorem aggregate_directories (paths : List (List Char)) (file : SourceFile)
    (stats : List (List Char × List SourceFile)) :
    (dirPath ∈ (paths.foldl (fun stats path ↦ addFileToDirectory stats path file) stats).map
      Prod.fst ↔ dirPath ∈ paths ∨ dirPath ∈ stats.map Prod.fst) ∧
    ∀ other, other ∈ ((paths.foldl (fun stats path ↦
      addFileToDirectory stats path file) stats).lookup dirPath).getD [] →
        other = file ∨ other ∈ (stats.lookup dirPath).getD [] := by
  induction paths generalizing stats with
  | nil =>
    constructor
    · simp
    · exact fun _ h ↦ .inr h
  | cons path paths ih =>
    obtain ⟨hkeys, hfiles⟩ := ih (addFileToDirectory stats path file)
    constructor
    · rw [foldl_cons, hkeys, addFileToDirectory, mem_keys_set, mem_cons]
      tauto
    · intro other hother
      cases hfiles other hother with
      | inl h => exact .inl h
      | inr h =>
        rw [addFileToDirectory, Dict.lookup_set] at h
        by_cases hpath : path = dirPath
        · rw [if_pos (by simp [hpath]), hpath] at h
          cases mem_append.mp h with
          | inl h => exact .inr h
          | inr h => exact .inl (mem_singleton.mp h)
        · rw [if_neg (by simp [hpath])] at h
          exact .inr h

/-- A directory is aggregated when it is above a file. -/
theorem mem_directoryStats : dirPath ∈ (generator.directoryStats files).map Prod.fst ↔
    ∃ file ∈ files, ∃ rel, generator.resolveRelativePath file.path = some rel ∧
      dirPath ∈ directoryPaths rel := by
  have hstep : ∀ (files : List SourceFile) (stats : List (List Char × List SourceFile)),
      dirPath ∈ (files.foldl generator.aggregateFile stats).map Prod.fst ↔
        (∃ file ∈ files, ∃ rel, generator.resolveRelativePath file.path = some rel ∧
          dirPath ∈ directoryPaths rel) ∨ dirPath ∈ stats.map Prod.fst := by
    intro files
    induction files with
    | nil => simp
    | cons file files ih =>
      intro stats
      rw [foldl_cons, ih, aggregateFile]
      cases hrel : generator.resolveRelativePath file.path with
      | none => simp [hrel]
      | some rel =>
        rw [(aggregate_directories _ _ _).1]
        simp only [exists_mem_cons_iff, hrel, Option.some.injEq, exists_eq_left']
        rw [or_assoc, or_left_comm]
  rw [directoryStats, hstep]
  simp

/-- Only files of the report are aggregated. -/
theorem mem_files_of_mem_stats
    (h : file ∈ ((generator.directoryStats files).lookup dirPath).getD []) : file ∈ files := by
  have hstep : ∀ (files : List SourceFile) (stats : List (List Char × List SourceFile)),
      file ∈ ((files.foldl generator.aggregateFile stats).lookup dirPath).getD [] →
        file ∈ files ∨ file ∈ (stats.lookup dirPath).getD [] := by
    intro files
    induction files with
    | nil => exact fun _ h ↦ .inr h
    | cons other files ih =>
      intro stats h
      cases ih _ h with
      | inl h => exact .inl (mem_cons_of_mem _ h)
      | inr h =>
        rw [aggregateFile] at h
        cases hrel : generator.resolveRelativePath other.path with
        | none =>
          rw [hrel] at h
          exact .inr h
        | some rel =>
          rw [hrel] at h
          cases (aggregate_directories _ _ _).2 _ h with
          | inl h =>
            rw [h]
            exact .inl mem_cons_self
          | inr h => exact .inr h
  cases hstep files [] h with
  | inl h => exact h
  | inr h => cases h

/-! ### Pages of a report -/

theorem mem_pages : page ∈ generator.pages files ↔ page = generator.indexPage files ∨
    (generator.preserveHierarchy = true ∧ ∃ dirPath ∈ (generator.directoryStats files).map Prod.fst,
        page = generator.directoryPage files dirPath) ∨
    ∃ file ∈ files, page = generator.filePage file := by
  rw [pages]
  by_cases h : generator.preserveHierarchy = true
  · simp [h, eq_comm]
  · simp [h, eq_comm]

theorem page_of_item (hpage : page ∈ generator.pages files) (hitem : page.item = .file file) :
    file ∈ files ∧ page = generator.filePage file := by
  cases mem_pages.mp hpage with
  | inl hpage =>
    rw [hpage] at hitem
    cases hitem
  | inr hpage =>
    cases hpage with
    | inl hpage =>
      obtain ⟨-, dirPath, -, hpage⟩ := hpage
      rw [hpage] at hitem
      cases hitem
    | inr hpage =>
      obtain ⟨other, hother, hpage⟩ := hpage
      rw [hpage] at hitem
      have heq : other = file := Item.file.inj hitem
      rw [← heq]
      exact ⟨hother, hpage⟩

theorem page_of_summary (hpage : page ∈ generator.pages files) (hitem : page.item = .summary) :
    page = generator.indexPage files := by
  cases mem_pages.mp hpage with
  | inl hpage => exact hpage
  | inr hpage =>
    cases hpage with
    | inl hpage =>
      obtain ⟨-, dirPath, -, hpage⟩ := hpage
      rw [hpage] at hitem
      cases hitem
    | inr hpage =>
      obtain ⟨other, hother, hpage⟩ := hpage
      rw [hpage] at hitem
      cases hitem

/-- A report is generated when no page is a directory above another one. -/
theorem generateReport_eq_some {report : List Page} :
    generator.generateReport files = some report ↔ report = generator.pages files ∧
      ∀ page ∈ generator.pages files, ∀ other ∈ generator.pages files,
        page.location ∉ other.directory.ancestors := by
  have hfit : (FileTree.addAll {} ((generator.pages files).map fun page ↦
      (page.directory, page.name))).isSome = true ↔ ∀ page ∈ generator.pages files,
        ∀ other ∈ generator.pages files, page.location ∉ other.directory.ancestors := by
    rw [FileTree.isSome_addAll_empty]
    simp [Page.location]
  rw [generateReport]
  split
  · next h =>
    rw [Option.some_inj, and_iff_left (hfit.mp h)]
    exact eq_comm
  · next h =>
    constructor
    · intro h
      cases h
    · intro hreport
      exact absurd (hfit.mpr hreport.2) h

end HtmlGenerator
end Hisab.Coverage.Html
