import Hisab.Coverage.HtmlPaths

/-!
# Complete and linked reports

Every source file should have a page of its own, and every reference should lead to the page of what
it shows. The pages of files that the flat layout or a root in other letters puts under one name
overwrite each other, as does the page of a file `index` the page of its directory, and the page of
a file `a` the directory `a.html`. References go wrong with `..` below the root, with a backslash in
a name, and where a root that is longer in lower case cuts a path in a name.
-/

namespace Hisab.Coverage.Html

open Base Location List PurePath
open PurePath (IsName parse join names?)

/-- Source files have pages of their own, and every reference names the page of what it shows. -/
structure CompleteAndLinked (report : List Page) : Prop where
  distinct : ∀ page ∈ report, ∀ file, page.item = .file file →
    ∀ other ∈ report, other.location = page.location →
      ∃ same, other.item = .file same ∧ parse same.path = parse file.path
  linked : ∀ page ∈ report, ∀ link ∈ page.links, ∃ target ∈ report, target.item = link.item ∧
    target.location = page.directory.resolve link.href

namespace HtmlGenerator

variable (generator : HtmlGenerator) (files : List SourceFile)

/-- The report is generated, complete and linked. -/
def PagesLinked : Prop :=
  ∃ report, generator.generateReport files = some report ∧ CompleteAndLinked report

/-- The directories of a file below the report. -/
def directories (file : SourceFile) : List (List Char) :=
  match generator.hierarchical? file with
  | none => []
  | some rel => rel.names.dropLast

/-- The name of a file in the report. -/
def pageName (file : SourceFile) : List Char :=
  match generator.hierarchical? file with
  | none => (parse file.path).name
  | some rel => rel.name

/-- A path below the source root that is written as it is read. -/
structure PlainPath (rel : PurePath) : Prop where
  root : rel.root = []
  named : rel.names ≠ []
  noUp : ['.', '.'] ∉ rel.names.dropLast
  noBackslash : ∀ name ∈ rel.names, '\\' ∉ name

/-- The files can be shown next to each other. -/
structure Linkable : Prop where
  plain : ∀ file ∈ files, ∀ rel, generator.hierarchical? file = some rel → PlainPath rel
  distinct : ∀ file ∈ files, ∀ other ∈ files,
    generator.directories file = generator.directories other →
      generator.pageName file = generator.pageName other → parse other.path = parse file.path
  noIndex : ∀ file ∈ files, generator.pageName file ≠ "index".toList
  noIndexDirectory : ∀ file ∈ files, indexHtml ∉ generator.directories file
  noPageDirectory : ∀ file ∈ files, ∀ other ∈ files,
    ¬ generator.directories file ++ [htmlName (generator.pageName file)] <+:
      generator.directories other

variable {generator files} {file other : SourceFile} {rel : PurePath} {page : Page}
  {dirs : List (List Char)} {name dirPath : List Char}

/-! ### Where pages are -/

theorem name_filePage (file : SourceFile) :
    (generator.filePage file).name = htmlName (generator.pageName file) := by
  rw [filePage, pageName]
  cases generator.hierarchical? file with
  | none | some rel => rfl

theorem isName_directories (h : name ∈ generator.directories file) : IsName name := by
  rw [directories] at h
  cases hrel : generator.hierarchical? file with
  | none =>
    rw [hrel] at h
    cases h
  | some rel =>
    rw [hrel] at h
    exact isName_of_hierarchical hrel name (mem_of_mem_dropLast h)

section Plain

variable (hplain : ∀ rel, generator.hierarchical? file = some rel → PlainPath rel)

include hplain

theorem up_notMem_directories : ['.', '.'] ∉ generator.directories file := by
  rw [directories]
  cases hrel : generator.hierarchical? file with
  | none => exact not_mem_nil
  | some rel => exact (hplain rel hrel).noUp

theorem directory_filePage :
    (generator.filePage file).directory = below (generator.directories file) := by
  rw [filePage, directories]
  cases hrel : generator.hierarchical? file with
  | none => rfl
  | some rel =>
    change Location.descend {} rel.parent = below rel.names.dropLast
    rw [descend, parent, if_pos (hplain rel hrel).root]
    exact walk_below [] (hplain rel hrel).noUp

theorem location_filePage : (generator.filePage file).location =
    below (generator.directories file ++ [htmlName (generator.pageName file)]) := by
  rw [Page.location, directory_filePage hplain, name_filePage, file_below]

/-- The back link of a file leads to the index page. -/
theorem resolve_fileBackLink :
    (generator.filePage file).directory.resolve (generator.fileBackLink file).href =
      below [indexHtml] := by
  rw [directory_filePage hplain, fileBackLink, directories]
  cases hrel : generator.hierarchical? file with
  | none => exact resolve_indexHtml _
  | some rel =>
    dsimp only
    rw [parts, parent, if_pos (hplain rel hrel).root]
    by_cases hdirs : rel.names.dropLast = []
    · rw [hdirs]
      exact resolve_indexHtml _
    · rw [if_pos (length_pos_of_ne_nil hdirs)]
      exact resolve_indexAbove_below [] hdirs

/-- The index page refers to the page of a file. -/
theorem resolve_indexHref : Location.resolve {} (generator.indexHref file) =
    below (generator.directories file ++ [htmlName (generator.pageName file)]) := by
  rw [indexHref, directories, pageName]
  cases hrel : generator.hierarchical? file with
  | none =>
    exact resolve_name _ (isName_htmlName (not_slash_mem_name _ isName_parse)) (htmlName_ne_up _)
  | some rel =>
    have hrelPlain := hplain rel hrel
    have hname := isName_of_hierarchical hrel
    have hnames : ∀ name ∈ rel.names.dropLast ++ [htmlName rel.name], IsName name := by
      intro name hmem
      cases mem_append.mp hmem with
      | inl hmem => exact hname name (mem_of_mem_dropLast hmem)
      | inr hmem =>
        rw [mem_singleton.mp hmem]
        exact isName_htmlName (not_slash_mem_name _ hname)
    have hup : ['.', '.'] ∉ rel.names.dropLast ++ [htmlName rel.name] := by
      rw [mem_append, not_or, mem_singleton]
      exact ⟨hrelPlain.noUp, (htmlName_ne_up _).symm⟩
    have hslash : '\\' ∉ join (rel.names.dropLast ++ [htmlName rel.name]) := by
      intro hmem
      cases mem_join hmem with
      | inl h => cases h
      | inr h =>
        obtain ⟨name, hmem, hc⟩ := h
        cases mem_append.mp hmem with
        | inl hmem => exact hrelPlain.noBackslash name (mem_of_mem_dropLast hmem) hc
        | inr hmem =>
          rw [mem_singleton.mp hmem, htmlName, mem_append] at hc
          cases hc with
          | inl hc => exact hrelPlain.noBackslash _ (name_mem_names hrelPlain.named) hc
          | inr hc => revert hc; decide
    dsimp only
    rw [if_neg hrelPlain.named, str, if_neg (by simp), hrelPlain.root, nil_append,
      replace_backslash hslash, resolve_join _ hnames]
    exact walk_below [] hup

end Plain

/-! ### Directories -/

/-- Names that lead to a directory of the report. -/
structure IsDirectory (generator : HtmlGenerator) (files : List SourceFile)
    (dirs : List (List Char)) : Prop where
  nonempty : dirs ≠ []
  above : ∃ file ∈ files, dirs <+: generator.directories file

theorem IsDirectory.isName (h : generator.IsDirectory files dirs) : ∀ name ∈ dirs, IsName name := by
  intro name hname
  obtain ⟨file, -, habove⟩ := h.above
  exact isName_directories (habove.subset hname)

/-- Only below a source root there are directories. -/
theorem IsDirectory.hierarchical (h : generator.IsDirectory files dirs) :
    generator.preserveHierarchy = true ∧ generator.sourceRoot ≠ [] := by
  obtain ⟨file, -, habove⟩ := h.above
  rw [directories] at habove
  cases hrel : generator.hierarchical? file with
  | none =>
    rw [hrel] at habove
    exact absurd (prefix_nil.mp habove) h.nonempty
  | some rel => exact (hierarchical?_eq_some.mp hrel).1

theorem splitOn_join (hne : dirs ≠ []) (h : ∀ name ∈ dirs, IsName name) :
    (join dirs).splitOn '/' = dirs :=
  splitOn_intercalate '/' (fun name hname ↦ (h name hname).2.2) hne

theorem join_ne_nil (hne : dirs ≠ []) (h : ∀ name ∈ dirs, IsName name) : join dirs ≠ [] := by
  intro hjoin
  have hsplit := splitOn_join hne h
  rw [hjoin] at hsplit
  exact (h [] (by rw [← hsplit]; exact mem_cons_self)).1 rfl

/-- What `get_subdirectories` finds is one name below the directory. -/
theorem subdirectory?_eq_some {parentDir subdir : List Char}
    (h : subdirectory? parentDir dirPath = some subdir) :
    ∃ name, '/' ∉ name ∧ subdir = pathBefore parentDir ++ name := by
  rw [subdirectory?] at h
  split at h
  · next hfound =>
    rw [← Option.some.inj h, nextDirectory]
    by_cases hslash : '/' ∈ dirPath.drop (pathBefore parentDir).length
    · rw [if_pos hslash]
      refine ⟨_, ?_, rfl⟩
      cases hsplit : (dirPath.drop (pathBefore parentDir).length).splitOn '/' with
      | nil => exact absurd hsplit (splitOn_ne_nil _ _)
      | cons first rest =>
        have hfirst : first ∈ (dirPath.drop (pathBefore parentDir).length).splitOn '/' := by
          rw [hsplit]
          exact mem_cons_self
        exact not_mem_of_mem_splitOn hfirst
    · rw [if_neg hslash]
      exact ⟨_, hslash, (prefix_append_drop hfound.1)⟩
  · cases h

section PlainFiles

variable (hplain : ∀ file ∈ files, ∀ rel, generator.hierarchical? file = some rel → PlainPath rel)
  {directory : Location} {link : Link}

include hplain

theorem IsDirectory.up_notMem (h : generator.IsDirectory files dirs) : ['.', '.'] ∉ dirs := by
  obtain ⟨file, hfile, habove⟩ := h.above
  intro hup
  exact up_notMem_directories (hplain file hfile) (habove.subset hup)

/-- The directories that are aggregated are those above a file. -/
theorem mem_keys_iff (hpreserve : generator.preserveHierarchy = true) :
    dirPath ∈ (generator.directoryStats files).map Prod.fst ↔
      ∃ dirs, generator.IsDirectory files dirs ∧ dirPath = join dirs := by
  rw [mem_directoryStats]
  constructor
  · rintro ⟨file, hfile, rel, hrel, hmem⟩
    have hroot : generator.sourceRoot ≠ [] := by
      intro hroot
      rw [directoryPaths_of_root_nil hroot hrel] at hmem
      cases hmem
    have hhier := hierarchical?_eq_some.mpr ⟨⟨hpreserve, hroot⟩, hrel⟩
    rw [directoryPaths, parts, parent, if_pos (hplain file hfile rel hhier).root] at hmem
    obtain ⟨i, hi, heq⟩ := mem_map.mp hmem
    rw [mem_range] at hi
    refine ⟨rel.names.dropLast.take (i + 1), ⟨?_, file, hfile, ?_⟩, heq.symm⟩
    · apply ne_nil_of_length_pos
      rw [length_take]
      dsimp only at hi
      omega
    · rw [directories, hhier]
      exact take_prefix _ _
  · rintro ⟨dirs, hdirs, heq⟩
    obtain ⟨file, hfile, habove⟩ := hdirs.above
    rw [directories] at habove
    cases hrel : generator.hierarchical? file with
    | none =>
      rw [hrel] at habove
      exact absurd (prefix_nil.mp habove) hdirs.nonempty
    | some rel =>
      rw [hrel] at habove
      refine ⟨file, hfile, rel, (hierarchical?_eq_some.mp hrel).2, ?_⟩
      rw [directoryPaths, parts, parent, if_pos (hplain file hfile rel hrel).root]
      apply mem_map.mpr
      have hlen := habove.length_le
      have hpos := length_pos_of_ne_nil hdirs.nonempty
      refine ⟨dirs.length - 1, mem_range.mpr (by dsimp only at hlen ⊢; omega), ?_⟩
      rw [Nat.sub_add_cancel hpos, heq, ← prefix_iff_eq_take.mp habove]

theorem directory_directoryPage (h : generator.IsDirectory files dirs) :
    (generator.directoryPage files (join dirs)).directory = below dirs := by
  change Location.resolve {} (join dirs) = below dirs
  rw [resolve_join _ h.isName]
  exact walk_below [] (h.up_notMem hplain)

theorem location_directoryPage (h : generator.IsDirectory files dirs) :
    (generator.directoryPage files (join dirs)).location = below (dirs ++ [indexHtml]) := by
  rw [Page.location, directory_directoryPage hplain h, ← file_below]
  rfl

theorem directoryPage_mem (h : generator.IsDirectory files dirs) :
    generator.directoryPage files (join dirs) ∈ generator.pages files :=
  mem_pages.mpr (.inr (.inl ⟨h.hierarchical.1, join dirs,
    (mem_keys_iff hplain h.hierarchical.1).mpr ⟨dirs, h, rfl⟩, rfl⟩))

/-! ### Where references lead -/

/-- A reference on a page of the directory leads to the page of what it shows. -/
def Leads (generator : HtmlGenerator) (files : List SourceFile) (directory : Location)
    (link : Link) : Prop :=
  ∃ target ∈ generator.pages files, target.item = link.item ∧
    target.location = directory.resolve link.href

omit hplain in
theorem leads_to_summary {href : List Char} (h : directory.resolve href = below [indexHtml]) :
    Leads generator files directory { href, item := .summary } :=
  ⟨generator.indexPage files, mem_pages.mpr (.inl rfl), rfl, h.symm⟩

theorem leads_to_directory {href : List Char} (hdirs : generator.IsDirectory files dirs)
    (h : directory.resolve href = below (dirs ++ [indexHtml])) :
    Leads generator files directory { href, item := .directory (join dirs) } :=
  ⟨generator.directoryPage files (join dirs), directoryPage_mem hplain hdirs, rfl,
    (location_directoryPage hplain hdirs).trans h.symm⟩

theorem leads_to_file {href : List Char} (hfile : file ∈ files)
    (h : directory.resolve href = below (generator.directories file ++ [htmlName (generator.pageName file)]))
    : Leads generator files directory { href, item := .file file } :=
  ⟨generator.filePage file, mem_pages.mpr (.inr (.inr ⟨file, hfile, rfl⟩)), rfl,
    (location_filePage (hplain file hfile)).trans h.symm⟩

/-- The rows of subdirectories, on the index page and on the page of a directory. -/
theorem leads_directoryRows (hpreserve : generator.preserveHierarchy = true)
    (hnames : ∀ name ∈ dirs, IsName name) (hlink : link ∈ generator.directoryRows files (join dirs))
    : Leads generator files (below dirs) link := by
  obtain ⟨subdir, hsubdir, hrow⟩ := mem_filterMap.mp hlink
  rw [getSubdirectories, mem_dedup] at hsubdir
  obtain ⟨key, -, hkey⟩ := mem_filterMap.mp hsubdir
  obtain ⟨name, hslash, hname⟩ := subdirectory?_eq_some hkey
  split at hrow
  · next hstats =>
    rw [← Option.some.inj hrow]
    rw [← Dict.mem_keys_iff, mem_keys_iff hplain hpreserve] at hstats
    obtain ⟨sub, hsub, hjoin⟩ := hstats
    -- the names of the subdirectory are those of the directory and one more
    have hsplit : subdir.splitOn '/' = dirs ++ [name] := by
      rw [hname, pathBefore]
      by_cases hdirs : dirs = []
      · subst hdirs
        exact splitOn_eq_singleton hslash
      · rw [if_neg (join_ne_nil hdirs hnames), append_assoc, singleton_append,
          splitOn_append_cons_self, splitOn_join hdirs hnames,
          splitOn_eq_singleton hslash]
    have heq : sub = dirs ++ [name] := by
      rw [← hsplit, hjoin, splitOn_join hsub.nonempty hsub.isName]
    have hmem : name ∈ sub := by simp [heq]
    have hup : name ≠ ['.', '.'] := by
      intro hup
      rw [hup] at hmem
      exact hsub.up_notMem hplain hmem
    rw [hjoin]
    apply leads_to_directory hplain hsub
    rw [← hjoin, hsplit, getLastD_concat, resolve_subdirectory _ (hsub.isName name hmem) hup,
      file_below, file_below, heq]
  · cases hrow

/-- The rows of files on the page of a directory. -/
theorem leads_fileRows (h : generator.IsDirectory files dirs)
    (hlink : link ∈ generator.fileRows files (join dirs)) :
    Leads generator files (below dirs) link := by
  obtain ⟨file, hfile, hrow⟩ := mem_map.mp hlink
  rw [getFilesInDirectory, mem_filter] at hfile
  obtain ⟨hstats, hhere⟩ := hfile
  have hmem := mem_files_of_mem_stats hstats
  rw [← hrow]
  cases hrel : generator.resolveRelativePath file.path with
  | none =>
    rw [hrel] at hhere
    cases hhere
  | some rel =>
    rw [hrel] at hhere
    have hhere := of_decide_eq_true hhere
    have hhier := hierarchical?_eq_some.mpr ⟨h.hierarchical, hrel⟩
    have hrelPlain := hplain file hmem rel hhier
    have hnames : ∀ name ∈ rel.names.dropLast, IsName name :=
      fun name hname ↦ isName_of_hierarchical hhier name (mem_of_mem_dropLast hname)
    have hdirs : rel.names.dropLast = dirs := by
      cases hhere with
      | inr hhere => exact absurd hhere.1 (join_ne_nil h.nonempty h.isName)
      | inl hhere =>
        rw [parent, str, hrelPlain.root] at hhere
        by_cases hnil : rel.names.dropLast = []
        · -- the path of no directory is `.`, which is no name
          rw [hnil] at hhere
          have hsplit := splitOn_join h.nonempty h.isName
          rw [← hhere] at hsplit
          have hdot : ['.'] ∈ dirs := by
            rw [← hsplit]
            decide
          exact absurd rfl (h.isName _ hdot).2.1
        · rw [if_neg (by simp [hnil]), nil_append, normalizePath, parse_join hnames,
            str, if_neg (by simp [hnil]), nil_append] at hhere
          rw [← splitOn_join hnil hnames, hhere, splitOn_join h.nonempty h.isName]
    apply leads_to_file hplain hmem
    have hfile : IsName (htmlName rel.name) :=
      isName_htmlName (not_slash_mem_name _ (isName_of_hierarchical hhier))
    rw [resolve_name _ hfile (htmlName_ne_up _), file_below, directories, pageName, hhier, ← hdirs]

/-- The breadcrumb of a directory. -/
theorem leads_breadcrumb (h : generator.IsDirectory files dirs)
    (hlink : link ∈ breadcrumb (join dirs)) : Leads generator files (below dirs) link := by
  rw [breadcrumb, splitOn_join h.nonempty h.isName] at hlink
  cases mem_cons.mp hlink with
  | inl hlink =>
    rw [hlink]
    exact leads_to_summary (resolve_indexAbove_below [] h.nonempty)
  | inr hlink =>
    obtain ⟨i, hi, hlink⟩ := mem_map.mp hlink
    rw [mem_range] at hi
    rw [← hlink]
    have htake : generator.IsDirectory files (dirs.take (i + 1)) := by
      obtain ⟨file, hfile, habove⟩ := h.above
      constructor
      · apply ne_nil_of_length_pos
        rw [length_take]
        omega
      · exact ⟨file, hfile, ( take_prefix _ _).trans habove⟩
    apply leads_to_directory hplain htake
    by_cases hlevels : 0 < dirs.length - i - 1
    · rw [if_pos hlevels]
      have hdrop : dirs.drop (i + 1) ≠ [] := by
        apply ne_nil_of_length_pos
        rw [length_drop]
        omega
      have hresolve := resolve_indexAbove_below (dirs.take (i + 1)) hdrop
      rw [take_append_drop, length_drop] at hresolve
      exact hresolve
    · rw [if_neg hlevels, resolve_indexHtml, file_below, take_of_length_le (by omega)]

omit hplain in
/-- The back link of a directory. -/
theorem leads_directoryBackLink (h : generator.IsDirectory files dirs) :
    Leads generator files (below dirs) (directoryBackLink (join dirs)) := by
  apply leads_to_summary
  have hpos := length_pos_of_ne_nil h.nonempty
  have hhref : (if 1 < dirs.length then indexAbove dirs.length else "../index.html".toList) =
      indexAbove dirs.length := by
    split
    · rfl
    · have hone : dirs.length = 1 := by omega
      rw [hone]
      decide
  rw [splitOn_join h.nonempty h.isName, hhref]
  exact resolve_indexAbove_below [] h.nonempty

/-- Every reference leads to the page of what it shows. -/
theorem leads_of_plain (hpage : page ∈ generator.pages files) (hlink : link ∈ page.links) :
    Leads generator files page.directory link := by
  cases mem_pages.mp hpage with
  | inl hpage =>
    subst hpage
    cases mem_append.mp hlink with
    | inl hlink =>
      split at hlink
      · next hpreserve =>
        have hnil : ∀ name ∈ ([] : List (List Char)), IsName name := nofun
        exact leads_directoryRows hplain hpreserve hnil hlink
      · cases hlink
    | inr hlink =>
      obtain ⟨file, hfile, hlink⟩ := mem_map.mp hlink
      rw [← hlink]
      exact leads_to_file hplain hfile (resolve_indexHref (hplain file hfile))
  | inr hpage =>
    cases hpage with
    | inl hpage =>
      obtain ⟨hpreserve, dirPath, hkey, hpage⟩ := hpage
      obtain ⟨dirs, hdirs, hjoin⟩ := (mem_keys_iff hplain hpreserve).mp hkey
      subst hpage
      subst hjoin
      rw [directory_directoryPage hplain hdirs]
      simp only [directoryPage, mem_append, mem_singleton] at hlink
      cases hlink with
      | inl hlink =>
        cases hlink with
        | inl hlink =>
          cases hlink with
          | inl hlink => exact leads_breadcrumb hplain hdirs hlink
          | inr hlink => exact leads_directoryRows hplain hpreserve hdirs.isName hlink
        | inr hlink => exact leads_fileRows hplain hdirs hlink
      | inr hlink =>
        rw [hlink]
        exact leads_directoryBackLink hdirs
    | inr hpage =>
      obtain ⟨file, hfile, hpage⟩ := hpage
      subst hpage
      rw [filePage, mem_singleton] at hlink
      rw [hlink]
      exact leads_to_summary (resolve_fileBackLink (hplain file hfile))

end PlainFiles

end HtmlGenerator
end Hisab.Coverage.Html
