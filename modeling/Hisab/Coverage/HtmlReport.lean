import Hisab.Coverage.HtmlLinks

/-!
# When a report is complete and linked

A report has all that it should exactly when its files can be shown next to each other. One way the
pages of such files are apart and every reference leads to its page; the other way a page that is
overwritten, a directory in the place of a page and a reference that leads elsewhere are found from
the file that causes them.
-/

namespace Hisab.Coverage.Html

open Base Location List PurePath
open PurePath (IsName parse join names?)

namespace HtmlGenerator

variable {generator : HtmlGenerator} {files : List SourceFile} {file other : SourceFile}
  {page : Page}

/-! ### Files that can be shown -/

section Linkable

variable (h : generator.Linkable files)

include h

/-- A page is one of a file, or an index page of its directory. -/
theorem Linkable.page_cases (hpage : page ∈ generator.pages files) :
    (∃ file ∈ files, page = generator.filePage file) ∨
      ∃ dirs, (dirs = [] ∨ generator.IsDirectory files dirs) ∧ page.directory = below dirs ∧
        page.location = below (dirs ++ [indexHtml]) := by
  cases mem_pages.mp hpage with
  | inl hpage =>
    subst hpage
    exact .inr ⟨[], .inl rfl, rfl, rfl⟩
  | inr hpage =>
    cases hpage with
    | inl hpage =>
      obtain ⟨hpreserve, dirPath, hkey, hpage⟩ := hpage
      obtain ⟨dirs, hdirs, hjoin⟩ := (mem_keys_iff h.plain hpreserve).mp hkey
      subst hpage
      subst hjoin
      exact .inr ⟨dirs, .inr hdirs, directory_directoryPage h.plain hdirs,
        location_directoryPage h.plain hdirs⟩
    | inr hpage => exact .inl hpage

/-- The directory of a page is above a file, unless it is the one of the whole report. -/
theorem Linkable.directory_cases (hpage : page ∈ generator.pages files) :
    ∃ dirs, page.directory = below dirs ∧
      (dirs = [] ∨ ∃ file ∈ files, dirs <+: generator.directories file) := by
  cases h.page_cases hpage with
  | inl hpage =>
    obtain ⟨file, hfile, hpage⟩ := hpage
    subst hpage
    exact ⟨_, directory_filePage (h.plain file hfile), .inr ⟨file, hfile, prefix_rfl⟩⟩
  | inr hpage =>
    obtain ⟨dirs, hdirs, hdirectory, -⟩ := hpage
    cases hdirs with
    | inl hdirs => exact ⟨dirs, hdirectory, .inl hdirs⟩
    | inr hdirs => exact ⟨dirs, hdirectory, .inr hdirs.above⟩

/-- No page stands where a directory is needed. -/
theorem Linkable.apart (hpage : page ∈ generator.pages files) {next : Page}
    (hnext : next ∈ generator.pages files) : page.location ∉ next.directory.ancestors := by
  obtain ⟨above, hdirectory, habove⟩ := h.directory_cases hnext
  rw [hdirectory]
  cases h.page_cases hpage with
  | inl hpage =>
    obtain ⟨file, hfile, hpage⟩ := hpage
    subst hpage
    rw [location_filePage (h.plain file hfile), mem_ancestors_below]
    intro hbegin
    cases habove with
    | inl habove =>
      rw [habove, prefix_nil] at hbegin
      exact append_ne_nil_of_right_ne_nil _ (cons_ne_nil _ _) hbegin
    | inr habove =>
      obtain ⟨other, hother, habove⟩ := habove
      exact h.noPageDirectory file hfile other hother (hbegin.trans habove)
  | inr hpage =>
    obtain ⟨dirs, -, -, hlocation⟩ := hpage
    rw [hlocation, mem_ancestors_below]
    intro hbegin
    have hmem : indexHtml ∈ above := hbegin.subset (mem_append_right _ mem_cons_self)
    cases habove with
    | inl habove =>
      rw [habove] at hmem
      cases hmem
    | inr habove =>
      obtain ⟨other, hother, habove⟩ := habove
      exact h.noIndexDirectory other hother (habove.subset hmem)

/-- The page of a file is overwritten by no other one. -/
theorem Linkable.own_page (hfile : file ∈ files) (hpage : page ∈ generator.pages files)
    (hsame : page.location = (generator.filePage file).location) :
    ∃ same, page.item = .file same ∧ parse same.path = parse file.path := by
  rw [location_filePage (h.plain file hfile)] at hsame
  cases h.page_cases hpage with
  | inl hpage =>
    obtain ⟨other, hother, hpage⟩ := hpage
    subst hpage
    rw [location_filePage (h.plain other hother), below_inj] at hsame
    obtain ⟨hdirs, hname⟩ := append_inj' hsame rfl
    have hname := htmlName_inj.mp (cons.inj hname).1
    exact ⟨other, rfl, h.distinct file hfile other hother hdirs.symm hname.symm⟩
  | inr hpage =>
    obtain ⟨dirs, -, -, hlocation⟩ := hpage
    rw [hlocation, below_inj] at hsame
    obtain ⟨-, hname⟩ := append_inj' hsame rfl
    have hname := (cons.inj hname).1
    rw [indexHtml_eq, htmlName_inj] at hname
    exact absurd hname.symm (h.noIndex file hfile)

theorem Linkable.pagesLinked : generator.PagesLinked files := by
  refine ⟨generator.pages files, generateReport_eq_some.mpr ⟨rfl, ?_⟩, ?_⟩
  · exact fun page hpage next hnext ↦ h.apart hpage hnext
  · constructor
    · intro page hpage file hitem other hother hsame
      obtain ⟨hfile, heq⟩ := page_of_item hpage hitem
      rw [heq] at hsame
      exact h.own_page hfile hother hsame
    · intro page hpage link hlink
      exact leads_of_plain h.plain hpage hlink

end Linkable

/-! ### Reports that are complete and linked -/

theorem directory_of_hierarchical {rel : PurePath} (hrel : generator.hierarchical? file = some rel) :
    (generator.filePage file).directory = Location.descend {} rel.parent := by
  rw [filePage, hrel]

section Linked

variable (h : CompleteAndLinked (generator.pages files)) (hfile : file ∈ files)

include h hfile

/-- The back link of a file leads to the index page. -/
theorem back_link_of_linked : (generator.filePage file).directory.resolve
    (generator.fileBackLink file).href = below [indexHtml] := by
  have hpage : generator.filePage file ∈ generator.pages files :=
    mem_pages.mpr (.inr (.inr ⟨file, hfile, rfl⟩))
  obtain ⟨target, htarget, hitem, hlocation⟩ := h.linked _ hpage _ mem_cons_self
  rw [page_of_summary htarget hitem] at hlocation
  exact hlocation.symm

/-- The index page refers to the page of a file. -/
theorem index_link_of_linked :
    Location.resolve {} (generator.indexHref file) = (generator.filePage file).location := by
  have hpage : generator.indexPage files ∈ generator.pages files := mem_pages.mpr (.inl rfl)
  have hlink : { href := generator.indexHref file, item := .file file } ∈
      (generator.indexPage files).links :=
    mem_append_right _ (mem_map.mpr ⟨file, hfile, rfl⟩)
  obtain ⟨target, htarget, hitem, hlocation⟩ := h.linked _ hpage _ hlink
  rw [(page_of_item htarget hitem).2] at hlocation
  exact hlocation.symm

variable {rel : PurePath} (hrel : generator.hierarchical? file = some rel)

include hrel

/-- The back link, from as deep as the path of the file is. -/
theorem back_link_of_hierarchical (hdeep : 0 < rel.parent.parts.length) :
    (((generator.filePage file).directory.walk
      (List.replicate rel.parent.parts.length ['.', '.'])).file indexHtml) = below [indexHtml] := by
  have hback := back_link_of_linked h hfile
  rw [fileBackLink, hrel] at hback
  dsimp only at hback
  rw [if_pos hdeep, resolve_indexAbove _ hdeep] at hback
  exact hback

/-- From below a root no reference leads back. -/
theorem root_of_linked : rel.root = [] := by
  by_contra hroot
  have hdeep : 0 < rel.parent.parts.length := by
    rw [parts, parent, if_neg hroot]
    exact Nat.succ_pos _
  have hback := congrArg Location.root (back_link_of_hierarchical h hfile hrel hdeep)
  rw [directory_of_hierarchical hrel, descend, parent, if_neg hroot] at hback
  change ((Location.walk _ _).walk _).root = [] at hback
  rw [root_walk, root_walk] at hback
  exact hroot hback

/-- A path without a name would give the page `.html`, which the index page does not refer to. -/
theorem named_of_linked : rel.names ≠ [] := by
  intro hnil
  have hlink := index_link_of_linked h hfile
  have hfallback := resolve_name {} (isName_htmlName (not_slash_mem_name _ isName_parse))
    (htmlName_ne_up (parse file.path).name)
  rw [indexHref, hrel] at hlink
  dsimp only at hlink
  rw [if_pos hnil, hfallback, Page.location, name_filePage, pageName, hrel] at hlink
  have hname := cons.inj (congrArg Location.inner hlink)
  have hname : (parse file.path).name = rel.name := htmlName_inj.mp hname.1
  apply file.named
  rw [hname, name, hnil]
  rfl

/-- Every `..` on the way to a file is one level that the way back misses. -/
theorem noUp_of_linked : ['.', '.'] ∉ rel.names.dropLast := by
  by_cases hdirs : rel.names.dropLast = []
  · rw [hdirs]
    exact not_mem_nil
  · have hroot := root_of_linked h hfile hrel
    have hparts : rel.parent.parts = rel.names.dropLast := by rw [parts, parent, if_pos hroot]
    have hdeep : 0 < rel.parent.parts.length := by
      rw [hparts]
      exact length_pos_of_ne_nil hdirs
    have hback := congrArg Location.height (back_link_of_hierarchical h hfile hrel hdeep)
    rw [hparts, directory_of_hierarchical hrel, descend, parent, if_pos hroot, height_file,
      height_walk (by rw [root_walk]), height_walk rfl, length_replicate,
      count_replicate_self] at hback
    change (0 : Int) + rel.names.dropLast.length - 2 * (rel.names.dropLast.count ['.', '.'] : Nat) +
      rel.names.dropLast.length - 2 * rel.names.dropLast.length + 1 = 1 at hback
    rw [← count_eq_zero]
    omega

/-- The index page refers to no name with a backslash. -/
theorem noBackslash_of_linked : ∀ name ∈ rel.names, '\\' ∉ name := by
  intro name hname hslash
  have hlink := index_link_of_linked h hfile
  have hnamed := named_of_linked h hfile hrel
  have hdirectory : (generator.filePage file).directory = below rel.names.dropLast := by
    rw [directory_of_hierarchical hrel, descend, parent, if_pos (root_of_linked h hfile hrel)]
    exact walk_below [] (noUp_of_linked h hfile hrel)
  rw [Page.location, hdirectory, name_filePage, pageName, hrel, file_below] at hlink
  -- the name stands in the location of the page, with its backslash
  have hinner : ∃ inner ∈ (below (rel.names.dropLast ++ [htmlName rel.name])).inner,
      '\\' ∈ inner := by
    rw [← dropLast_concat_name hnamed] at hname
    cases mem_append.mp hname with
    | inl hname => exact ⟨name, mem_reverse.mpr (mem_append_left _ hname), hslash⟩
    | inr hname =>
      rw [mem_singleton.mp hname] at hslash
      exact ⟨_, mem_reverse.mpr (mem_append_right _ mem_cons_self), mem_append_left _ hslash⟩
  rw [← hlink] at hinner
  obtain ⟨inner, hmem, hc⟩ := hinner
  rw [indexHref, hrel] at hmem
  dsimp only at hmem
  rw [if_neg hnamed] at hmem
  have hchar := mem_of_mem_names? (mem_inner_descend hmem) hc
  obtain ⟨c, -, hreplace⟩ := mem_map.mp hchar
  split at hreplace
  · cases hreplace
  · next hne => exact hne hreplace

omit hrel

theorem plain_of_linked : ∀ rel, generator.hierarchical? file = some rel → PlainPath rel := by
  intro rel hrel
  constructor
  · exact root_of_linked h hfile hrel
  · exact named_of_linked h hfile hrel
  · exact noUp_of_linked h hfile hrel
  · exact noBackslash_of_linked h hfile hrel

end Linked

/-- What a generated report shows of its files. -/
theorem linkable_of_pagesLinked (h : generator.PagesLinked files) : generator.Linkable files := by
  obtain ⟨report, hreport, hlinked⟩ := h
  obtain ⟨heq, hapart⟩ := generateReport_eq_some.mp hreport
  subst heq
  have hplain := fun file (hfile : file ∈ files) ↦ plain_of_linked hlinked hfile
  have hpages := fun file (hfile : file ∈ files) ↦
    mem_pages.mpr (.inr (.inr ⟨file, hfile, (rfl : generator.filePage file = _)⟩))
  constructor
  · exact hplain
  · intro file hfile other hother hdirs hname
    have hsame : (generator.filePage other).location = (generator.filePage file).location := by
      rw [location_filePage (hplain file hfile), location_filePage (hplain other hother), hdirs,
        hname]
    obtain ⟨same, hitem, hpath⟩ :=
      hlinked.distinct _ (hpages file hfile) file rfl _ (hpages other hother) hsame
    have hitem : other = same := Item.file.inj hitem
    rw [hitem]
    exact hpath
  · intro file hfile hindex
    have hlocation := location_filePage (hplain file hfile)
    rw [hindex, ← indexHtml_eq] at hlocation
    by_cases hdirs : generator.directories file = []
    · rw [hdirs] at hlocation
      obtain ⟨same, hitem, -⟩ := hlinked.distinct _ (hpages file hfile) file rfl _
        (mem_pages.mpr (.inl rfl)) hlocation.symm
      cases hitem
    · have hdirectory : generator.IsDirectory files (generator.directories file) :=
        ⟨hdirs, file, hfile, prefix_rfl⟩
      obtain ⟨same, hitem, -⟩ := hlinked.distinct _ (hpages file hfile) file rfl _
        (directoryPage_mem hplain hdirectory)
        ((location_directoryPage hplain hdirectory).trans hlocation.symm)
      cases hitem
  · intro file hfile hmem
    obtain ⟨above, rest, hsplit⟩ := append_of_mem hmem
    have hbegin : above ++ [indexHtml] <+: generator.directories file :=
      ⟨rest, by rw [hsplit, append_assoc]; rfl⟩
    have hancestor : below (above ++ [indexHtml]) ∈
        (generator.filePage file).directory.ancestors := by
      rw [directory_filePage (hplain file hfile)]
      exact mem_ancestors_below.mpr hbegin
    by_cases habove : above = []
    · subst habove
      exact hapart _ (mem_pages.mpr (.inl rfl)) _ (hpages file hfile) hancestor
    · have hdirectory : generator.IsDirectory files above :=
        ⟨habove, file, hfile, (prefix_append _ _).trans hbegin⟩
      apply hapart _ (directoryPage_mem hplain hdirectory) _ (hpages file hfile)
      rw [location_directoryPage hplain hdirectory]
      exact hancestor
  · intro file hfile other hother hbegin
    apply hapart _ (hpages file hfile) _ (hpages other hother)
    rw [location_filePage (hplain file hfile), directory_filePage (hplain other hother)]
    exact mem_ancestors_below.mpr hbegin

/-- A report is complete and linked exactly when its files can be shown next to each other. -/
theorem pages_linked_iff (generator : HtmlGenerator) (files : List SourceFile) :
    generator.PagesLinked files ↔ generator.Linkable files := by
  constructor
  · exact linkable_of_pagesLinked
  · exact Linkable.pagesLinked

/-- Two files of one name in different directories share a page in the flat layout. -/
theorem same_name_shares_page : ¬ ∀ generator files, PagesLinked generator files := by
  intro h
  have hlinkable := linkable_of_pagesLinked (h { lower := id }
    [⟨"/a/x.c".toList, by decide⟩, ⟨"/b/x.c".toList, by decide⟩])
  have hpath := hlinkable.distinct _ mem_cons_self _
    (mem_cons_of_mem _ mem_cons_self) (by decide) (by decide)
  revert hpath
  decide

end HtmlGenerator
end Hisab.Coverage.Html
