import Hisab.Base.Dict
import Hisab.Base.PurePath
import Mathlib.Data.List.Dedup

/-!
# Pages of an HTML coverage report

`HtmlGenerator` and `DirectoryAggregator` of `Tools/coverage/src/coverage_tool/html_report`, with
paths as `pathlib` has them on a POSIX system. A page is where it is written and the references that
stand on it, each with what it shows; the counts and the order of the rows, on which no path and no
reference depends, are left out. `str.lower` is a parameter.
-/

namespace Hisab.Coverage.Html

open Base
open PurePath (parse join)

/-- A source file that can be read: a path that ends in no name is a directory. -/
structure SourceFile where
  path : List Char
  named : (parse path).name ≠ []
  deriving DecidableEq

/-- `HtmlGenerator` (`html_generator.py:22–36`). -/
structure HtmlGenerator where
  lower : List Char → List Char
  sourceRoot : List Char := []
  preserveHierarchy : Bool := true

/-- What a page or a reference shows. -/
inductive Item where
  | summary
  | directory (dirPath : List Char)
  | file (file : SourceFile)
  deriving DecidableEq

/-- `<a href="{href}">`, with what it shows. -/
structure Link where
  href : List Char
  item : Item
  deriving DecidableEq

/-- A page with the directory and the name it is written under. -/
structure Page where
  item : Item
  directory : Location
  name : List Char
  links : List Link
  deriving DecidableEq

def Page.location (page : Page) : Location := page.directory.file page.name

def indexHtml : List Char := "index.html".toList

/-- `f"{name}.html"`. -/
def htmlName (name : List Char) : List Char := name ++ ".html".toList

/-- `"/".join([".."] * levels) + "/index.html"`. -/
def indexAbove (levels : Nat) : List Char :=
  join (List.replicate levels ['.', '.']) ++ '/' :: indexHtml

/-! ### Paths below the source root -/

/-- `_normalize_path` (`html_generator.py:38–47`). -/
def normalizePath (path : List Char) : List Char := (parse path).str

namespace HtmlGenerator

variable (generator : HtmlGenerator) (files : List SourceFile)

/-- The source root as it must stand before a file: it ends in a slash. -/
def rootNorm : List Char :=
  let rootNorm := normalizePath generator.sourceRoot
  if rootNorm.getLast? = some '/' then rootNorm else rootNorm ++ ['/']

/-- `_resolve_relative_path` (`html_generator.py:49–79`, `directory_aggregator.py:38–63`); `none`
is `ValueError`. -/
def resolveRelativePath (filePath : List Char) : Option PurePath :=
  if generator.sourceRoot = [] then some (parse (parse filePath).name)
  else if generator.lower generator.rootNorm <+: generator.lower (normalizePath filePath) then
    some (parse ((normalizePath filePath).drop generator.rootNorm.length))
  else none

/-- The path of a file in the output, unless the layout is flat for it
(`html_generator.py:182–191`, `267–276`, `284–298`). -/
def hierarchical? (file : SourceFile) : Option PurePath :=
  if generator.preserveHierarchy = true ∧ generator.sourceRoot ≠ [] then
    generator.resolveRelativePath file.path
  else none

/-! ### Directories -/

/-- The directories above a file (`directory_aggregator.py:83–86`). -/
def directoryPaths (rel : PurePath) : List (List Char) :=
  (List.range rel.parent.parts.length).map fun i ↦ join (rel.parent.parts.take (i + 1))

/-- `_add_file_to_directory` (`directory_aggregator.py:95–120`). -/
def addFileToDirectory (stats : List (List Char × List SourceFile)) (dirPath : List Char)
    (file : SourceFile) : List (List Char × List SourceFile) :=
  Dict.set stats dirPath ((stats.lookup dirPath).getD [] ++ [file])

/-- The body of the loop over the files (`directory_aggregator.py:79–91`). -/
def aggregateFile (stats : List (List Char × List SourceFile)) (file : SourceFile) :
    List (List Char × List SourceFile) :=
  match generator.resolveRelativePath file.path with
  | none => stats
  | some rel => (directoryPaths rel).foldl (fun stats dirPath ↦
      addFileToDirectory stats dirPath file) stats

/-- `directory_stats` after `aggregate` (`directory_aggregator.py:65–93`). -/
def directoryStats : List (List Char × List SourceFile) := files.foldl generator.aggregateFile []

/-- What paths below a directory start with (`directory_aggregator.py:159`). -/
def pathBefore (parentDir : List Char) : List Char :=
  if parentDir = [] then [] else parentDir ++ ['/']

/-- The next directory on the way to a path (`directory_aggregator.py:164–168`). -/
def nextDirectory (parentDir dirPath : List Char) : List Char :=
  let remainder := dirPath.drop (pathBefore parentDir).length
  if '/' ∈ remainder then pathBefore parentDir ++ (remainder.splitOn '/').headD [] else dirPath

/-- The body of the loop over the directories (`directory_aggregator.py:161–171`). -/
def subdirectory? (parentDir dirPath : List Char) : Option (List Char) :=
  if pathBefore parentDir <+: dirPath ∧ nextDirectory parentDir dirPath ≠ parentDir then
    some (nextDirectory parentDir dirPath)
  else none

/-- `get_subdirectories` (`directory_aggregator.py:149–173`). -/
def getSubdirectories (parentDir : List Char) : List (List Char) :=
  (((generator.directoryStats files).map Prod.fst).filterMap (subdirectory? parentDir)).dedup

/-- `get_files_in_directory` (`directory_aggregator.py:175–200`). -/
def getFilesInDirectory (dirPath : List Char) : List SourceFile :=
  (((generator.directoryStats files).lookup dirPath).getD []).filter fun file ↦
    match generator.resolveRelativePath file.path with
    | none => false
    | some rel => normalizePath rel.parent.str = dirPath ∨ dirPath = [] ∧ rel.parent.parts = []

/-! ### References -/

/-- The reference to a file on the index page (`html_generator.py:182–191`): `with_suffix` appends
to the name, and fails where there is none. -/
def indexHref (file : SourceFile) : List Char :=
  match generator.hierarchical? file with
  | none => htmlName (parse file.path).name
  | some rel =>
    if rel.names = [] then htmlName (parse file.path).name
    else
      ({ rel with names := rel.names.dropLast ++ [htmlName rel.name] } : PurePath).str.map fun c ↦
        if c = '\\' then '/' else c

/-- `_build_directory_table_rows` (`html_generator.py:395–427`). -/
def directoryRows (parentDir : List Char) : List Link :=
  (generator.getSubdirectories files parentDir).filterMap fun subdir ↦
    if ((generator.directoryStats files).lookup subdir).isSome then
      some { href := (subdir.splitOn '/').getLastD [] ++ '/' :: indexHtml, item := .directory subdir }
    else none

/-- `_build_files_table_rows` (`html_generator.py:429–475`). -/
def fileRows (dirPath : List Char) : List Link :=
  (generator.getFilesInDirectory files dirPath).map fun file ↦
    { href :=
        match generator.resolveRelativePath file.path with
        | none => htmlName (parse file.path).name
        | some rel => htmlName rel.name
      item := .file file }

/-- `_build_breadcrumb` (`html_generator.py:368–392`): each part shows the directory it ends. -/
def breadcrumb (dirPath : List Char) : List Link :=
  let parts := dirPath.splitOn '/'
  { href := indexAbove parts.length, item := .summary } :: (List.range parts.length).map fun i ↦
      { href := if 0 < parts.length - i - 1 then indexAbove (parts.length - i - 1) else indexHtml
        item := .directory (join (parts.take (i + 1))) }

/-- The back link of a directory (`html_generator.py:347–352`). -/
def directoryBackLink (dirPath : List Char) : Link where
  href :=
    if 1 < (dirPath.splitOn '/').length then indexAbove (dirPath.splitOn '/').length
    else "../index.html".toList
  item := .summary

/-- The back link of a file (`html_generator.py:265–276`). -/
def fileBackLink (file : SourceFile) : Link where
  href :=
    match generator.hierarchical? file with
    | none => indexHtml
    | some rel =>
      if 0 < rel.parent.parts.length then indexAbove rel.parent.parts.length else indexHtml
  item := .summary

/-! ### Pages -/

/-- `_generate_index` (`html_generator.py:133–209`). -/
def indexPage : Page where
  item := .summary
  directory := {}
  name := indexHtml
  links := (if generator.preserveHierarchy then generator.directoryRows files [] else []) ++
    files.map fun file ↦ { href := generator.indexHref file, item := .file file }

/-- `_generate_directory_page` (`html_generator.py:318–366`). -/
def directoryPage (dirPath : List Char) : Page where
  item := .directory dirPath
  directory := Location.resolve {} dirPath
  name := indexHtml
  links := breadcrumb dirPath ++ generator.directoryRows files dirPath ++
    generator.fileRows files dirPath ++ [directoryBackLink dirPath]

/-- `_generate_file_report` (`html_generator.py:211–301`). -/
def filePage (file : SourceFile) : Page where
  item := .file file
  directory :=
    match generator.hierarchical? file with
    | none => {}
    | some rel => Location.descend {} rel.parent
  name :=
    match generator.hierarchical? file with
    | none => htmlName (parse file.path).name
    | some rel => htmlName rel.name
  links := [generator.fileBackLink file]

/-- The pages in the order in which they are written. -/
def pages : List Page :=
  generator.indexPage files :: (if generator.preserveHierarchy then
      (generator.directoryStats files).map fun entry ↦ generator.directoryPage files entry.1
    else []) ++
    files.map generator.filePage

/-- `generate_report` (`html_generator.py:98–131`) into an empty directory; `none` is an error of
`mkdir` or `open`. -/
def generateReport : Option (List Page) :=
  if (FileTree.addAll {} ((generator.pages files).map fun page ↦
      (page.directory, page.name))).isSome then
    some (generator.pages files)
  else none

end HtmlGenerator
end Hisab.Coverage.Html
