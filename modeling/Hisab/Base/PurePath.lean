import Mathlib.Data.List.Infix

/-!
# Paths and the locations they name

`pathlib.PurePosixPath` on lists of characters: a path is its root and its names, `..` among them,
with the empty names and `.` dropped. A location is what a path names from a directory when every `..`
goes one directory up; a path that leaves the directory at the top counts the directories it went
up, and one with a root stays there.
-/

namespace Hisab.Base

open List

/-- A path: its root, which is empty, `/` or `//`, and its names. -/
structure PurePath where
  root : List Char := []
  names : List (List Char) := []
  deriving DecidableEq, Repr

namespace PurePath

/-- The root of a path as it is written: three slashes and more are one. -/
def rootOf : List Char → List Char
  | '/' :: '/' :: '/' :: _ => ['/']
  | '/' :: '/' :: _ => ['/', '/']
  | '/' :: _ => ['/']
  | _ => []

/-- A name of a path. -/
def IsName (name : List Char) : Prop := name ≠ [] ∧ name ≠ ['.'] ∧ '/' ∉ name

def names? (text : List Char) : List (List Char) :=
  (text.splitOn '/').filter fun name ↦ name ≠ [] ∧ name ≠ ['.']

/-- `Path(text)`. -/
def parse (text : List Char) : PurePath where
  root := rootOf text
  names := names? text

/-- `"/".join(names)`. -/
def join (names : List (List Char)) : List Char := ['/'].intercalate names

variable (path : PurePath)

/-- `str(path)`. -/
def str : List Char :=
  if path.root = [] ∧ path.names = [] then ['.'] else path.root ++ join path.names

/-- `path.name`. -/
def name : List Char := path.names.getLastD []

/-- `path.parent`. -/
def parent : PurePath := { path with names := path.names.dropLast }

/-- `path.parts`. -/
def parts : List (List Char) := if path.root = [] then path.names else path.root :: path.names

end PurePath

/-- A location below a directory, or below one of the directories above it, or below a root; the
innermost name comes first. -/
structure Location where
  root : List Char := []
  up : Nat := 0
  inner : List (List Char) := []
  deriving DecidableEq, Repr

namespace Location

/-- One name further; above a root there is nothing. -/
def enter (location : Location) (name : List Char) : Location :=
  if name = ['.', '.'] then
    match location.inner with
    | _ :: inner => { location with inner }
    | [] => if location.root = [] then { location with up := location.up + 1 } else location
  else { location with inner := name :: location.inner }

def walk (location : Location) (names : List (List Char)) : Location := names.foldl enter location

/-- `directory / path`. -/
def descend (directory : Location) (path : PurePath) : Location :=
  if path.root = [] then directory.walk path.names else Location.walk { root := path.root } path.names

/-- What a relative reference names that stands on a page of the directory. -/
def resolve (directory : Location) (reference : List Char) : Location :=
  directory.descend (PurePath.parse reference)

/-- The location that names lead to from the directory where everything starts. -/
def below (names : List (List Char)) : Location := { inner := names.reverse }

/-- A file of a directory. -/
def file (directory : Location) (name : List Char) : Location :=
  { directory with inner := name :: directory.inner }

end Location

namespace PurePath

variable {name text : List Char} {names : List (List Char)}

/-! ### Text and names -/

theorem not_mem_of_mem_splitOn {c : Char} {part : List Char} (h : part ∈ text.splitOn c) :
    c ∉ part := by
  induction text generalizing part with
  | nil =>
    rw [splitOn_nil, mem_singleton] at h
    simp [h]
  | cons d text ih =>
    rw [splitOn_cons_eq_if_modifyHead] at h
    split at h
    · cases mem_cons.mp h with
      | inl h => simp [h]
      | inr h => exact ih h
    · next hd =>
      cases hsplit : text.splitOn c with
      | nil => exact absurd hsplit (splitOn_ne_nil c text)
      | cons first rest =>
        rw [hsplit] at h ih
        cases mem_cons.mp h with
        | inl h =>
          rw [h, mem_cons, not_or]
          constructor
          · intro hc
            exact hd (by simp [hc])
          · exact ih mem_cons_self
        | inr h => exact ih (mem_cons_of_mem _ h)

/-- A part has characters of the text alone. -/
theorem mem_of_mem_splitOn {c d : Char} {part : List Char} (h : part ∈ text.splitOn c)
    (hd : d ∈ part) : d ∈ text := by
  induction text generalizing part with
  | nil =>
    rw [splitOn_nil, mem_singleton] at h
    rw [h] at hd
    exact hd
  | cons e text ih =>
    rw [splitOn_cons_eq_if_modifyHead] at h
    split at h
    · cases mem_cons.mp h with
      | inl h =>
        rw [h] at hd
        cases hd
      | inr h => exact mem_cons_of_mem _ (ih h hd)
    · cases hsplit : text.splitOn c with
      | nil => exact absurd hsplit (splitOn_ne_nil c text)
      | cons first rest =>
        rw [hsplit] at h ih
        cases mem_cons.mp h with
        | inl h =>
          rw [h] at hd
          cases mem_cons.mp hd with
          | inl hd => exact hd ▸ mem_cons_self
          | inr hd => exact mem_cons_of_mem _ (ih mem_cons_self hd)
        | inr h => exact mem_cons_of_mem _ (ih (mem_cons_of_mem _ h) hd)

theorem isName_of_mem (h : name ∈ names? text) : IsName name := by
  rw [names?, mem_filter] at h
  have hname := of_decide_eq_true h.2
  exact ⟨hname.1, hname.2, not_mem_of_mem_splitOn h.1⟩

theorem names?_append (a b : List Char) : names? (a ++ '/' :: b) = names? a ++ names? b := by
  rw [names?, splitOn_append_cons_self, filter_append]
  rfl

/-- A name by itself. -/
theorem names?_of_isName (h : IsName name) : names? name = [name] := by
  rw [names?, splitOn_eq_singleton h.2.2]
  simp [h.1, h.2.1]

theorem join_cons (hnames : names ≠ []) : join (name :: names) = name ++ '/' :: join names := by
  rw [join, intercalate_cons_of_ne_nil hnames, append_assoc]
  rfl

theorem join_singleton (name : List Char) : join [name] = name := by simp [join]

/-- Joined names with one more name behind them. -/
theorem join_concat (hnames : names ≠ []) (name : List Char) :
    join (names ++ [name]) = join names ++ '/' :: name := by
  induction names with
  | nil => exact absurd rfl hnames
  | cons first names ih =>
    by_cases hrest : names = []
    · subst hrest
      rw [cons_append, nil_append, join_cons (by simp), join_singleton, join_singleton]
    · rw [cons_append, join_cons (by simp), ih hrest, join_cons hrest, append_assoc]
      rfl

theorem names?_join (h : ∀ name ∈ names, IsName name) : names? (join names) = names := by
  induction names with
  | nil => rfl
  | cons name names ih =>
    have hname := h name mem_cons_self
    by_cases hnames : names = []
    · subst hnames
      rw [join_singleton]
      exact names?_of_isName hname
    · rw [join_cons hnames, names?_append, names?_of_isName hname,
        ih fun n hn ↦ h n (mem_cons_of_mem _ hn)]
      rfl

/-- What starts with another character than a slash has no root. -/
theorem rootOf_of_ne {c : Char} (hc : c ≠ '/') (rest : List Char) : rootOf (c :: rest) = [] := by
  rw [rootOf]
  · intro _ hcons
    exact hc (cons.inj hcons).1
  · intro _ hcons
    exact hc (cons.inj hcons).1
  · intro _ hcons
    exact hc (cons.inj hcons).1

/-- What starts with a name has no root. -/
theorem rootOf_of_isName (h : IsName name) (rest : List Char) : rootOf (name ++ rest) = [] := by
  cases name with
  | nil => exact absurd rfl h.1
  | cons c name =>
    apply rootOf_of_ne
    intro hc
    exact h.2.2 (by simp [hc])

theorem rootOf_join (h : ∀ name ∈ names, IsName name) : rootOf (join names) = [] := by
  cases names with
  | nil => rfl
  | cons name names =>
    have hname := h name mem_cons_self
    by_cases hnames : names = []
    · subst hnames
      have hroot := rootOf_of_isName hname []
      rw [append_nil] at hroot
      rw [join_singleton]
      exact hroot
    · rw [join_cons hnames]
      exact rootOf_of_isName hname _

/-- Names that are joined are read back. -/
theorem parse_join (h : ∀ name ∈ names, IsName name) : parse (join names) = { names } := by
  rw [parse, names?_join h, rootOf_join h]

end PurePath

namespace Location

variable {location : Location} {a b names : List (List Char)} {name : List Char}

/-! ### Going down and up -/

theorem walk_append (location : Location) (a b : List (List Char)) :
    location.walk (a ++ b) = (location.walk a).walk b := foldl_append

theorem enter_of_ne (location : Location) (h : name ≠ ['.', '.']) :
    location.enter name = location.file name := by
  rw [enter, if_neg h, file]

theorem enter_up_nil (hroot : location.root = []) (hinner : location.inner = []) :
    location.enter ['.', '.'] = { location with up := location.up + 1 } := by
  simp [enter, hinner, hroot]

theorem enter_up_cons {top : List Char} (hinner : location.inner = top :: names) :
    location.enter ['.', '.'] = { location with inner := names } := by
  simp [enter, hinner]

/-- Without `..` every name is entered. -/
theorem walk_of_notMem (location : Location) (h : ['.', '.'] ∉ names) :
    location.walk names = { location with inner := names.reverse ++ location.inner } := by
  induction names generalizing location with
  | nil => rfl
  | cons name names ih =>
    rw [mem_cons, not_or] at h
    have hwalk := ih (location.enter name) h.2
    rw [enter_of_ne _ (Ne.symm h.1)] at hwalk
    change (location.enter name).walk names = _
    rw [enter_of_ne _ (Ne.symm h.1), hwalk, reverse_cons, append_assoc]
    rfl

theorem walk_below (a : List (List Char)) (h : ['.', '.'] ∉ b) :
    (below a).walk b = below (a ++ b) := by
  rw [walk_of_notMem _ h, below, below, reverse_append]

theorem file_below (a : List (List Char)) (name : List Char) :
    (below a).file name = below (a ++ [name]) := by
  rw [below, below, reverse_append]
  rfl

theorem below_inj : below a = below b ↔ a = b := by
  constructor
  · intro h
    exact reverse_injective (congrArg inner h)
  · intro h
    rw [h]

/-- As many `..` as names lead back. -/
theorem walk_up (a b : List (List Char)) :
    (below (a ++ b)).walk (List.replicate b.length ['.', '.']) = below a := by
  induction b using reverseRecOn with
  | nil =>
    rw [append_nil]
    rfl
  | append_singleton b name ih =>
    rw [length_append]
    have henter : (below (a ++ (b ++ [name]))).enter ['.', '.'] = below (a ++ b) := by
      rw [← append_assoc, below, reverse_append]
      rfl
    change ((below (a ++ (b ++ [name]))).enter ['.', '.']).walk _ = _
    rw [henter, ih]

/-! ### What a walk keeps -/

theorem root_enter (location : Location) (name : List Char) :
    (location.enter name).root = location.root := by
  rw [enter]
  split
  · split
    · rfl
    · split
      · rfl
      · rfl
  · rfl

theorem root_walk (location : Location) (names : List (List Char)) :
    (location.walk names).root = location.root := by
  induction names generalizing location with
  | nil => rfl
  | cons name names ih =>
    change ((location.enter name).walk names).root = _
    rw [ih, root_enter]

/-- How far below the starting directory a location is. -/
def height (location : Location) : Int := location.inner.length - location.up

theorem height_file (location : Location) (name : List Char) :
    (location.file name).height = location.height + 1 := by
  change ((location.inner.length + 1 : Nat) : Int) - location.up = _
  rw [height]
  omega

theorem height_enter (hroot : location.root = []) (name : List Char) :
    (location.enter name).height =
      if name = ['.', '.'] then location.height - 1 else location.height + 1 := by
  by_cases hname : name = ['.', '.']
  · rw [hname]
    cases hinner : location.inner with
    | nil =>
      rw [enter_up_nil hroot hinner, height, height, hinner]
      change (0 : Int) - (location.up + 1 : Nat) = (0 : Nat) - location.up - 1
      omega
    | cons top inner =>
      rw [enter_up_cons hinner, height, height, hinner]
      change (inner.length : Int) - location.up = (inner.length + 1 : Nat) - location.up - 1
      omega
  · rw [if_neg hname, enter_of_ne _ hname, height_file]

/-- A walk goes down with every name and up with every `..`. -/
theorem height_walk (hroot : location.root = []) (names : List (List Char)) :
    (location.walk names).height = location.height + names.length - 2 * names.count ['.', '.'] := by
  induction names generalizing location with
  | nil =>
    change location.height = location.height + (0 : Nat) - 2 * (0 : Nat)
    omega
  | cons name names ih =>
    change ((location.enter name).walk names).height = _
    rw [ih (by rw [root_enter, hroot]), height_enter hroot, length_cons, count_cons]
    by_cases h : name = ['.', '.']
    · rw [if_pos h, if_pos (by simp [h])]
      omega
    · rw [if_neg h, if_neg (by simp [h])]
      omega

/-- A name that a walk leaves was there or was entered. -/
theorem mem_inner_walk (h : name ∈ (location.walk names).inner) :
    name ∈ location.inner ∨ name ∈ names := by
  induction names generalizing location with
  | nil => exact .inl h
  | cons next names ih =>
    have hstep : name ∈ (location.enter next).inner ∨ name ∈ names := ih h
    cases hstep with
    | inr h => exact .inr (mem_cons_of_mem _ h)
    | inl h =>
      rw [enter] at h
      split at h
      · split at h
        · next hinner =>
          rw [hinner]
          exact .inl (mem_cons_of_mem _ h)
        · next hinner =>
          split at h
          · rw [hinner] at h
            cases h
          · exact .inl h
      · cases mem_cons.mp h with
        | inl h => exact .inr (by simp [h])
        | inr h => exact .inl h

/-- Below the starting directory there are names of the path alone. -/
theorem mem_inner_descend {path : PurePath} (h : name ∈ (Location.descend {} path).inner) :
    name ∈ path.names := by
  have hwalk : ∀ start : Location, start.inner = [] → name ∈ (start.walk path.names).inner →
      name ∈ path.names := by
    intro start hstart hmem
    cases mem_inner_walk hmem with
    | inl hmem =>
      rw [hstart] at hmem
      cases hmem
    | inr hmem => exact hmem
  rw [descend] at h
  split at h
  · exact hwalk _ rfl h
  · exact hwalk _ rfl h

/-! ### References -/

open PurePath (IsName join)

/-- A reference that is joined from names walks along them. -/
theorem resolve_join (location : Location) (h : ∀ name ∈ names, IsName name) :
    location.resolve (join names) = location.walk names := by
  rw [resolve, PurePath.parse_join h, descend, if_pos rfl]

theorem isName_up : IsName ['.', '.'] := by refine ⟨by decide, by decide, by decide⟩

/-- A reference to a file of the directory itself. -/
theorem resolve_name (location : Location) (hname : IsName name) (hup : name ≠ ['.', '.']) :
    location.resolve name = location.file name := by
  have hnames : ∀ n ∈ [name], IsName n := by simpa using hname
  rw [← PurePath.join_singleton name, resolve_join _ hnames, PurePath.join_singleton,
    ← enter_of_ne _ hup]
  rfl

end Location
end Hisab.Base

/-!
## Files written into a tree of directories

A file is written after the directories above it are made. `mkdir` fails where one of them is a
file already and `open` where the file is a directory, so that all files of a list are written when
none of them is a directory above another one.
-/

namespace Hisab.Base

namespace Location

/-- A directory and the directories above it. -/
def ancestors (directory : Location) : List Location :=
  directory.inner.tails.map fun inner ↦ { directory with inner }

theorem mem_ancestors_below {a b : List (List Char)} : below a ∈ (below b).ancestors ↔ a <+: b := by
  rw [ancestors, List.mem_map]
  constructor
  · intro ⟨inner, hmem, heq⟩
    have hinner : inner = a.reverse := congrArg Location.inner heq
    rw [List.mem_tails, hinner] at hmem
    exact List.reverse_suffix.mp hmem
  · intro h
    exact ⟨a.reverse, (List.mem_tails ..).mpr (List.reverse_suffix.mpr h), rfl⟩

end Location

/-- The files and the directories that were made. -/
structure FileTree where
  files : List Location := []
  directories : List Location := []
  deriving DecidableEq, Repr

namespace FileTree

/-- `directory.mkdir(parents=True, exist_ok=True)`. -/
def mkdir (tree : FileTree) (directory : Location) : Option FileTree :=
  if ∃ file ∈ tree.files, file ∈ directory.ancestors then none
  else some { tree with directories := directory.ancestors ++ tree.directories }

/-- `open(file, 'w')`. -/
def write (tree : FileTree) (file : Location) : Option FileTree :=
  if file ∈ tree.directories then none else some { tree with files := file :: tree.files }

/-- A file with its directories. -/
def add (tree : FileTree) (directory : Location) (name : List Char) : Option FileTree :=
  (tree.mkdir directory).bind fun tree ↦ tree.write (directory.file name)

/-- Files one after the other. -/
def addAll (tree : FileTree) : List (Location × List Char) → Option FileTree
  | [] => some tree
  | (directory, name) :: rest => (tree.add directory name).bind fun tree ↦ tree.addAll rest

variable {tree : FileTree} {directory : Location} {name : List Char}

/-- The tree with one more file. -/
def placed (tree : FileTree) (directory : Location) (name : List Char) : FileTree where
  files := directory.file name :: tree.files
  directories := directory.ancestors ++ tree.directories

/-- A file fits into a tree. -/
structure Fits (tree : FileTree) (directory : Location) (name : List Char) : Prop where
  above : ∀ file ∈ tree.files, file ∉ directory.ancestors
  own : directory.file name ∉ directory.ancestors
  free : directory.file name ∉ tree.directories

theorem add_of_fits (h : tree.Fits directory name) :
    tree.add directory name = some (tree.placed directory name) := by
  have hmkdir : ¬ ∃ file ∈ tree.files, file ∈ directory.ancestors := by
    intro ⟨file, hfile, hmem⟩
    exact h.above file hfile hmem
  have hwrite : directory.file name ∉ directory.ancestors ++ tree.directories := by
    rw [List.mem_append, not_or]
    exact ⟨h.own, h.free⟩
  rw [add, mkdir, if_neg hmkdir, Option.bind_some, write, if_neg hwrite, placed]

theorem add_of_not_fits (h : ¬ tree.Fits directory name) : tree.add directory name = none := by
  by_cases hmkdir : ∃ file ∈ tree.files, file ∈ directory.ancestors
  · rw [add, mkdir, if_pos hmkdir, Option.bind_none]
  · have hwrite : directory.file name ∈ directory.ancestors ++ tree.directories := by
      by_contra hnot
      rw [List.mem_append, not_or] at hnot
      apply h
      constructor
      · intro file hfile hmem
        exact hmkdir ⟨file, hfile, hmem⟩
      · exact hnot.1
      · exact hnot.2
    rw [add, mkdir, if_neg hmkdir, Option.bind_some, write, if_pos hwrite]

/-- All files fit into a tree and next to each other. -/
structure AllFit (tree : FileTree) (pages : List (Location × List Char)) : Prop where
  above : ∀ page ∈ pages, ∀ file ∈ tree.files, file ∉ page.1.ancestors
  free : ∀ page ∈ pages, page.1.file page.2 ∉ tree.directories
  apart : ∀ page ∈ pages, ∀ other ∈ pages, page.1.file page.2 ∉ other.1.ancestors

variable {pages : List (Location × List Char)}

/-- All fit when the first one does and the others fit after it. -/
theorem allFit_cons : tree.AllFit ((directory, name) :: pages) ↔
    tree.Fits directory name ∧ (tree.placed directory name).AllFit pages := by
  constructor
  · intro h
    constructor
    · exact ⟨h.above _ List.mem_cons_self, h.apart _ List.mem_cons_self _ List.mem_cons_self,
        h.free _ List.mem_cons_self⟩
    · constructor
      · intro page hpage file hfile
        cases List.mem_cons.mp hfile with
        | inl hfile =>
          rw [hfile]
          exact h.apart _ List.mem_cons_self _ (List.mem_cons_of_mem _ hpage)
        | inr hfile => exact h.above _ (List.mem_cons_of_mem _ hpage) _ hfile
      · intro page hpage hmem
        cases List.mem_append.mp hmem with
        | inl hmem => exact h.apart _ (List.mem_cons_of_mem _ hpage) _ List.mem_cons_self hmem
        | inr hmem => exact h.free _ (List.mem_cons_of_mem _ hpage) hmem
      · intro page hpage other hother
        exact h.apart _ (List.mem_cons_of_mem _ hpage) _ (List.mem_cons_of_mem _ hother)
  · intro ⟨hfits, h⟩
    constructor
    · intro page hpage file hfile
      cases List.mem_cons.mp hpage with
      | inl hpage =>
        rw [hpage]
        exact hfits.above file hfile
      | inr hpage => exact h.above page hpage file (List.mem_cons_of_mem _ hfile)
    · intro page hpage
      cases List.mem_cons.mp hpage with
      | inl hpage =>
        rw [hpage]
        exact hfits.free
      | inr hpage =>
        intro hmem
        exact h.free page hpage (List.mem_append_right _ hmem)
    · intro page hpage other hother
      cases List.mem_cons.mp hpage with
      | inl hpage =>
        rw [hpage]
        cases List.mem_cons.mp hother with
        | inl hother =>
          rw [hother]
          exact hfits.own
        | inr hother => exact h.above other hother _ List.mem_cons_self
      | inr hpage =>
        cases List.mem_cons.mp hother with
        | inl hother =>
          rw [hother]
          intro hmem
          exact h.free page hpage (List.mem_append_left _ hmem)
        | inr hother => exact h.apart page hpage other hother

/-- Files are all written when they all fit. -/
theorem isSome_addAll : (tree.addAll pages).isSome ↔ tree.AllFit pages := by
  induction pages generalizing tree with
  | nil =>
    constructor
    · intro _
      exact ⟨nofun, nofun, nofun⟩
    · intro _
      rfl
  | cons page pages ih =>
    rw [addAll, allFit_cons, ← ih]
    by_cases hfits : tree.Fits page.1 page.2
    · rw [add_of_fits hfits]
      exact (and_iff_right hfits).symm
    · rw [add_of_not_fits hfits]
      simp [hfits]

/-- Into an empty tree files are all written when none is a directory above another one. -/
theorem isSome_addAll_empty : (addAll {} pages).isSome ↔
    ∀ page ∈ pages, ∀ other ∈ pages, page.1.file page.2 ∉ other.1.ancestors := by
  rw [isSome_addAll]
  constructor
  · intro h
    exact h.apart
  · intro h
    exact ⟨nofun, nofun, h⟩

end FileTree
end Hisab.Base
