import Mathlib.Data.List.DropRight

/-!
# Metadata of trace names

`traceme_encode` and `append_metadata` of `Library/Profiler/native/tracing/traceme_encode.h`
and the reader `parse_annotation` of `Library/Profiler/native/utils/parse_annotation.cpp`.
A `std::string` is the list of its characters.
-/

namespace Hisab.Profiler

/-- `TraceMeArg`, its value already rendered. -/
structure TraceMeArg where
  key : List Char
  value : List Char
  deriving DecidableEq, Repr

/-- `annotation`; an entry of its metadata is a key and a value. -/
structure Annotation where
  name : List Char
  metadata : List TraceMeArg
  deriving DecidableEq, Repr

/-! ### Writing -/

/-- What the loop of `append_args` writes for one argument. -/
def TraceMeArg.written (arg : TraceMeArg) : List Char := arg.key ++ '=' :: arg.value ++ [',']

/-- `append_args`, `traceme_encode.h:195–222`; the last separator becomes the closing mark. -/
def appendArgs (name : List Char) (args : List TraceMeArg) : List Char :=
  if args = [] then name
  else (name ++ '#' :: args.flatMap TraceMeArg.written).dropLast ++ ['#']

/-- `traceme_encode`. -/
def tracemeEncode (name : List Char) (args : List TraceMeArg) : List Char := appendArgs name args

/-- `append_metadata`, `traceme_encode.h:246–264`. -/
def appendMetadata (name newMetadata : List Char) : List Char :=
  if newMetadata = [] then name
  else if name.getLast? = some '#' then
    name.dropLast ++ ',' :: (if newMetadata.head? = some '#' then newMetadata.tail else newMetadata)
  else name ++ newMetadata

/-! ### Reading -/

/-- `std::isspace` in the C locale. -/
def isSpace (c : Char) : Bool :=
  c = ' ' || c = '\t' || c = '\n' || c = '\x0b' || c = '\x0c' || c = '\r'

/-- `strip_whitespace`, `parse_annotation.cpp:52–69`. -/
def stripWhitespace (str : List Char) : List Char := (str.dropWhile isSpace).rdropWhile isSpace

/-- `split_string`, `parse_annotation.cpp:72–97`, after `splits` splits; `0` as `maxSplits`
is no limit. -/
def splitString (delimiter : Char) (maxSplits : Nat) : Nat → List Char → List (List Char)
  | _, [] => [[]]
  | splits, c :: str =>
    if c = delimiter ∧ ¬ (0 < maxSplits ∧ maxSplits ≤ splits) then
      [] :: splitString delimiter maxSplits (splits + 1) str
    else
      match splitString delimiter maxSplits splits str with
      | part :: parts => (c :: part) :: parts
      | [] => [[c]]

/-- `has_metadata`. -/
def hasMetadata (annotationStr : List Char) : Bool := annotationStr.getLast? = some '#'

/-- `split_name_and_metadata`, `parse_annotation.cpp:100–131`: the first two parts. -/
def splitNameAndMetadata (annotationStr : List Char) : List Char × List Char :=
  if hasMetadata annotationStr then
    match splitString '#' 0 0 annotationStr.dropLast with
    | name :: metadata :: _ => (name, metadata)
    | [name] => (name, [])
    | [] => ([], [])
  else (annotationStr, [])

/-- A closing bracket takes its opening one off the top of the stack. -/
def popQuote (opening : Char) : List Char → List Char
  | top :: quotes => if top = opening then quotes else top :: quotes
  | [] => []

/-- The stack of open quotes and brackets after `ch`, `parse_annotation.cpp:143–195`. -/
def scanQuote (quotes : List Char) (ch : Char) : List Char :=
  if ch = '\x22' ∨ ch = '\x27' then
    match quotes with
    | top :: rest => if top = ch then rest else ch :: top :: rest
    | [] => [ch]
  else if ch = '\x7b' ∨ ch = '(' ∨ ch = '[' then ch :: quotes
  else if ch = '\x7d' then popQuote '\x7b' quotes
  else if ch = ')' then popQuote '(' quotes
  else if ch = ']' then popQuote '[' quotes
  else quotes

/-- A finished piece is kept if it has more than one character. -/
def keepPiece (piece : List Char) (pieces : List (List Char)) : List (List Char) :=
  if 1 < piece.length then piece :: pieces else pieces

/-- `split_pairs`, `parse_annotation.cpp:135–208`, in the middle of `piece`. -/
def splitPairs (quotes piece : List Char) : List Char → List (List Char)
  | [] => keepPiece piece []
  | ch :: metadata =>
    if ch = ',' ∧ quotes = [] then keepPiece piece (splitPairs [] [] metadata)
    else splitPairs (scanQuote quotes ch) (piece ++ [ch]) metadata

/-- One pair of `parse_metadata`. -/
def parsePair (pair : List Char) : Option TraceMeArg :=
  match splitString '=' 1 0 pair with
  | [part, part'] =>
    let key := stripWhitespace part
    let value := stripWhitespace part'
    if key ≠ [] ∧ value ≠ [] then some { key, value } else none
  | _ => none

/-- `parse_metadata`, `parse_annotation.cpp:211–233`. -/
def parseMetadata (metadata : List Char) : List TraceMeArg :=
  (splitPairs [] [] metadata).filterMap parsePair

/-- `parse_annotation`, `parse_annotation.cpp:237–251`. -/
def parseAnnotation (annotationStr : List Char) : Annotation :=
  let parts := splitNameAndMetadata annotationStr
  { name := stripWhitespace parts.1, metadata := parseMetadata parts.2 }

/-! ### Laws of the helpers -/

/-- What is stripped is whitespace. -/
theorem exists_strip (str : List Char) : ∃ before after,
    str = before ++ stripWhitespace str ++ after ∧ (∀ c ∈ before, isSpace c = true) ∧
      ∀ c ∈ after, isSpace c = true := by
  refine ⟨str.takeWhile isSpace, (str.dropWhile isSpace).rtakeWhile isSpace, ?_,
    fun c hc ↦ List.mem_takeWhile_imp hc, fun c hc ↦ List.mem_rtakeWhile_imp hc⟩
  rw [List.append_assoc, stripWhitespace, List.rdropWhile_append_rtakeWhile,
    List.takeWhile_append_dropWhile]

/-- Text without the delimiter is one part. -/
theorem splitString_of_not_mem {delimiter : Char} {str : List Char} (h : delimiter ∉ str)
    (maxSplits splits : Nat) : splitString delimiter maxSplits splits str = [str] := by
  induction str with
  | nil => rfl
  | cons c str ih =>
    rw [List.mem_cons, not_or] at h
    have hc : ¬ (c = delimiter ∧ ¬ (0 < maxSplits ∧ maxSplits ≤ splits)) := fun hc ↦ h.1 hc.1.symm
    rw [splitString, if_neg hc, ih h.2]

/-- The first part ends at the first delimiter. -/
theorem splitString_append {delimiter : Char} {str : List Char} (h : delimiter ∉ str)
    {maxSplits splits : Nat} (hmore : ¬ (0 < maxSplits ∧ maxSplits ≤ splits)) (rest : List Char) :
    splitString delimiter maxSplits splits (str ++ delimiter :: rest) =
      str :: splitString delimiter maxSplits (splits + 1) rest := by
  induction str with
  | nil => rw [List.nil_append, splitString, if_pos ⟨rfl, hmore⟩]
  | cons c str ih =>
    rw [List.mem_cons, not_or] at h
    have hc : ¬ (c = delimiter ∧ ¬ (0 < maxSplits ∧ maxSplits ≤ splits)) := fun hc ↦ h.1 hc.1.symm
    rw [List.cons_append, splitString, if_neg hc, ih h.2]

/-- After the last split allowed the rest is one part. -/
theorem splitString_limit {delimiter : Char} {maxSplits splits : Nat} (hpos : 0 < maxSplits)
    (hle : maxSplits ≤ splits) (str : List Char) :
    splitString delimiter maxSplits splits str = [str] := by
  induction str with
  | nil => rfl
  | cons c str ih => rw [splitString, if_neg (fun h ↦ h.2 ⟨hpos, hle⟩), ih]

end Hisab.Profiler
