import Mathlib.Data.List.Basic

/-!
# Python strings

`str.strip` and `int` of Python on a list of characters, and the lines of a text file. What the
Unicode database says of a character is a parameter, as is the limit on the digits of an `int`.
-/

namespace Hisab.Base

/-- What `str.isspace` and `unicodedata.decimal` say of a character, and
`sys.get_int_max_str_digits`, where 0 is no limit. -/
structure PythonText where
  isSpace : Char → Bool
  decimal : Char → Option Nat
  maxStrDigits : Nat := 4300

namespace PythonText

variable (py : PythonText)

/-- `str.strip` without arguments. -/
def strip (s : List Char) : List Char :=
  (s.dropWhile py.isSpace).reverse.dropWhile py.isSpace |>.reverse

/-- Decimal digits, with single underscores between them. -/
def digits : List Char → Option (List Nat)
  | [] => none
  | c :: rest =>
    match py.decimal c with
    | none => none
    | some v =>
      match rest with
      | [] => some [v]
      | '_' :: rest => (digits rest).map (v :: ·)
      | rest => (digits rest).map (v :: ·)

/-- The number that a list of digits writes, unless there are too many. -/
def number (s : List Char) : Option Nat :=
  match py.digits s with
  | none => none
  | some ds =>
    if 0 < py.maxStrDigits ∧ py.maxStrDigits < ds.length then none
    else some (ds.foldl (fun n v ↦ 10 * n + v) 0)

/-- `int` of a string; `none` is `ValueError`. -/
def int (s : List Char) : Option Int :=
  match py.strip s with
  | '-' :: rest => (py.number rest).map (fun n ↦ -(n : Int))
  | '+' :: rest => (py.number rest).map (fun n ↦ (n : Int))
  | rest => (py.number rest).map (fun n ↦ (n : Int))

/-- What a text file reads of its characters: every line ends in `\n`. -/
def universalNewlines : List Char → List Char
  | [] => []
  | '\r' :: '\n' :: rest => '\n' :: universalNewlines rest
  | '\r' :: rest => '\n' :: universalNewlines rest
  | c :: rest => c :: universalNewlines rest

/-- The lines of a text file, each with its end. -/
def lines : List Char → List (List Char)
  | [] => []
  | c :: rest =>
    if c = '\n' then [c] :: lines rest
    else
      match lines rest with
      | [] => [[c]]
      | line :: rest => (c :: line) :: rest

/-- The ASCII characters alone. -/
def ascii : PythonText where
  isSpace c := decide (c = ' ' ∨ 9 ≤ c.toNat ∧ c.toNat ≤ 13 ∨ 28 ≤ c.toNat ∧ c.toNat ≤ 31)
  decimal c := if 48 ≤ c.toNat ∧ c.toNat ≤ 57 then some (c.toNat - 48) else none

example : ascii.int [' ', '-', '1', '_', '0', '\n'] = some (-10) := by decide

end PythonText
end Hisab.Base

/-!
## Elements of an XML document

The elements of `xml.etree.ElementTree` with their attributes, and the two searches of `findall`
that name their tags: the children with a tag, and all descendants with one.
-/

namespace Hisab.Base

/-- An element with its tag, its attributes and its children. -/
inductive XmlElement where
  | mk (tag : List Char) (attributes : List (List Char × List Char)) (children : List XmlElement)

namespace XmlElement

def tag : XmlElement → List Char
  | mk tag _ _ => tag

def attributes : XmlElement → List (List Char × List Char)
  | mk _ attributes _ => attributes

def children : XmlElement → List XmlElement
  | mk _ _ children => children

/-- `element.get(key, default)`. -/
def get (element : XmlElement) (key default : List Char) : List Char :=
  (element.attributes.lookup key).getD default

mutual

/-- The elements below an element, in document order. -/
def descendants : XmlElement → List XmlElement
  | mk _ _ children => withDescendants children

def withDescendants : List XmlElement → List XmlElement
  | [] => []
  | child :: rest => child :: (descendants child ++ withDescendants rest)

end

/-- `element.findall(tag)`. -/
def findall (element : XmlElement) (tag : List Char) : List XmlElement :=
  element.children.filter fun child ↦ child.tag = tag

/-- `element.findall(".//" + tag)`. -/
def findallBelow (element : XmlElement) (tag : List Char) : List XmlElement :=
  element.descendants.filter fun child ↦ child.tag = tag

end XmlElement
end Hisab.Base
