import Hisab.Base.DoubleMark
import Hisab.Base.TransitionSystem
import Hisab.Profiler.Annotation
import Mathlib

/-!
# The annotation stack

`annotation_stack` (`Library/Profiler/native/cpu/annotation_stack.cpp`) with any number of
threads, each of which opens and closes scopes as `profiler_scope::start` and `stop` do
(`profiler.cpp:515–539`), while others enable and disable it. A step is one access of the
generation with what the thread then does to its own data. Where a counter would overflow
there is no step.
-/

namespace Hisab.Profiler

open Base Function

/-- `annotations_stack` of one thread: its `std::vector`s have their last element first. -/
structure AnnotationData where
  generation : Nat := 0
  stack : List Nat := []
  string : List Char := []
  scopeRangeIdStack : List Nat := []
  deriving DecidableEq, Repr

/-- `kAnnotationDelimiter`. -/
def annotationDelimiter : List Char := [':', ':']

namespace AnnotationData

/-- `get_annotation_data`, `annotation_stack.cpp:47–66`. -/
def get (generation : Nat) (data : AnnotationData) : AnnotationData :=
  if generation ≠ data.generation then { generation } else data

/-- `push_annotation` behind the access of the generation, `annotation_stack.cpp:70–98`. -/
def push (name : List Char) (scopeRangeId : Nat) (data : AnnotationData) : AnnotationData :=
  { data with
    stack := data.string.length :: data.stack
    string := if data.string ≠ [] then data.string ++ (annotationDelimiter ++ name) else name
    scopeRangeIdStack := scopeRangeId :: data.scopeRangeIdStack }

/-- `pop_annotation` behind the access of the generation, `annotation_stack.cpp:103–117`. -/
def pop (data : AnnotationData) : AnnotationData :=
  match data.stack with
  | [] => { data with string := [], scopeRangeIdStack := [] }
  | size :: stack =>
    { data with
      stack
      string := data.string.take size ++ List.replicate (size - data.string.length) '\x00'
      scopeRangeIdStack := data.scopeRangeIdStack.tail }

end AnnotationData

/-- `is_enabled`, `annotation_stack.h:126`. -/
def isEnabled (generation : Nat) : Bool := generation % 2 = 1

/-- The next generation of `enable`, an `int`, `annotation_stack.cpp:137–150`. -/
def nextGeneration (generation : Nat) : Bool → Option Nat
  | true => some (generation ||| 1)
  | false => if generation + 1 < 2 ^ 31 then some ((generation + 1) / 2 * 2) else none

/-- `parse_annotation_stack`, `parse_annotation.cpp:246–273`. -/
def parseAnnotationStack (annotationStack : List Char) : List Annotation :=
  (splitDoubleNonempty ':' annotationStack).map parseAnnotation

/-- A scope that is open: whether it has pushed its annotation, and whether it has done so
since the last change of the generation. -/
structure AnnotationScope where
  annotation : List Char
  pushed : Bool
  current : Bool
  deriving DecidableEq, Repr

/-- The generation, the counter of scope ids, and of each thread its data, its open scopes with
the innermost first, and the scope it is about to push. -/
structure AnnotationState where
  generation : Nat := 0
  scopeRangeCounter : Nat := 0
  data : Nat → AnnotationData := fun _ ↦ {}
  scopes : Nat → List AnnotationScope := fun _ ↦ []
  pushing : Nat → Option (List Char) := fun _ ↦ none

/-- The steps. A scope is opened by `opens` and, if that finds the stack enabled, `push`. -/
inductive AnnotationStep
  | enable (enable : Bool)
  | opens (t : Nat) ( annotation : List Char)
  | push (t : Nat)
  | close (t : Nat)
  | get (t : Nat)
  deriving DecidableEq, Repr

namespace AnnotationState

variable (s : AnnotationState)

/-- What the thread finds when it accesses its data. -/
def found (t : Nat) : AnnotationData := (s.data t).get s.generation

/-- `annotation_stack::get`, called by the thread. -/
def get (t : Nat) : List Char := (s.found t).string

/-- The scopes that are open and were pushed since the last change, outermost first. -/
def live (t : Nat) : List (List Char) :=
  ((s.scopes t).reverse.filter AnnotationScope.current).map AnnotationScope.annotation

def setThread (t : Nat) (data : AnnotationData) (scopes : List AnnotationScope) : AnnotationState :=
  { s with data := update s.data t data, scopes := update s.scopes t scopes }

def step : AnnotationStep → Option AnnotationState
  | .enable enable => do
    let generation ← nextGeneration s.generation enable
    -- with the generation every scope stops being current
    if generation = s.generation then return s
    else return { s with
      generation, scopes := fun t ↦ (s.scopes t).map fun scope ↦ { scope with current := false } }
  | .opens t annotation =>
    if annotation = [] ∨ s.pushing t ≠ none then none
    else if isEnabled s.generation then
      some { s with pushing := update s.pushing t (some annotation) }
    else
      some (s.setThread t (s.data t) ({ annotation, pushed := false, current := false } :: s.scopes t))
  | .push t => do
    let annotation ← s.pushing t
    let id := s.scopeRangeCounter + 1
    if id < 2 ^ 63 then
      return { s.setThread t ((s.found t).push annotation id)
          ({ annotation, pushed := true, current := true } :: s.scopes t) with
        scopeRangeCounter := id, pushing := update s.pushing t none }
    else none
  | .close t =>
    match s.pushing t, s.scopes t with
    | none, scope :: scopes =>
      some (s.setThread t (if scope.pushed then (s.found t).pop else s.data t) scopes)
    | _, _ => none
  | .get t => if s.pushing t = none then some (s.setThread t (s.found t) (s.scopes t)) else none

end AnnotationState

/-- Threads with annotation scopes. -/
def annotationPrograms : TransitionSystem AnnotationState AnnotationStep where
  init s := s = {}
  step s a s' := s.step a = some s'

end Hisab.Profiler
