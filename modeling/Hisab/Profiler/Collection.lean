import Hisab.Base.StableSort
import Mathlib

/-!
# Records and their call tree

The results of `Library/Profiler/bespoke/common/collection.cpp` that are function ops and
allocations, with the pointers among them; `build_tree`, which replays their starts and ends, and
`adjust_timestamps`, which lays children out within their parents. Times are integers; what the
sources do on an overflow of `int64_t` is not modelled. A result is named by its pointer.
-/

namespace Hisab.Profiler.Collection

open Base Function

/-- `std::numeric_limits<time_t>::min()`, the mark of an op without an end. -/
def minTime : Int := -2 ^ 63

/-- The fields of `ExtraFields` that the call tree is built from. -/
inductive ExtraFields
  | functionOp (endTimeNs : Int) (forwardTid : Nat)
  | allocation
  deriving DecidableEq, Repr

/-- `Result` (`collection.h:202–273`). -/
structure Result where
  startTimeNs : Int
  startTid : Nat
  extraFields : ExtraFields
  parent : Option Nat := none
  children : List Nat := []
  finished : Bool := false
  deriving DecidableEq, Repr

/-- The end in the fields of a result. -/
def Result.end_ (r : Result) : Int :=
  match r.extraFields with
  | .functionOp endTimeNs _ => endTimeNs
  | .allocation => r.startTimeNs

abbrev Results := Nat → Result

/-- `Result::endTimeNS` (`collection.cpp:223–236`, `collection.cpp:293–309`). A finished op without
an end has that of its parent; at most `n` parents are gone through. -/
def endTimeNs (results : Results) : Nat → Nat → Int
  | n, x =>
    let r := results x
    let borrowed := match n with
      | 0 => none
      | n + 1 => r.parent.map (endTimeNs results n)
    let endTime := match r.extraFields with
      | .functionOp e _ => if r.finished ∧ e = minTime then borrowed.getD e else e
      | .allocation => r.startTimeNs
    if ¬ r.finished ∨ endTime ≥ r.startTimeNs then endTime else r.startTimeNs

/-- The results, the innermost open one of each thread, and those whose end is to come. -/
structure TreeState where
  results : Results
  threadStacks : Nat → Option Nat := fun _ ↦ none
  endEvents : List Nat := []

variable (n : Nat)

def markFinished (results : Results) (x : Nat) : Results :=
  update results x { results x with finished := true }

/-- `event->parent_ = parent; parent->children_.push_back(event)`. -/
def addChild (results : Results) (parent event : Nat) : Results :=
  let results := update results event { results event with parent := some parent }
  update results parent { results parent with children := (results parent).children ++ [event] }

def link (results : Results) (event : Nat) : Option Nat → Results
  | some parent => addChild results parent event
  | none => results

namespace TreeState

variable (s : TreeState)

/-- The frame a new event is put on (`collection.cpp:990–1001`). -/
def findParent (event : Nat) : Option Nat :=
  match s.threadStacks (s.results event).startTid with
  | some parent => some parent
  | none =>
    match (s.results event).extraFields with
    | .functionOp _ forwardTid => if forwardTid ≠ 0 then s.threadStacks forwardTid else none
    | .allocation => none

/-- `push_event` (`collection.cpp:971–1022`). -/
def pushEvent (event : Nat) : TreeState :=
  let results := link s.results event (s.findParent event)
  let threadStacks := update s.threadStacks (results event).startTid (some event)
  if endTimeNs results n event > (results event).startTimeNs then
    { results := results, threadStacks := threadStacks, endEvents := event :: s.endEvents }
  else if endTimeNs results n event = minTime then { s with results := results, threadStacks := threadStacks }
  else { s with results := markFinished results event }

/-- The frames from the innermost one up to an event are finished; none if there is no frame any
more or `n` are not enough. -/
def unwindTo (event : Nat) : Nat → Results → Nat → Option Results
  | 0, _, _ => none
  | n + 1, results, frame =>
    if frame = event then some results
    else
      let results := markFinished results frame
      match (results frame).parent with
      | none => none
      | some frame => unwindTo event n results frame

/-- `pop_event` (`collection.cpp:1024–1050`); none if it looks up a missing entry or follows an
expired parent. -/
def popEvent (event : Nat) : Option TreeState :=
  if (s.results event).finished then some s
  else
    match s.threadStacks (s.results event).startTid with
    | none => none
    | some frame =>
      match unwindTo event n s.results frame with
      | none => none
      | some results =>
        some { s with
          results := markFinished results event
          threadStacks := update s.threadStacks (results event).startTid (results event).parent }

/-- While the next end has come, it is popped, `k` times at most. -/
def popWhile (queue : MinQueue Nat Int) (ended : Int → Bool) : Nat → TreeState → Option TreeState
  | 0, s => some s
  | k + 1, s =>
    match queue.top (endTimeNs s.results n) s.endEvents with
    | none => some s
    | some event =>
      if ended (endTimeNs s.results n event) then
        match s.popEvent n event with
        | none => none
        | some s => popWhile queue ended k { s with endEvents := s.endEvents.erase event }
      else some s

/-- The ends before the start of an event are popped, and it is pushed. -/
def replay (queue : MinQueue Nat Int) (s : TreeState) (event : Nat) : Option TreeState :=
  match popWhile n queue (fun e ↦ decide (e < (s.results event).startTimeNs))
      s.endEvents.length s with
  | none => none
  | some s => some (s.pushEvent n event)

end TreeState

/-- `build_tree` (`collection.cpp:962–1071`). -/
def buildTree (queue : MinQueue Nat Int) (results : Results) (sortedEvents : List Nat) :
    Option Results := do
  let n := sortedEvents.length
  let s ← sortedEvents.foldlM (TreeState.replay n queue) { results := results }
  let s ← TreeState.popWhile n queue (fun _ ↦ true) s.endEvents.length s
  return s.results

/-! ### Adjusted times -/

/-- `i.end_time_ns_ = end`, for a function op; an allocation has no end. -/
def setEnd (results : Results) (x : Nat) (endTime : Int) : Results :=
  match (results x).extraFields with
  | .functionOp _ f => update results x { results x with extraFields := .functionOp endTime f }
  | .allocation => results

/-- `adjust_durations_dfs` (`collection.cpp:1073–1110`), at most `k` calls deep. -/
def adjustDurationsDfs : Nat → Results → Nat → Option (Results × Int)
  | 0, _, _ => none
  | k + 1, results, r => do
    let originalDuration := endTimeNs results n r - (results r).startTimeNs
    let (results, childrenTotal) ← (results r).children.foldlM (fun state child ↦ do
      let (results, duration) ← adjustDurationsDfs k state.1 child
      return (results, state.2 + duration)) (results, 0)
    if childrenTotal > originalDuration then
      return (setEnd results r ((results r).startTimeNs + childrenTotal), childrenTotal)
    else return (results, originalDuration)

/-- A new start with the same duration. -/
def shift (results : Results) (x : Nat) (newStart : Int) : Results :=
  let r := results x
  update results x { r with
    startTimeNs := newStart
    extraFields := match r.extraFields with
      | .functionOp e f => .functionOp (newStart + (e - r.startTimeNs)) f
      | .allocation => .allocation }

/-- `adjust_timestamps_dfs` (`collection.cpp:1112–1156`), at most `k` calls deep. -/
def adjustTimestampsDfs : Nat → Results → Nat → Int → Option (Results × Int)
  | 0, _, _, _ => none
  | k + 1, results, r, newStart => do
    let results := if (results r).startTimeNs ≠ newStart then shift results r newStart else results
    let childrenTotal := ((results r).children.map fun child ↦
      endTimeNs results n child - (results child).startTimeNs).sum
    let childStart := endTimeNs results n r - childrenTotal
    let (results, _) ← (results r).children.foldlM
      (fun state child ↦ adjustTimestampsDfs k state.1 child state.2) (results, childStart)
    return (results, endTimeNs results n r)

/-- The adjustment of a root; other events are passed over. -/
def adjustRoot (state : Results × Int) (r : Nat) : Option (Results × Int) :=
  if (state.1 r).parent = none then do
    let (results, _) ← adjustDurationsDfs n n state.1 r
    adjustTimestampsDfs n n results r (max (results r).startTimeNs state.2)
  else some state

/-- `adjust_timestamps` (`collection.cpp:1158–1184`). -/
def adjustTimestamps (results : Results) (out : List Nat) : Option Results :=
  match out with
  | [] => some results
  | first :: _ => do
    let (results, _) ← out.foldlM (adjustRoot n) (results, (results first).startTimeNs)
    return results

/-- The tree is thrown away. -/
def resetTree (results : Results) (out : List Nat) : Results := fun x ↦
  if x ∈ out then { results x with parent := none, children := [], finished := false }
  else results x

/-- What `getRecords` goes through: the events in the order of their starts with their tree, the
adjusted times, the new order and the new tree. -/
structure Rebuild where
  sorted : List Nat
  tree : Results
  adjusted : Results
  resorted : List Nat
  rebuilt : Results

/-- `getRecords` with `adjust_timestamps` (`collection.cpp:1301–1326`), where no Kineto events are
added. -/
def adjustAndRebuild (queue : MinQueue Nat Int) (results : Results) (out : List Nat) :
    Option Rebuild := do
  let sorted := sortBy (fun x ↦ (results x).startTimeNs) out
  let tree ← buildTree queue results sorted
  let adjusted ← adjustTimestamps out.length tree sorted
  let cleared := resetTree adjusted sorted
  let resorted := sortBy (fun x ↦ (cleared x).startTimeNs) sorted
  let rebuilt ← buildTree queue cleared resorted
  return ⟨sorted, tree, adjusted, resorted, rebuilt⟩

end Hisab.Profiler.Collection
