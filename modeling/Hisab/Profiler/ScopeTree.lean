import Hisab.Base.Forest
import Hisab.Base.StableSort
import Hisab.Profiler.XPlane
import Mathlib.Algebra.Order.Ring.Int

/-!
# The scope tree

`build_scope_tree` of `Library/Profiler/native/session/scope_tree_builder.cpp`: the events of
each line of the host threads, sorted by start, are nested by what is still open. Times are
nanoseconds.
-/

namespace Hisab.Profiler

open Base

/-- `flat_event`; `recorded` is the position of the event in its line, which tells events of the
same name and interval apart. -/
structure FlatEvent where
  startNs : Int
  endNs : Int
  name : List Char
  recorded : Nat
  deriving DecidableEq, Repr

/-- `event_display_name`, `scope_tree_builder.cpp:53–64`. -/
def eventDisplayName (metadata : XEventMetadata) : List Char :=
  if metadata.displayName ≠ [] then metadata.displayName
  else if metadata.name ≠ [] then metadata.name
  else "TraceEvent".toList

/-- `line_thread_label`, `scope_tree_builder.cpp:66–74`. -/
def lineThreadLabel (line : XLine) : List Char :=
  let displayName := if line.displayName ≠ [] then line.displayName else line.name
  if displayName ≠ [] then displayName else "thread ".toList ++ (toString line.id).toList

/-- The events of a line as they are recorded; aggregated events are left out. -/
def lineEvents (plane : XPlane) (line : XLine) : List FlatEvent :=
  line.events.zipIdx.filterMap fun (event, recorded) ↦
    if event.isAggregatedEvent then none
    else
      let startNs := line.timestampNs + picoToNano event.offsetPs
      let durationNs := max 0 (picoToNano event.durationPs)
      some
        { startNs
          endNs := startNs + durationNs
          name := eventDisplayName (plane.getEventMetadata event.metadataId)
          recorded }

/-- `collect_line_events`, `scope_tree_builder.cpp:76–103`: a stable sort by start. -/
def collectLineEvents (plane : XPlane) (line : XLine) : List FlatEvent :=
  sortBy FlatEvent.startNs (lineEvents plane line)

/-- `profiler_scope_data`, its name and its times those of the event it is made from. -/
structure ScopeData where
  event : FlatEvent
  depthLevel : Nat := 0
  threadLabel : List Char := []
  deriving DecidableEq, Repr

/-- The synthetic root with its children. -/
structure ScopeTree where
  root : ScopeData
  children : Forest ScopeData

/-- The body of the loop of `nest_line_events`, `scope_tree_builder.cpp:114–136`; the ancestors
that have ended are closed. -/
def nestLineEvent (threadLabel : List Char) (openAncestors : Spine ScopeData) (event : FlatEvent) :
    Spine ScopeData :=
  let openAncestors := openAncestors.closeWhile fun node ↦ decide (node.event.endNs ≤ event.startNs)
  let parentDepth := (openAncestors.top.map ScopeData.depthLevel).getD 0
  openAncestors.push { event, depthLevel := parentDepth + 1, threadLabel }

/-- `nest_line_events` under a root that has children already. -/
def nestLineEvents (events : List FlatEvent) (threadLabel : List Char)
    (children : Forest ScopeData) : Forest ScopeData :=
  (events.foldl (nestLineEvent threadLabel) { roots := children }).toForest

/-- `kHostThreadsPlaneName`. -/
def hostThreadsPlaneName : List Char := "/host:CPU".toList

/-- The lines of the host threads, each with its plane. -/
def hostLines (space : XSpace) : List (XPlane × XLine) :=
  (space.planes.filter fun plane ↦ plane.name = hostThreadsPlaneName).flatMap fun plane ↦
    plane.lines.map fun line ↦ (plane, line)

/-- What a line does to `found_events` and to the children of the root. -/
def nestLine (found : Bool × Forest ScopeData) (hostLine : XPlane × XLine) :
    Bool × Forest ScopeData :=
  let events := collectLineEvents hostLine.1 hostLine.2
  if events = [] then found
  else (true, nestLineEvents events (lineThreadLabel hostLine.2) found.2)

/-- `build_scope_tree`, `scope_tree_builder.cpp:140–170`. -/
def buildScopeTree (space : XSpace) : Option ScopeTree :=
  let found := (hostLines space).foldl nestLine (false, .nil)
  if found.1 then
    some
      { root := { event := { startNs := 0, endNs := 0, name := "ROOT".toList, recorded := 0 } }
        children := found.2 }
  else none

end Hisab.Profiler
