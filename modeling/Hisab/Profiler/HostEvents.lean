import Hisab.Base.MachineIntegers
import Hisab.Profiler.Annotation
import Hisab.Profiler.LineHandles
import Hisab.Profiler.SplitEvents

/-!
# Host events

`convert_complete_events_to_xplane` of `Library/Profiler/native/cpu/host_tracer_utils.cpp`: what
`traceme_recorder` has collected becomes the lines of the host plane. A name is split from its
metadata, and metadata of an event may get a name to be shown in place of its own.
-/

namespace Hisab.Profiler

open Base

/-- `is_complete`. -/
def Event.isComplete (e : Event) : Bool := 0 < e.startTime ∧ 0 < e.endTime

/-- What is behind the last `::`, if there is any. -/
def behindLastSeparator : List Char → Option (List Char)
  | [] => none
  | c :: name =>
    match behindLastSeparator name with
    | some behind => some behind
    | none => if c = ':' ∧ name.head? = some ':' then some name.tail else none

/-- `op_type`: what is behind the first `:`. -/
def opType (name : List Char) : List Char := (name.dropWhile fun c ↦ c ≠ ':').tail

/-- `may_add_display_name`, `host_tracer_utils.cpp:58–101`. -/
def mayAddDisplayName (metadata : XEventMetadata) : XEventMetadata :=
  if metadata.displayName ≠ [] then metadata
  else
    let name := metadata.name.rdropWhile isSpace
    if opType name ≠ [] then { metadata with displayName := opType name }
    else if "Iterator::".toList.isPrefixOf name then
      { metadata with displayName := (behindLastSeparator name).getD [] }
    else metadata

/-- `std::stoll` with the number of characters it has read; none where it throws. -/
def stoll (str : List Char) : Option (Int × Nat) :=
  let number := str.dropWhile isSpace
  let negative := number.head? = some '-'
  let digits := if negative ∨ number.head? = some '+' then number.tail else number
  let value : Int := (digits.takeWhile Char.isDigit).foldl
    (fun value c ↦ 10 * value + (c.toNat - '0'.toNat : Nat)) 0
  if digits.takeWhile Char.isDigit = [] then none
  else (I64.ofInt? (if negative then -value else value)).map fun value ↦
    (value.val, str.length - (digits.dropWhile Char.isDigit).length)

/-- `parse_and_add_stat_value`, `host_tracer_utils.cpp:104–142`; `stod` is `std::stod` with the
number of characters it has read. -/
def parseStatValue (stod : List Char → Option (Double × Nat)) (str : List Char) : XStatValue :=
  match (stoll str).filter fun read ↦ read.2 = str.length with
  | some (value, _) => .int64 value
  | none =>
    match (stod str).filter fun read ↦ read.2 = str.length with
    | some (value, _) => .double value
    | none => .str str

namespace XPlaneBuilder

/-- A change of metadata of an event through a pointer to it. -/
def modifyEventMetadata (b : XPlaneBuilder) (id : Int) (f : XEventMetadata → XEventMetadata) :
    XPlaneBuilder :=
  { b with plane := { b.plane with
      eventMetadata := setEntry id (f (b.plane.getEventMetadata id)) b.plane.eventMetadata } }

end XPlaneBuilder

/-- The name and the metadata of an event; without metadata the name is taken as it is. -/
def Event.annotated (e : Event) : Annotation :=
  if hasMetadata e.name.toList then parseAnnotation e.name.toList
  else { name := e.name.toList, metadata := [] }

/-- Whether an event becomes one of the plane. -/
def Event.isShown (startTimestampNs : UInt64) (e : Event) : Bool :=
  e.isComplete ∧ (I64.ofSizeT startTimestampNs.toNat).val ≤ e.startTime

/-- The event that is added to a line. -/
def Event.onLine (e : Event) (metadataId : Int) (stats : List XStat) (line : XLine) : XEvent where
  metadataId
  data := .offset ((e.startTime - line.timestampNs) * 1000)
  durationPs := (e.endTime - line.timestampNs) * 1000 - (e.startTime - line.timestampNs) * 1000
  stats

/-- The body of the loop over the events of a thread, `host_tracer_utils.cpp:158–207`. -/
def convertEvent (stod : List Char → Option (Double × Nat)) (startTimestampNs : UInt64)
    (line : LinePtr) (b : XPlaneBuilder) (e : Event) : Option XPlaneBuilder :=
  if e.isShown startTimestampNs then
    let annotated := e.annotated
    let (metadata, b) := b.getOrCreateEventMetadata annotated.name
    let b := b.modifyEventMetadata metadata mayAddDisplayName
    let metadataId := (b.plane.getEventMetadata metadata).id
    let (stats, b) := XPlaneBuilder.makeStats
      (annotated.metadata.map fun arg ↦ (arg.key, parseStatValue stod arg.value)) b
    b.modifyLine line fun l ↦ l.addEvent (e.onLine metadataId stats l)
  else some b

/-- The body of the loop over the threads. -/
def convertThread (grow : Nat → Nat) (stod : List Char → Option (Double × Nat))
    (startTimestampNs : UInt64) (b : XPlaneBuilder) (thread : EventList) :
    Option XPlaneBuilder := do
  let (line, b) := b.getOrCreateLine grow thread.1.tid
  let b ← b.modifyLine line fun l ↦ { l with name := thread.1.name.toList }
  let b ← b.modifyLine line fun l ↦
    { l with timestampNs := (I64.ofSizeT startTimestampNs.toNat).val }
  thread.2.foldlM (convertEvent stod startTimestampNs line) b

/-- `sort_xlines_by` with `xlines_comparator_by_name`. -/
def sortXlinesByName (lines : List XLine) : List XLine :=
  let label := fun line : XLine ↦ if line.displayName = [] then line.name else line.displayName
  lines.mergeSort fun a b ↦ decide (¬ label b < label a)

/-- `convert_complete_events_to_xplane`, `host_tracer_utils.cpp:146–212`; none where the behaviour
is undefined. -/
def convertCompleteEventsToXplane (grow : Nat → Nat) (capacity : Nat)
    (stod : List Char → Option (Double × Nat)) (startTimestampNs : UInt64)
    (events : List EventList) (rawPlane : XPlane) : Option XPlane := do
  let b ← events.foldlM (convertThread grow stod startTimestampNs) (.ofPlane rawPlane capacity)
  return { b.plane with lines := sortXlinesByName b.plane.lines }

/-- `NormalizeTimestamps` of a plane, `xplane_utils.cpp:372–381`. -/
def normalizeTimestamps (startTimeNs : UInt64) (plane : XPlane) : XPlane :=
  { plane with lines := plane.lines.map fun line ↦
      if (I64.ofSizeT startTimeNs.toNat).val ≤ line.timestampNs then
        let timestampNs := (line.timestampNs - (startTimeNs.toNat : Int)) % 2 ^ 64
        { line with timestampNs := (I64.ofSizeT timestampNs.toNat).val }
      else line }

end Hisab.Profiler
