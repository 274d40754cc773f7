import Hisab.Base.Numbers

/-!
# XPlane data

`Library/Profiler/native/exporters/xplane/xplane.h` and the readers of `xplane_visitor.h`. An
`int64_t` is an `Int`, a `std::map` the list of its entries, and a `std::string` or a vector of
bytes the list of its characters.
-/

namespace Hisab.Profiler

open Base

/-- `value_` of an `xstat`. -/
inductive XStatValue
  | double (val : Double)
  | uint64 (val : Nat)
  | int64 (val : Int)
  | str (val : List Char)
  | bytes (val : List Char)
  deriving DecidableEq, Repr

structure XStat where
  metadataId : Int := 0
  refValue : Bool := false
  value : XStatValue := .double default
  deriving DecidableEq, Repr

structure XEventMetadata where
  id : Int := 0
  name : List Char := []
  displayName : List Char := []
  metadata : List Char := []
  stats : List XStat := []
  childId : List Int := []
  deriving DecidableEq, Repr

structure XStatMetadata where
  id : Int := 0
  name : List Char := []
  description : List Char := []
  deriving DecidableEq, Repr

/-- `data_` of an `xevent`: an offset, or the two members of `Data`. -/
inductive XEventData
  | offset (offsetPs : Int)
  | data (offsetPs numOccurrences : Int)
  deriving DecidableEq, Repr

structure XEvent where
  metadataId : Int := 0
  data : XEventData := .offset 0
  durationPs : Int := 0
  stats : List XStat := []
  deriving DecidableEq, Repr

structure XLine where
  id : Int := 0
  displayId : Int := 0
  name : List Char := []
  displayName : List Char := []
  timestampNs : Int := 0
  durationPs : Int := 0
  events : List XEvent := []
  deriving DecidableEq, Repr

structure XPlane where
  id : Int := 0
  name : List Char := []
  lines : List XLine := []
  eventMetadata : List (Int × XEventMetadata) := []
  statMetadata : List (Int × XStatMetadata) := []
  stats : List XStat := []
  deriving DecidableEq, Repr

/-- The planes of an `x_space`. -/
structure XSpace where
  planes : List XPlane := []
  deriving DecidableEq, Repr

namespace XStat

variable (stat : XStat)

/-- `value_case`: the reference, or the kind of the value. -/
def isRef : Bool :=
  match stat.refValue, stat.value with
  | true, .int64 _ => true
  | _, _ => false

def int64Value : Int :=
  match stat.value with
  | .int64 val => val
  | _ => 0

def uint64Value : Nat :=
  match stat.value with
  | .uint64 val => val
  | _ => 0

/-- `ref_value`. -/
def refValueId : Int :=
  match stat.refValue, stat.value with
  | true, .int64 val => val
  | _, _ => 0

end XStat

namespace XEvent

variable (event : XEvent)

def offsetPs : Int :=
  match event.data with
  | .offset offsetPs => offsetPs
  | .data .. => 0

def numOccurrences : Int :=
  match event.data with
  | .offset _ => 0
  | .data _ numOccurrences => numOccurrences

/-- `is_aggregated_event`. -/
def isAggregatedEvent : Bool :=
  match event.data with
  | .offset _ => false
  | .data .. => true

end XEvent

/-- `pico_to_nano`, whose division truncates. -/
def picoToNano (ps : Int) : Int := ps.tdiv 1000

/-- `get_event_metadata` of the visitor: a default value if there is none. -/
def XPlane.getEventMetadata (plane : XPlane) (eventMetadataId : Int) : XEventMetadata :=
  (plane.eventMetadata.lookup eventMetadataId).getD {}

/-- `get_stat_metadata` of the visitor. -/
def XPlane.getStatMetadata (plane : XPlane) (statMetadataId : Int) : XStatMetadata :=
  (plane.statMetadata.lookup statMetadataId).getD {}

end Hisab.Profiler

/-!
## The plane builder

`xplane_builder` and `xline_builder` of
`Library/Profiler/native/exporters/xplane/xplane_builder.cpp`. The lines of a plane are a
`std::vector`: when one more is added to a full vector all of them move, and the pointers to
them are gone. Entries of a `std::map` stay where they are.
-/

namespace Hisab.Profiler

open Base

/-- A pointer to a line, made after so many moves of the lines. -/
structure LinePtr where
  generation : Nat
  index : Nat
  deriving DecidableEq, Repr

/-- `xplane_builder` with the plane that it builds, the capacity of the vector of lines and how
often the lines have moved; a pointer to an entry of a map is the key of the entry. -/
structure XPlaneBuilder where
  plane : XPlane
  capacity : Nat := 0
  generation : Nat := 0
  lastEventMetadataId : Int := 0
  lastStatMetadataId : Int := 0
  eventMetadataByName : List (List Char × Int) := []
  statMetadataByName : List (List Char × Int) := []
  linesById : List (Int × LinePtr) := []
  deriving DecidableEq, Repr

/-- A vector that doubles when it is full. -/
def doubled (capacity : Nat) : Nat := max 1 (2 * capacity)

/-- `map[key] = value`, in the order of the keys. -/
def setEntry {V : Type} (key : Int) (value : V) : List (Int × V) → List (Int × V)
  | [] => [(key, value)]
  | (k, v) :: entries =>
    if k = key then (k, value) :: entries
    else if key < k then (key, value) :: (k, v) :: entries
    else (k, v) :: setEntry key value entries

/-- `emplace`, which keeps an entry that is there. -/
def emplace {K V : Type} [DecidableEq K] (key : K) (value : V) (entries : List (K × V)) :
    List (K × V) :=
  if (entries.lookup key).isSome then entries else entries ++ [(key, value)]

namespace XPlaneBuilder

variable (b : XPlaneBuilder)

/-- The constructor, `xplane_builder.cpp:50–75`. -/
def ofPlane (plane : XPlane) (capacity : Nat) : XPlaneBuilder where
  plane
  capacity
  lastEventMetadataId := plane.eventMetadata.foldl (fun last entry ↦ max last entry.2.id) 0
  lastStatMetadataId := plane.statMetadata.foldl (fun last entry ↦ max last entry.2.id) 0
  eventMetadataByName := plane.eventMetadata.foldl (fun names entry ↦
    if entry.2.name ≠ [] then emplace entry.2.name entry.1 names else names) []
  statMetadataByName := plane.statMetadata.foldl (fun names entry ↦
    if entry.2.name ≠ [] then emplace entry.2.name entry.1 names else names) []
  linesById := plane.lines.zipIdx.foldl (fun lines entry ↦
    emplace entry.1.id { generation := 0, index := entry.2 } lines) []

/-- `add_lines`; `grow` is the capacity after a full vector has got one more element. -/
def addLine (grow : Nat → Nat) (line : XLine) : XPlaneBuilder :=
  let lines := b.plane.lines
  if lines.length = b.capacity then
    { b with
      plane := { b.plane with lines := lines ++ [line] }
      capacity := grow b.capacity
      generation := b.generation + 1 }
  else { b with plane := { b.plane with lines := lines ++ [line] } }

/-- `get_or_create_line`, `xplane_builder.cpp:187–196`. -/
def getOrCreateLine (grow : Nat → Nat) (lineId : Int) : LinePtr × XPlaneBuilder :=
  match b.linesById.lookup lineId with
  | some line => (line, b)
  | none =>
    let b := b.addLine grow { id := lineId }
    let line : LinePtr := { generation := b.generation, index := b.plane.lines.length - 1 }
    (line, { b with linesById := (lineId, line) :: b.linesById })

/-- The line that a pointer refers to; there is none after the lines have moved. -/
def line? (line : LinePtr) : Option XLine :=
  if line.generation = b.generation then b.plane.lines[line.index]? else none

/-- A change of a line through a pointer; the use of one that is gone is undefined. -/
def modifyLine (line : LinePtr) (f : XLine → XLine) : Option XPlaneBuilder :=
  if (b.line? line).isSome then
    some { b with plane := { b.plane with lines := b.plane.lines.modify line.index f } }
  else none

/-- `get_or_create_event_metadata(name)` with `create_event_metadata`. -/
def getOrCreateEventMetadata (name : List Char) : Int × XPlaneBuilder :=
  match b.eventMetadataByName.lookup name with
  | some id => (id, b)
  | none =>
    let id := b.lastEventMetadataId + 1
    let metadata := b.plane.getEventMetadata id
    (id, { b with
        plane := { b.plane with
          eventMetadata := setEntry id { metadata with id, name } b.plane.eventMetadata }
        lastEventMetadataId := id
        eventMetadataByName := (name, id) :: b.eventMetadataByName })

/-- `get_or_create_stat_metadata(name)` with `CreateStatMetadata`. -/
def getOrCreateStatMetadata (name : List Char) : Int × XPlaneBuilder :=
  match b.statMetadataByName.lookup name with
  | some id => (id, b)
  | none =>
    let id := b.lastStatMetadataId + 1
    let metadata := b.plane.getStatMetadata id
    (id, { b with
        plane := { b.plane with
          statMetadata := setEntry id { metadata with id, name } b.plane.statMetadata }
        lastStatMetadataId := id
        statMetadataByName := (name, id) :: b.statMetadataByName })

/-- `add_stat_value` with the metadata of a name, for each name in order. -/
def makeStats : List (List Char × XStatValue) → XPlaneBuilder → List XStat × XPlaneBuilder
  | [], b => ([], b)
  | (name, value) :: stats, b =>
    let (metadataId, b) := b.getOrCreateStatMetadata name
    let (rest, b) := makeStats stats b
    ({ metadataId, value } :: rest, b)

end XPlaneBuilder

end Hisab.Profiler
