import Hisab.Base.MachineIntegers
import Hisab.Profiler.LineHandles

/-!
# The export of GPU events

`gpu_trace_collector` of `Library/Profiler/native/gpu/gpu_event_collector.cpp`: the events of each
device go to the plane of the device, those of a stream to its line. The order in which the
devices are gone through is that of a hash map, thus any.
-/

namespace Hisab.Profiler

open Base

inductive GpuTracerEventType
  | unsupported | kernel | memcpyH2d | memcpyD2h | memcpyD2d | memset
  deriving DecidableEq, Repr

structure GpuTracerEvent where
  type : GpuTracerEventType := .kernel
  deviceId : UInt32 := 0
  streamId : UInt32 := 0
  correlationId : UInt32 := 0
  startTimeNs : UInt64 := 0
  endTimeNs : UInt64 := 0
  name : List Char := []
  deriving DecidableEq, Repr

/-- `event_type_name`. -/
def eventTypeName : GpuTracerEventType → Option (List Char)
  | .memcpyH2d => some "MemcpyH2D".toList
  | .memcpyD2h => some "MemcpyD2H".toList
  | .memcpyD2d => some "MemcpyD2D".toList
  | .memset => some "Memset".toList
  | .kernel | .unsupported => none

/-- `GpuPlaneName` of an ordinal that is cast to `int32_t`. -/
def gpuPlaneName (ordinal : UInt32) : List Char :=
  "/device:GPU:".toList ++ (toString ordinal.toBitVec.toInt).toList

/-- `NanoToPico` of a time that is cast to `int64_t`; an overflow is undefined. -/
def nanoToPico (ns : UInt64) : Option I64 := I64.ofInt? ((I64.ofSizeT ns.toNat).val * 1000)

/-- `add_event` of the collector. -/
def collectEvent (events : List GpuTracerEvent) (event : GpuTracerEvent) : List GpuTracerEvent :=
  events ++ [{ event with endTimeNs := max event.endTimeNs event.startTimeNs }]

/-- The ids of the metadata of the stats of one plane. -/
structure GpuStatMetadata where
  corrMeta : Int
  streamMeta : Int
  kernelMeta : Int
  memcpyMeta : Int
  memsetMeta : Int
  deriving DecidableEq, Repr

def gpuStatMetadata (b : XPlaneBuilder) : GpuStatMetadata × XPlaneBuilder :=
  let (corrMeta, b) := b.getOrCreateStatMetadata "correlation_id".toList
  let (streamMeta, b) := b.getOrCreateStatMetadata "stream".toList
  let (kernelMeta, b) := b.getOrCreateStatMetadata "kernel_details".toList
  let (memcpyMeta, b) := b.getOrCreateStatMetadata "memcpy_details".toList
  let (memsetMeta, b) := b.getOrCreateStatMetadata "Memset_details".toList
  let id := fun metadata ↦ (b.plane.getStatMetadata metadata).id
  ({ corrMeta := id corrMeta
     streamMeta := id streamMeta
     kernelMeta := id kernelMeta
     memcpyMeta := id memcpyMeta
     memsetMeta := id memsetMeta }, b)

namespace GpuTracerEvent

variable (event : GpuTracerEvent)

/-- `event_name`. -/
def exportName : List Char :=
  let eventName := if event.name = [] then (eventTypeName event.type).getD event.name else event.name
  if eventName = [] then "unknown".toList else eventName

/-- The stats that are added to the event. -/
def exportStats (stats : GpuStatMetadata) : List XStat :=
  { metadataId := stats.streamMeta, value := .int64 event.streamId.toNat } :: (match event.type with
      | .kernel => [{ metadataId := stats.kernelMeta, value := .str event.exportName }]
      | .memset => [{ metadataId := stats.memsetMeta, value := .str event.exportName }]
      | .unsupported => []
      | .memcpyH2d | .memcpyD2h | .memcpyD2d =>
        [{ metadataId := stats.memcpyMeta, value := .str event.exportName }]) ++
    if event.correlationId ≠ 0 then
      [{ metadataId := stats.corrMeta, value := .int64 event.correlationId.toNat }]
    else []

/-- The `timespan` from `beginPs` to `endPs` as an offset and a duration. -/
def exportTimes : Option (I64 × I64) := do
  let beginPs := (← nanoToPico event.startTimeNs).toSizeT
  let endPs := (← nanoToPico event.endTimeNs).toSizeT
  return (I64.ofSizeT beginPs, I64.ofSizeT (if beginPs > endPs then 0 else endPs - beginPs))

end GpuTracerEvent

/-- `line_origin` with the start of one event more; the latest entry counts. -/
def noteOrigin (lineOrigin : List (UInt32 × UInt64)) (event : GpuTracerEvent) :
    List (UInt32 × UInt64) :=
  match lineOrigin.lookup event.streamId with
  | none => (event.streamId, event.startTimeNs) :: lineOrigin
  | some origin => (event.streamId, min origin event.startTimeNs) :: lineOrigin

/-- The body of the loop over the events of a device, `gpu_event_collector.cpp:139–177`. -/
def exportEvent (grow : Nat → Nat) (stats : GpuStatMetadata) (lineOrigin : List (UInt32 × UInt64))
    (b : XPlaneBuilder) (event : GpuTracerEvent) : Option XPlaneBuilder := do
  let (line, b) := b.getOrCreateLine grow event.streamId.toNat
  let origin := (I64.ofSizeT ((lineOrigin.lookup event.streamId).getD 0).toNat).val
  let b ← b.modifyLine line fun l ↦
    LineSetter.set l (.setName ("stream ".toList ++ (toString event.streamId.toNat).toList))
  let b ← b.modifyLine line fun l ↦ LineSetter.set l (.setTimestampNs origin)
  let (offsetPs, durationPs) ← event.exportTimes
  let (metadata, b) := b.getOrCreateEventMetadata event.exportName
  b.modifyLine line fun l ↦ l.addEvent
    { metadataId := (b.plane.getEventMetadata metadata).id
      data := .offset offsetPs.val
      durationPs := durationPs.val
      stats := event.exportStats stats }

/-- The export of the events of one device into its plane. -/
def exportDevice (grow : Nat → Nat) (capacity : Nat) (ordinal : UInt32)
    (deviceEvts : List GpuTracerEvent) (plane : XPlane) : Option XPlane := do
  let b := XPlaneBuilder.ofPlane plane capacity
  let (stats, b) := gpuStatMetadata { b with plane := { b.plane with name := gpuPlaneName ordinal } }
  let lineOrigin := deviceEvts.foldl noteOrigin []
  let b ← deviceEvts.foldlM (exportEvent grow stats lineOrigin) b
  return b.plane

/-- The export of one device: its plane is found by name or added. -/
def exportPlane (grow : Nat → Nat) (capacity : Nat → Nat) (events : List GpuTracerEvent)
    (space : XSpace) (ordinal : UInt32) : Option XSpace := do
  let deviceEvts := events.filter fun event ↦ event.deviceId = ordinal
  match space.planes.findIdx? fun plane ↦ plane.name = gpuPlaneName ordinal with
  | some i =>
    let plane ← exportDevice grow (capacity i) ordinal deviceEvts (space.planes.getD i {})
    return { space with planes := space.planes.set i plane }
  | none =>
    let plane ← exportDevice grow 0 ordinal deviceEvts { name := gpuPlaneName ordinal }
    return { space with planes := space.planes ++ [plane] }

/-- `export_xspace`, `gpu_event_collector.cpp:82–181`, with the devices in some order and the
capacities of the vectors of lines that are there; none where the behaviour is undefined. -/
def exportXSpace (grow : Nat → Nat) (capacity : Nat → Nat) (devices : List UInt32)
    (events : List GpuTracerEvent) (space : XSpace) : Option XSpace :=
  devices.foldlM (exportPlane grow capacity events) space

end Hisab.Profiler
