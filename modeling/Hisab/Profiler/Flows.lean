import Hisab.Profiler.BuilderMetadata
import Mathlib

/-!
# Flows between events

`AddFlowsToXplane` of `Library/Profiler/native/exporters/xplane/xplane_utils.cpp` as
`profiler_session::stop` applies it to the planes of a space, and `XFlow` of `xplane_schema.h`.
-/

namespace Hisab.Profiler

open Base List XPlaneBuilder

/-- `FlowDirection`. -/
inductive FlowDirection
  | flowUnspecified | flowIn | flowOut | flowInOut
  deriving DecidableEq, Repr

/-- Its two bits. -/
def FlowDirection.bits : FlowDirection → Nat
  | flowUnspecified => 0
  | flowIn => 1
  | flowOut => 2
  | flowInOut => 3

inductive ContextType
  | generic | legacy | tfExecutor | tfrtExecutor | sharedBatchScheduler | pjRt
  | adaptiveSharedBatchScheduler | tfrtTpuRuntime | tpuEmbeddingEngine | gpuLaunch | batcher
  | tpuStream | tpuLaunch | pathwaysExecutor | pjrtLibraryCall | threadpoolEvent
  deriving DecidableEq, Repr

/-- Its value as an integer. -/
def ContextType.bits : ContextType → Nat
  | generic => 0
  | legacy => 1
  | tfExecutor => 2
  | tfrtExecutor => 3
  | sharedBatchScheduler => 4
  | pjRt => 5
  | adaptiveSharedBatchScheduler => 6
  | tfrtTpuRuntime => 7
  | tpuEmbeddingEngine => 8
  | gpuLaunch => 9
  | batcher => 10
  | tpuStream => 11
  | tpuLaunch => 12
  | pathwaysExecutor => 13
  | pjrtLibraryCall => 14
  | threadpoolEvent => 15

/-- `GetSafeContextType` of a value that is cast to `uint32_t`: what is above `tpuLaunch` is
generic. -/
def getSafeContextType (contextType : Nat) : ContextType :=
  match contextType % 2 ^ 32 with
  | 1 => .legacy
  | 2 => .tfExecutor
  | 3 => .tfrtExecutor
  | 4 => .sharedBatchScheduler
  | 5 => .pjRt
  | 6 => .adaptiveSharedBatchScheduler
  | 7 => .tfrtTpuRuntime
  | 8 => .tpuEmbeddingEngine
  | 9 => .gpuLaunch
  | 10 => .batcher
  | 11 => .tpuStream
  | 12 => .tpuLaunch
  | _ => .generic

/-- The arguments that a flow id is the hash of. -/
inductive FlowArgs
  | correlation (hostId : Int) (correlationId : Nat)
  | context (hostId : Int) (id : Nat) (contextType : ContextType)
  deriving DecidableEq, Repr

/-- `XFlow`, its id still as the arguments of the hash. -/
structure XFlow where
  args : FlowArgs
  direction : FlowDirection
  category : ContextType
  deriving DecidableEq, Repr

/-- `HashCombine`. -/
def hashCombine (seed hash : Nat) : Nat :=
  seed ^^^ ((hash + 0x9e3779b9 + seed * 2 ^ 6 + seed / 2 ^ 2) % 2 ^ 64)

/-- `HashOf` with a `std::hash` that takes integers as they are. -/
def integerHashOf : FlowArgs → Nat
  | .correlation hostId correlationId => hashCombine (hostId % 2 ^ 64).toNat correlationId
  | .context hostId id contextType =>
    hashCombine (hashCombine (hostId % 2 ^ 64).toNat id) contextType.bits

/-- `GetFlowId`: 56 bits of the hash. -/
def getFlowId (hashOf : FlowArgs → Nat) (args : FlowArgs) : Nat := hashOf args % 2 ^ 56

namespace XFlow

/-- `ToStatValue`: the direction, the id and the category, from the lowest bits on. -/
def toStatValue (hashOf : FlowArgs → Nat) (flow : XFlow) : Nat :=
  flow.direction.bits + 2 ^ 2 * getFlowId hashOf flow.args + 2 ^ 58 * flow.category.bits

/-- `Id` of `FromStatValue`. -/
def id (encoded : Nat) : Nat := encoded / 2 ^ 2 % 2 ^ 56

/-- The bits of `Direction` of `FromStatValue`. -/
def directionBits (encoded : Nat) : Nat := encoded % 2 ^ 2

theorem id_toStatValue (hashOf : FlowArgs → Nat) (flow : XFlow) :
    id (flow.toStatValue hashOf) = getFlowId hashOf flow.args := by
  have hid : getFlowId hashOf flow.args < 2 ^ 56 := Nat.mod_lt _ (by decide)
  have hdirection : flow.direction.bits < 4 := by cases flow.direction <;> decide
  rw [id, toStatValue]
  omega

theorem directionBits_toStatValue (hashOf : FlowArgs → Nat) (flow : XFlow) :
    directionBits (flow.toStatValue hashOf) = flow.direction.bits := by
  have hdirection : flow.direction.bits < 4 := by cases flow.direction <;> decide
  rw [directionBits, toStatValue]
  omega

end XFlow

/-- `IntOrUintValue`; an `int64_t` is converted to `uint64_t`. -/
def XStat.intOrUintValue (stat : XStat) : Nat :=
  match stat.value with
  | .uint64 val => val
  | .int64 val => (val % 2 ^ 64).toNat
  | _ => 0

/-- The ids of the stats that flows are made from; none where there is no metadata. -/
structure FlowMetadata where
  correlationId : Option Int
  producerType : Option Int
  consumerType : Option Int
  producerId : Option Int
  consumerId : Option Int
  deriving DecidableEq, Repr

/-- The values that have been read from the stats of an event. -/
structure FlowSources where
  correlationId : Option Nat := none
  producerType : Option Nat := none
  consumerType : Option Nat := none
  producerId : Option Nat := none
  consumerId : Option Nat := none
  deriving DecidableEq, Repr

/-- The loop over the stats, `xplane_utils.cpp:561–596`. -/
def readStat (metadata : FlowMetadata) (connectTraceme : Bool) (sources : FlowSources)
    (stat : XStat) : FlowSources :=
  if metadata.correlationId = some stat.metadataId then
    { sources with correlationId := some stat.uint64Value }
  else if connectTraceme then
    if metadata.producerType = some stat.metadataId then
      { sources with producerType := some stat.intOrUintValue }
    else if metadata.consumerType = some stat.metadataId then
      { sources with consumerType := some stat.intOrUintValue }
    else if metadata.producerId = some stat.metadataId then
      { sources with producerId := some stat.intOrUintValue }
    else if metadata.consumerId = some stat.metadataId then
      { sources with consumerId := some stat.intOrUintValue }
    else sources
  else sources

/-- The flows of an event, `xplane_utils.cpp:597–624`. -/
def eventFlows (hostId : Int) (direction : FlowDirection) (connectTraceme : Bool)
    (sources : FlowSources) : List XFlow :=
  (match sources.correlationId with
    | some correlationId =>
      [{ args := .correlation hostId correlationId, direction, category := .gpuLaunch }]
    | none => []) ++
  if connectTraceme then
    (match sources.producerType, sources.producerId with
      | some producerType, some producerId =>
        let contextType := getSafeContextType producerType
        [{ args := .context hostId producerId contextType
           direction := .flowOut
           category := contextType }]
      | _, _ => []) ++
    (match sources.consumerType, sources.consumerId with
      | some consumerType, some consumerId =>
        let contextType := getSafeContextType consumerType
        [{ args := .context hostId consumerId contextType
           direction := .flowIn
           category := contextType }]
      | _, _ => [])
  else []

namespace XPlaneBuilder

/-- `stat_metadata(name)` and its id. -/
def statMetadataId (b : XPlaneBuilder) (name : List Char) : Option Int :=
  (b.statMetadataByName.lookup name).map fun metadata ↦ (b.plane.getStatMetadata metadata).id

/-- The metadata that `AddFlowsToXplane` looks for. -/
def flowMetadata (b : XPlaneBuilder) : FlowMetadata where
  correlationId := b.statMetadataId "correlation_id".toList
  producerType := b.statMetadataId "_pt".toList
  consumerType := b.statMetadataId "_ct".toList
  producerId := b.statMetadataId "_p".toList
  consumerId := b.statMetadataId "_c".toList

end XPlaneBuilder

/-- The flows that are added to an event of a plane. -/
def flowsOf (hostId : Int) (isHostPlane connectTraceme : Bool) (plane : XPlane) (event : XEvent) :
    List XFlow :=
  let metadata := (XPlaneBuilder.ofPlane plane 0).flowMetadata
  let direction := if isHostPlane then .flowOut else .flowIn
  eventFlows hostId direction connectTraceme
    (event.stats.foldl (readStat metadata connectTraceme) {})

/-- `AddFlowsToXplane`, `xplane_utils.cpp:523–626`. -/
def addFlowsToXplane (hashOf : FlowArgs → Nat) (hostId : Int) (isHostPlane connectTraceme : Bool)
    (xplane : XPlane) : XPlane :=
  let (flow, plane) := (XPlaneBuilder.ofPlane xplane 0).getOrCreateStatMetadata "flow".toList
  let metadataId := (plane.plane.getStatMetadata flow).id
  let addFlows := fun event : XEvent ↦
    { event with
      stats := event.stats ++ (flowsOf hostId isHostPlane connectTraceme xplane event).map
        fun flow ↦ { metadataId, value := .uint64 (flow.toStatValue hashOf) } }
  { plane.plane with
    lines := plane.plane.lines.map fun line ↦ { line with events := line.events.map addFlows } }

/-- `IsHostPlane`, `xplane_utils.cpp:854–860`. -/
def isHostPlane (plane : XPlane) : Bool :=
  decide (plane.name ∈ ["/host:CPU".toList, "Host CPUs".toList, "/host:tfstreamz".toList,
    "/host:metadata".toList, "Syscalls".toList, "/host:python-tracer".toList,
    "/host:CUPTI".toList])

/-- `static_cast<int32_t>` of the id of a plane. -/
def planeHostId (plane : XPlane) : Int := Int.bmod plane.id (2 ^ 32)

/-- The flow pass of `profiler_session::stop`, `profiler.cpp:290–301`. -/
def addFlows (hashOf : FlowArgs → Nat) (space : XSpace) : XSpace :=
  { space with
    planes := space.planes.map fun plane ↦
      addFlowsToXplane hashOf (planeHostId plane) (isHostPlane plane) true plane }

/-! ### What flows are to connect -/

/-- The name of a stat. -/
def XPlane.statName (plane : XPlane) (stat : XStat) : List Char :=
  (plane.getStatMetadata stat.metadataId).name

namespace XStat

variable (stat : XStat)

/-- The integer of a stat of a kind that holds one. -/
def integer : Option Int :=
  match stat.value with
  | .int64 val => some val
  | .uint64 val => some val
  | _ => none

def isUint64 : Bool :=
  match stat.value with
  | .uint64 _ => true
  | _ => false

end XStat

/-- The correlation stat of an event: the last one, if there are more. -/
def correlationStat (plane : XPlane) (event : XEvent) : Option XStat :=
  (event.stats.filter fun stat ↦ plane.statName stat = "correlation_id".toList).getLast?

/-- An event by its place, with its plane and its line. -/
def XSpace.event? (space : XSpace) (i j k : Nat) : Option (XPlane × XLine × XEvent) := do
  let plane ← space.planes[i]?
  let line ← plane.lines[j]?
  let event ← line.events[k]?
  return (plane, line, event)

/-- The metadata of stats is numbered as the builders number it, the stats of events have
metadata, none of them is a flow yet, and correlations are integers other than zero. -/
structure CollectedPlane (plane : XPlane) : Prop where
  keys : (plane.statMetadata.map Prod.fst).Nodup
  ids : ∀ entry ∈ plane.statMetadata, entry.2.id = entry.1
  names : ∀ entry ∈ plane.statMetadata, ∀ entry' ∈ plane.statMetadata,
    entry.2.name = entry'.2.name → entry.2.name ≠ [] → entry.1 = entry'.1
  known : ∀ line ∈ plane.lines, ∀ event ∈ line.events, ∀ stat ∈ event.stats,
    (plane.statMetadata.lookup stat.metadataId).isSome
  flow : ∀ line ∈ plane.lines, ∀ event ∈ line.events, ∀ stat ∈ event.stats,
    plane.statName stat ≠ "flow".toList
  correlation : ∀ line ∈ plane.lines, ∀ event ∈ line.events, ∀ stat ∈ event.stats,
    plane.statName stat = "correlation_id".toList →
      stat.refValue = false ∧ ∃ value, stat.integer = some value ∧ value ≠ 0

/-- The flows that an event shows. -/
def shownFlows (plane : XPlane) (event : XEvent) : List Nat :=
  (event.stats.filter fun stat ↦ plane.statName stat = "flow".toList).map XStat.uint64Value

/-- The event is the same but for flows: its name, its times, and its other stats. -/
structure SameButFlows (old new : XPlane × XLine × XEvent) : Prop where
  plane : new.1.name = old.1.name ∧ new.1.id = old.1.id
  name : new.1.getEventMetadata new.2.2.metadataId = old.1.getEventMetadata old.2.2.metadataId
  times : new.2.1.timestampNs = old.2.1.timestampNs ∧ new.2.2.data = old.2.2.data ∧
    new.2.2.durationPs = old.2.2.durationPs
  stats : (new.2.2.stats.filter fun stat ↦ new.1.statName stat ≠ "flow".toList).map
      (fun stat ↦ (new.1.statName stat, stat)) =
    old.2.2.stats.map fun stat ↦ (old.1.statName stat, stat)

/-- An event of a space, and the one in its place in another space. -/
def Passes (space space' : XSpace) (old new : XPlane × XLine × XEvent) : Prop :=
  ∃ i j k, space.event? i j k = some old ∧ space'.event? i j k = some new

/-- What is asked of the flow pass from a space to another: an event on a host plane and one on
another plane have the same flow id just where their correlations are the same integer. -/
structure FlowsConnect (space space' : XSpace) : Prop where
  places : ∀ i j k, (space'.event? i j k).isSome = (space.event? i j k).isSome
  unchanged : ∀ old new, Passes space space' old new → SameButFlows old new
  noFlow : ∀ old new, Passes space space' old new →
    (∀ stat ∈ old.2.2.stats, old.1.statName stat ∉ ["correlation_id".toList, "_pt".toList,
      "_ct".toList, "_p".toList, "_c".toList]) → shownFlows new.1 new.2.2 = []
  direction : ∀ old new, Passes space space' old new →
    (correlationStat old.1 old.2.2).isSome → ∃ flow, (shownFlows new.1 new.2.2).head? = some flow ∧
      XFlow.directionBits flow = (if isHostPlane old.1 then FlowDirection.flowOut else .flowIn).bits
  connects : ∀ host host' device device', Passes space space' host host' →
    Passes space space' device device' → isHostPlane host.1 = true → isHostPlane device.1 = false →
    ∀ stat stat', correlationStat host.1 host.2.2 = some stat →
      correlationStat device.1 device.2.2 = some stat' →
      ((shownFlows host'.1 host'.2.2).head?.map XFlow.id =
        (shownFlows device'.1 device'.2.2).head?.map XFlow.id ↔ stat.integer = stat'.integer)

/-- The event is one of the space. -/
def XSpace.Has (space : XSpace) (place : XPlane × XLine × XEvent) : Prop :=
  ∃ i j k, space.event? i j k = some place

/-- The condition: equal correlations are of one kind and on planes of one id, and different ones
are not both signed and on planes of one id. -/
def Distinguished (space : XSpace) : Prop :=
  ∀ host device, space.Has host → space.Has device → isHostPlane host.1 = true →
    isHostPlane device.1 = false → ∀ stat stat', correlationStat host.1 host.2.2 = some stat →
    correlationStat device.1 device.2.2 = some stat' →
    if stat.integer = stat'.integer then
      stat.isUint64 = stat'.isUint64 ∧ planeHostId host.1 = planeHostId device.1
    else stat.isUint64 = true ∨ stat'.isUint64 = true ∨ planeHostId host.1 ≠ planeHostId device.1

/-- The arguments of the hash in the flow pass over a space. -/
def flowArgs (space : XSpace) : Set FlowArgs :=
  { args | ∃ place, space.Has place ∧
    ∃ flow ∈ flowsOf (planeHostId place.1) (isHostPlane place.1) true place.1 place.2.2,
      flow.args = args }

/-! ### Stats by their names -/

section Names

variable {plane : XPlane} {stat : XStat}

/-- A stat has the id that is known for a name if and only if its metadata has the name. -/
theorem statMetadataId_eq (keys : (plane.statMetadata.map Prod.fst).Nodup)
    (ids : ∀ entry ∈ plane.statMetadata, entry.2.id = entry.1)
    (names : ∀ entry ∈ plane.statMetadata, ∀ entry' ∈ plane.statMetadata,
      entry.2.name = entry'.2.name → entry.2.name ≠ [] → entry.1 = entry'.1)
    (hknown : (plane.statMetadata.lookup stat.metadataId).isSome) (name : List Char)
    (hname : name ≠ []) :
    (XPlaneBuilder.ofPlane plane 0).statMetadataId name = some stat.metadataId ↔
      plane.statName stat = name := by
  obtain ⟨metadata, hmetadata⟩ := Option.isSome_iff_exists.mp hknown
  have hstat : plane.statName stat = metadata.name := by
    rw [XPlane.statName, XPlane.getStatMetadata, hmetadata]
    rfl
  have hmem := mem_of_lookup hmetadata
  rw [statMetadataId, lookup_names plane hname, Option.map_map, hstat, Option.map_eq_some_iff]
  let named := fun entry : Int × XStatMetadata ↦ decide (entry.2.name = name)
  have hid : ∀ entry ∈ plane.statMetadata,
      ((ofPlane plane 0).plane.getStatMetadata entry.1).id = entry.1 := by
    intro entry hentry
    refine (congrArg (fun m : Option XStatMetadata ↦ (m.getD {}).id)
      (lookup_of_mem keys hentry)).trans ?_
    exact ids entry hentry
  constructor
  · rintro ⟨entry, hfind, hentry⟩
    have hentryMem := mem_of_find?_eq_some hfind
    rw [Function.comp_apply, hid entry hentryMem] at hentry
    have hlookup := lookup_of_mem keys hentryMem
    rw [hentry, hmetadata] at hlookup
    rw [Option.some.inj hlookup]
    exact of_decide_eq_true (find?_some (p := named) hfind)
  · intro heq
    cases hfind : plane.statMetadata.find? fun entry ↦ entry.2.name = name with
    | none =>
      have := find?_eq_none.mp hfind _ hmem
      exact absurd (decide_eq_true heq) this
    | some entry =>
      have hentryMem := mem_of_find?_eq_some hfind
      have hentryName : entry.2.name = name := of_decide_eq_true (find?_some (p := named) hfind)
      refine ⟨entry, rfl, ?_⟩
      rw [Function.comp_apply, hid entry hentryMem]
      exact names entry hentryMem _ hmem (hentryName.trans heq.symm) (hentryName ▸ hname)

end Names

/-! ### What is read from the stats -/

section Sources

variable {metadata : FlowMetadata} {stats : List XStat}

/-- The correlation that is read is that of the last correlation stat. -/
theorem correlationId_foldl (named : XStat → Bool)
    (hnamed : ∀ stat ∈ stats, metadata.correlationId = some stat.metadataId ↔ named stat = true)
    (sources : FlowSources) : (stats.foldl (readStat metadata true) sources).correlationId =
      ((stats.filter named).getLast?.map XStat.uint64Value).or sources.correlationId := by
  induction stats using reverseRecOn with
  | nil => rfl
  | append_singleton stats stat ih =>
    have ih := ih fun s hs ↦ hnamed s (mem_append_left _ hs)
    have hlast := hnamed stat (mem_append_right _ (mem_singleton_self _))
    rw [foldl_append, foldl_cons, foldl_nil, filter_append]
    by_cases hcorrelation : metadata.correlationId = some stat.metadataId
    · rw [filter_cons_of_pos (hlast.mp hcorrelation), filter_nil, getLast?_concat,
        readStat, if_pos hcorrelation]
      rfl
    · have hother : (readStat metadata true (stats.foldl (readStat metadata true) sources)
          stat).correlationId = (stats.foldl (readStat metadata true) sources).correlationId := by
        rw [readStat, if_neg hcorrelation, if_pos rfl]
        split
        · rfl
        · split
          · rfl
          · split
            · rfl
            · split <;> rfl
      rw [hother, ih, filter_cons_of_neg (fun h ↦ hcorrelation (hlast.mpr h)),
        filter_nil, append_nil]

/-- Nothing is read where no stat has one of the names. -/
theorem foldl_readStat_of_forall
    (h : ∀ stat ∈ stats, some stat.metadataId ∉ [metadata.correlationId, metadata.producerType,
      metadata.consumerType, metadata.producerId, metadata.consumerId]) (sources : FlowSources) :
    stats.foldl (readStat metadata true) sources = sources := by
  induction stats with
  | nil => rfl
  | cons stat stats ih =>
    have hstat := h stat mem_cons_self
    simp only [mem_cons, not_mem_nil, or_false, not_or] at hstat
    obtain ⟨h₁, h₂, h₃, h₄, h₅⟩ := hstat
    rw [foldl_cons, readStat, if_neg (Ne.symm h₁), if_neg (Ne.symm h₂),
      if_neg (Ne.symm h₃), if_neg (Ne.symm h₄), if_neg (Ne.symm h₅)]
    exact ih fun s hs ↦ h s (mem_cons_of_mem _ hs)

end Sources

/-! ### The pass over a plane -/

section Plane

variable {hashOf : FlowArgs → Nat} {hostId : Int} {isHost : Bool} {plane : XPlane}

theorem le_foldl_max {entries : List (Int × XStatMetadata)} (last : Int) :
    last ≤ entries.foldl (fun last entry ↦ max last entry.2.id) last ∧
      ∀ entry ∈ entries, entry.2.id ≤
        entries.foldl (fun last entry ↦ max last entry.2.id) last := by
  induction entries generalizing last with
  | nil => exact ⟨Int.le_refl _, nofun⟩
  | cons entry entries ih =>
    obtain ⟨hlast, hentries⟩ := ih (max last entry.2.id)
    refine ⟨Int.le_trans (Int.le_max_left _ _) hlast, fun e he ↦ ?_⟩
    obtain rfl | he := mem_cons.mp he
    · exact Int.le_trans (Int.le_max_right _ _) hlast
    · exact hentries e he

/-- The id of the metadata of flows. -/
def flowMetadataId (plane : XPlane) : Int :=
  let (flow, b) := (XPlaneBuilder.ofPlane plane 0).getOrCreateStatMetadata "flow".toList
  (b.plane.getStatMetadata flow).id

theorem flow_ne_nil : "flow".toList ≠ [] := by decide

/-- Metadata that was there stays what it was, and flows get their name. -/
theorem getStatMetadata_addFlows (h : CollectedPlane plane) :
    (∀ id, (plane.statMetadata.lookup id).isSome →
      (addFlowsToXplane hashOf hostId isHost true plane).getStatMetadata id =
        plane.getStatMetadata id) ∧
    ((addFlowsToXplane hashOf hostId isHost true plane).getStatMetadata
      (flowMetadataId plane)).name = "flow".toList := by
  have hlookup := lookup_names plane flow_ne_nil 0
  cases hfind : plane.statMetadata.find? fun entry ↦ entry.2.name = "flow".toList with
  | some entry =>
    rw [hfind, Option.map_some] at hlookup
    have hmem := mem_of_find?_eq_some hfind
    have hname : entry.2.name = "flow".toList := of_decide_eq_true (find?_some
      (p := fun entry : Int × XStatMetadata ↦ decide (entry.2.name = "flow".toList)) hfind)
    have hcreate : (ofPlane plane 0).getOrCreateStatMetadata "flow".toList =
        (entry.1, .ofPlane plane 0) := by
      rw [getOrCreateStatMetadata, hlookup]
    have hentry : plane.getStatMetadata entry.1 = entry.2 := by
      rw [XPlane.getStatMetadata, lookup_of_mem h.keys hmem]
      rfl
    have hid : flowMetadataId plane = entry.1 := by
      rw [flowMetadataId, hcreate]
      exact (congrArg XStatMetadata.id hentry).trans (h.ids entry hmem)
    have hsame : (addFlowsToXplane hashOf hostId isHost true plane).statMetadata =
        plane.statMetadata := by
      rw [addFlowsToXplane, hcreate]
      rfl
    refine ⟨fun id _ ↦ by rw [XPlane.getStatMetadata, XPlane.getStatMetadata, hsame], ?_⟩
    rw [hid, XPlane.getStatMetadata, hsame, ← XPlane.getStatMetadata, hentry, hname]
  | none =>
    rw [hfind, Option.map_none] at hlookup
    set last := (ofPlane plane 0).lastStatMetadataId
    have hsame : (addFlowsToXplane hashOf hostId isHost true plane).statMetadata =
        setEntry (last + 1) { plane.getStatMetadata (last + 1) with
          id := last + 1, name := "flow".toList } plane.statMetadata := by
      rw [addFlowsToXplane, getOrCreateStatMetadata, hlookup]
      rfl
    have hid : flowMetadataId plane = last + 1 := by
      rw [flowMetadataId, getOrCreateStatMetadata, hlookup]
      dsimp only
      rw [XPlane.getStatMetadata, lookup_setEntry, if_pos rfl]
      rfl
    refine ⟨fun id hid ↦ ?_, ?_⟩
    · obtain ⟨metadata, hmetadata⟩ := Option.isSome_iff_exists.mp hid
      have hmem := mem_of_lookup hmetadata
      have hle : metadata.id ≤ last := (le_foldl_max 0).2 _ hmem
      have hkey : metadata.id = id := h.ids _ hmem
      rw [XPlane.getStatMetadata, hsame, lookup_setEntry, if_neg (by omega)]
      rfl
    · rw [hid, XPlane.getStatMetadata, hsame, lookup_setEntry, if_pos rfl]
      rfl

/-- An event after the pass. -/
def passEvent (hashOf : FlowArgs → Nat) (plane : XPlane) (event : XEvent) : XEvent :=
  { event with
    stats := event.stats ++
      (flowsOf (planeHostId plane) (isHostPlane plane) true plane event).map fun flow ↦
        { metadataId := flowMetadataId plane, value := .uint64 (flow.toStatValue hashOf) } }

def passPlane (hashOf : FlowArgs → Nat) (plane : XPlane) : XPlane :=
  addFlowsToXplane hashOf (planeHostId plane) (isHostPlane plane) true plane

/-- The place of an event after the pass. -/
def passPlace (hashOf : FlowArgs → Nat) (place : XPlane × XLine × XEvent) :
    XPlane × XLine × XEvent :=
  (passPlane hashOf place.1,
    { place.2.1 with events := place.2.1.events.map (passEvent hashOf place.1) },
    passEvent hashOf place.1 place.2.2)

/-- Nothing but the stats of events and the stat metadata changes. -/
theorem passPlane_eq (hashOf : FlowArgs → Nat) (plane : XPlane) :
    (passPlane hashOf plane).name = plane.name ∧ (passPlane hashOf plane).id = plane.id ∧
      (passPlane hashOf plane).eventMetadata = plane.eventMetadata ∧
        (passPlane hashOf plane).lines = plane.lines.map fun line ↦
          { line with events := line.events.map (passEvent hashOf plane) } := by
  have hcreate : ((ofPlane plane 0).getOrCreateStatMetadata
        "flow".toList).2.plane.name = plane.name ∧
      ((ofPlane plane 0).getOrCreateStatMetadata
        "flow".toList).2.plane.id = plane.id ∧
      ((ofPlane plane 0).getOrCreateStatMetadata
        "flow".toList).2.plane.eventMetadata = plane.eventMetadata ∧
      ((ofPlane plane 0).getOrCreateStatMetadata
        "flow".toList).2.plane.lines = plane.lines := by
    rw [getOrCreateStatMetadata]
    split <;> exact ⟨rfl, rfl, rfl, rfl⟩
  refine ⟨hcreate.1, hcreate.2.1, hcreate.2.2.1, ?_⟩
  exact congrArg (map fun line : XLine ↦
    { line with events := line.events.map (passEvent hashOf plane) }) hcreate.2.2.2

theorem event?_addFlows (hashOf : FlowArgs → Nat) (space : XSpace) (i j k : Nat) :
    (addFlows hashOf space).event? i j k = (space.event? i j k).map (passPlace hashOf) := by
  have hplanes : (addFlows hashOf space).planes[i]? =
      space.planes[i]?.map (passPlane hashOf) := getElem?_map
  rw [XSpace.event?, XSpace.event?, hplanes]
  cases space.planes[i]? with
  | none => rfl
  | some plane =>
    simp only [Option.map_some, Option.bind_eq_bind, Option.bind_some,
      (passPlane_eq hashOf plane).2.2.2, getElem?_map]
    cases plane.lines[j]? with
    | none => rfl
    | some line =>
      simp only [Option.map_some, Option.bind_some, getElem?_map]
      cases line.events[k]? with
      | none | some event => rfl

theorem mem_of_event? {space : XSpace} {i j k : Nat} {place : XPlane × XLine × XEvent}
    (h : space.event? i j k = some place) :
    place.1 ∈ space.planes ∧ place.2.1 ∈ place.1.lines ∧ place.2.2 ∈ place.2.1.events := by
  simp only [XSpace.event?, Option.bind_eq_bind, Option.bind_eq_some_iff] at h
  obtain ⟨plane, hplane, line, hline, event, hevent, ⟨⟩⟩ := h
  exact ⟨mem_of_getElem? hplane, mem_of_getElem? hline, mem_of_getElem? hevent⟩

end Plane

/-! ### One event -/

section Event

variable {hashOf : FlowArgs → Nat} {plane : XPlane} {line : XLine} {event : XEvent}

/-- Stats keep their names. -/
theorem statName_passPlane (h : CollectedPlane plane) (hline : line ∈ plane.lines)
    (hevent : event ∈ line.events) {stat : XStat} (hstat : stat ∈ event.stats) :
    (passPlane hashOf plane).statName stat = plane.statName stat :=
  congrArg XStatMetadata.name ((getStatMetadata_addFlows h).1 stat.metadataId
    (h.known line hline event hevent stat hstat))

/-- The flows that are shown are those that were added. -/
theorem shownFlows_passEvent (h : CollectedPlane plane) (hline : line ∈ plane.lines)
    (hevent : event ∈ line.events) : shownFlows (passPlane hashOf plane) (passEvent hashOf plane event) =
      (flowsOf (planeHostId plane) (isHostPlane plane) true plane event).map
        (XFlow.toStatValue hashOf) := by
  have hold : (event.stats.filter fun stat ↦
      (passPlane hashOf plane).statName stat = "flow".toList) = [] := by
    refine filter_eq_nil_iff.mpr fun stat hstat ↦ ?_
    rw [statName_passPlane h hline hevent hstat]
    exact fun hname ↦ h.flow line hline event hevent stat hstat (of_decide_eq_true hname)
  rw [shownFlows, passEvent, filter_append, hold, nil_append, filter_eq_self.mpr]
  · rw [map_map]
    rfl
  · intro stat hstat
    obtain ⟨flow, -, rfl⟩ := mem_map.mp hstat
    exact decide_eq_true (getStatMetadata_addFlows h).2

/-- The other stats are the old ones. -/
theorem otherStats_passEvent (h : CollectedPlane plane) (hline : line ∈ plane.lines)
    (hevent : event ∈ line.events) : ((passEvent hashOf plane event).stats.filter fun stat ↦
        (passPlane hashOf plane).statName stat ≠ "flow".toList) = event.stats := by
  rw [passEvent, filter_append, filter_eq_self.mpr, filter_eq_nil_iff.mpr, append_nil]
  · intro stat hstat hname
    obtain ⟨flow, -, rfl⟩ := mem_map.mp hstat
    exact of_decide_eq_true hname (getStatMetadata_addFlows h).2
  · intro stat hstat
    rw [statName_passPlane h hline hevent hstat]
    exact decide_eq_true (h.flow line hline event hevent stat hstat)

/-- What is read as the correlation of an event. -/
theorem correlationId_eq (h : CollectedPlane plane) (hline : line ∈ plane.lines)
    (hevent : event ∈ line.events) :
    (event.stats.foldl (readStat (XPlaneBuilder.ofPlane plane 0).flowMetadata true)
      {}).correlationId = (correlationStat plane event).map XStat.uint64Value := by
  rw [correlationId_foldl (fun stat ↦
    decide (plane.statName stat = "correlation_id".toList)), Option.or_none]
  · rfl
  · intro stat hstat
    rw [decide_eq_true_iff]
    exact statMetadataId_eq h.keys h.ids h.names (h.known line hline event hevent stat hstat)
      _ (by decide)

/-- The first flow of an event with a correlation. -/
theorem head_flowsOf (h : CollectedPlane plane) (hline : line ∈ plane.lines)
    (hevent : event ∈ line.events) {stat : XStat} (hstat : correlationStat plane event = some stat) :
    (flowsOf (planeHostId plane) (isHostPlane plane) true plane event).head? = some
      { args := .correlation (planeHostId plane) stat.uint64Value
        direction := if isHostPlane plane then .flowOut else .flowIn
        category := .gpuLaunch } := by
  rw [flowsOf, eventFlows, correlationId_eq h hline hevent, hstat]
  rfl

theorem flowsOf_eq_nil (h : CollectedPlane plane) (hline : line ∈ plane.lines)
    (hevent : event ∈ line.events) (hnames : ∀ stat ∈ event.stats, plane.statName stat ∉
      ["correlation_id".toList, "_pt".toList, "_ct".toList, "_p".toList, "_c".toList]) :
    flowsOf (planeHostId plane) (isHostPlane plane) true plane event = [] := by
  rw [flowsOf, foldl_readStat_of_forall]
  · rfl
  · intro stat hstat hmem
    refine hnames stat hstat ?_
    have hiff := fun name ↦ statMetadataId_eq h.keys h.ids h.names
      (h.known line hline event hevent stat hstat) name
    simp only [mem_cons, not_mem_nil, or_false] at hmem ⊢
    obtain hmem | hmem | hmem | hmem | hmem := hmem
    · exact .inl ((hiff _ (by decide)).mp hmem.symm)
    · exact .inr (.inl ((hiff _ (by decide)).mp hmem.symm))
    · exact .inr (.inr (.inl ((hiff _ (by decide)).mp hmem.symm)))
    · exact .inr (.inr (.inr (.inl ((hiff _ (by decide)).mp hmem.symm))))
    · exact .inr (.inr (.inr (.inr ((hiff _ (by decide)).mp hmem.symm))))

end Event

/-! ### Two events -/

/-- When reading correlations as unsigned tells them apart as it should. -/
theorem read_iff {stat stat' : XStat} {hostId hostId' : Int}
    (hstat : ∃ value, stat.integer = some value ∧ value ≠ 0)
    (hstat' : ∃ value, stat'.integer = some value ∧ value ≠ 0) :
    (hostId = hostId' ∧ stat.uint64Value = stat'.uint64Value ↔ stat.integer = stat'.integer) ↔
      if stat.integer = stat'.integer then stat.isUint64 = stat'.isUint64 ∧ hostId = hostId'
      else stat.isUint64 = true ∨ stat'.isUint64 = true ∨ hostId ≠ hostId' := by
  obtain ⟨value, hvalue, hne⟩ := hstat
  obtain ⟨value', hvalue', hne'⟩ := hstat'
  simp only [hvalue, hvalue']
  rw [XStat.integer] at hvalue hvalue'
  rw [XStat.uint64Value, XStat.uint64Value, XStat.isUint64, XStat.isUint64]
  cases hkind : stat.value with
  | double | str | bytes =>
    rw [hkind] at hvalue
    cases hvalue
  | int64 val =>
    rw [hkind] at hvalue
    obtain rfl := Option.some.inj hvalue
    cases hkind' : stat'.value with
    | double | str | bytes =>
      rw [hkind'] at hvalue'
      cases hvalue'
    | int64 val' => by_cases heq : val = value' <;> simp [heq]
    | uint64 val' =>
      rw [hkind'] at hvalue'
      obtain rfl := Option.some.inj hvalue'
      by_cases heq : val = (val' : Int) <;> simp [heq] <;> omega
  | uint64 val =>
    rw [hkind] at hvalue
    cases hvalue
    cases hkind' : stat'.value with
    | double | str | bytes =>
      rw [hkind'] at hvalue'
      cases hvalue'
    | int64 val' => by_cases heq : (val : Int) = val' <;> simp [heq] <;> omega
    | uint64 val' =>
      rw [hkind'] at hvalue'
      cases hvalue'
      by_cases heq : (val : Int) = val' <;> simp [heq] <;> omega

section Pass

variable {hashOf : FlowArgs → Nat} {space : XSpace}

theorem new_of_passes {old new : XPlane × XLine × XEvent}
    (h : Passes space (addFlows hashOf space) old new) : space.Has old ∧
      new = passPlace hashOf old := by
  obtain ⟨i, j, k, hold, hnew⟩ := h
  rw [event?_addFlows, hold] at hnew
  exact ⟨⟨i, j, k, hold⟩, (Option.some.inj hnew).symm⟩

theorem passes_of_has {old : XPlane × XLine × XEvent} (h : space.Has old) :
    Passes space (addFlows hashOf space) old (passPlace hashOf old) := by
  obtain ⟨i, j, k, hold⟩ := h
  exact ⟨i, j, k, hold, by rw [event?_addFlows, hold]; rfl⟩

/-- A correlation stat is an integer other than zero. -/
theorem integer_of_correlationStat {place : XPlane × XLine × XEvent}
    (h : ∀ plane ∈ space.planes, CollectedPlane plane) (hplace : space.Has place) {stat : XStat}
    (hstat : correlationStat place.1 place.2.2 = some stat) :
    ∃ value, stat.integer = some value ∧ value ≠ 0 := by
  obtain ⟨i, j, k, hplace⟩ := hplace
  obtain ⟨hplane, hline, hevent⟩ := mem_of_event? hplace
  obtain ⟨hmem, hname⟩ := mem_filter.mp (mem_of_getLast? hstat)
  exact ((h _ hplane).correlation _ hline _ hevent stat hmem (of_decide_eq_true hname)).2

variable (hashOf) in
/-- The first flow that an event with a correlation shows. -/
theorem head_shownFlows {place : XPlane × XLine × XEvent}
    (h : ∀ plane ∈ space.planes, CollectedPlane plane) (hplace : space.Has place) {stat : XStat}
    (hstat : correlationStat place.1 place.2.2 = some stat) :
    (shownFlows (passPlace hashOf place).1 (passPlace hashOf place).2.2).head? = some
        (XFlow.toStatValue hashOf
          { args := .correlation (planeHostId place.1) stat.uint64Value
            direction := if isHostPlane place.1 then .flowOut else .flowIn
            category := .gpuLaunch }) ∧
      FlowArgs.correlation (planeHostId place.1) stat.uint64Value ∈ flowArgs space := by
  obtain ⟨i, j, k, hplace⟩ := hplace
  obtain ⟨hplane, hline, hevent⟩ := mem_of_event? hplace
  have hhead := head_flowsOf (h _ hplane) hline hevent hstat
  refine ⟨?_, place, ⟨i, j, k, hplace⟩, _, mem_of_mem_head? hhead, rfl⟩
  rw [passPlace, shownFlows_passEvent (h _ hplane) hline hevent, head?_map, hhead]
  rfl

/-- Two events have the same flow id just where the planes have the same id and the correlations
are read as the same. -/
theorem sameFlow_iff (h : ∀ plane ∈ space.planes, CollectedPlane plane)
    (hinj : Set.InjOn (getFlowId hashOf) (flowArgs space)) {host device : XPlane × XLine × XEvent}
    (hhost : space.Has host) (hdevice : space.Has device) {stat stat' : XStat}
    (hstat : correlationStat host.1 host.2.2 = some stat)
    (hstat' : correlationStat device.1 device.2.2 = some stat') :
    (shownFlows (passPlace hashOf host).1 (passPlace hashOf host).2.2).head?.map XFlow.id =
        (shownFlows (passPlace hashOf device).1 (passPlace hashOf device).2.2).head?.map XFlow.id ↔
      planeHostId host.1 = planeHostId device.1 ∧ stat.uint64Value = stat'.uint64Value := by
  obtain ⟨hhead, hargs⟩ := head_shownFlows hashOf h hhost hstat
  obtain ⟨hhead', hargs'⟩ := head_shownFlows hashOf h hdevice hstat'
  rw [hhead, hhead', Option.map_some, Option.map_some, Option.some.injEq, XFlow.id_toStatValue,
    XFlow.id_toStatValue, hinj.eq_iff hargs hargs', FlowArgs.correlation.injEq]

/-- The flow pass connects the events whose correlations are equal, and no others, exactly where
reading the correlations as unsigned and hashing them with the id of the plane tells them apart;
everything else that is asked of it holds for all spaces. -/
theorem addFlows_connect_iff (h : ∀ plane ∈ space.planes, CollectedPlane plane)
    (hinj : Set.InjOn (getFlowId hashOf) (flowArgs space)) :
    FlowsConnect space (addFlows hashOf space) ↔ Distinguished space := by
  constructor
  · intro hconnect host device hhost hdevice hhostPlane hdevicePlane stat stat' hstat hstat'
    rw [← read_iff (integer_of_correlationStat h hhost hstat)
      (integer_of_correlationStat h hdevice hstat'), ← sameFlow_iff h hinj hhost hdevice hstat hstat']
    exact hconnect.connects host _ device _ (passes_of_has hhost) (passes_of_has hdevice) hhostPlane
      hdevicePlane stat stat' hstat hstat'
  · intro hdistinguished
    refine ⟨fun i j k ↦ ?_, fun old new hpass ↦ ?_, fun old new hpass hnames ↦ ?_,
      fun old new hpass hsome ↦ ?_, ?_⟩
    · rw [event?_addFlows, Option.isSome_map]
    · obtain ⟨⟨i, j, k, hold⟩, rfl⟩ := new_of_passes hpass
      obtain ⟨hplane, hline, hevent⟩ := mem_of_event? hold
      obtain ⟨hname, hid, hmetadata, -⟩ := passPlane_eq hashOf old.1
      refine ⟨⟨hname, hid⟩, ?_, ⟨rfl, rfl, rfl⟩, ?_⟩
      · exact congrArg (fun entries : List (Int × XEventMetadata) ↦
          (entries.lookup old.2.2.metadataId).getD {}) hmetadata
      · rw [passPlace, otherStats_passEvent (h _ hplane) hline hevent]
        refine map_congr_left fun stat hstat ↦ ?_
        rw [statName_passPlane (h _ hplane) hline hevent hstat]
    · obtain ⟨⟨i, j, k, hold⟩, rfl⟩ := new_of_passes hpass
      obtain ⟨hplane, hline, hevent⟩ := mem_of_event? hold
      rw [passPlace, shownFlows_passEvent (h _ hplane) hline hevent,
        flowsOf_eq_nil (h _ hplane) hline hevent hnames]
      rfl
    · obtain ⟨hold, rfl⟩ := new_of_passes hpass
      obtain ⟨stat, hstat⟩ := Option.isSome_iff_exists.mp hsome
      refine ⟨_, (head_shownFlows hashOf h hold hstat).1, ?_⟩
      rw [XFlow.directionBits_toStatValue]
    · intro host host' device device' hpass hpass' hhostPlane hdevicePlane stat stat' hstat hstat'
      obtain ⟨hhost, rfl⟩ := new_of_passes hpass
      obtain ⟨hdevice, rfl⟩ := new_of_passes hpass'
      rw [sameFlow_iff h hinj hhost hdevice hstat hstat', read_iff
        (integer_of_correlationStat h hhost hstat) (integer_of_correlationStat h hdevice hstat')]
      exact hdistinguished host device hhost hdevice hhostPlane hdevicePlane stat stat' hstat hstat'

/-- A host event and a device event on planes of one id. -/
def twoPlanes (host device : XStatValue) : XSpace :=
  let plane := fun (name : List Char) (value : XStatValue) ↦
    ({ name
       lines := [{ id := 1, events := [{ stats := [{ metadataId := 1, value }] }] }]
       statMetadata := [(1, { id := 1, name := "correlation_id".toList })] } : XPlane)
  { planes := [plane "/host:CPU".toList host, plane "/device:GPU:0".toList device] }

theorem collected_twoPlanes {host device : XStatValue} {c c' : Int}
    (hhost : XStat.integer { value := host } = some c) (hc : c ≠ 0)
    (hdevice : XStat.integer { value := device } = some c') (hc' : c' ≠ 0) :
    ∀ plane ∈ (twoPlanes host device).planes, CollectedPlane plane := by
  have hplane : ∀ (name : List Char) (value : XStatValue) (v : Int),
      XStat.integer { value } = some v → v ≠ 0 → CollectedPlane
        { name
          lines := [{ id := 1, events := [{ stats := [{ metadataId := 1, value }] }] }]
          statMetadata := [(1, { id := 1, name := "correlation_id".toList })] } := by
    intro name value v hvalue hv
    constructor
    · exact nodup_singleton _
    · simp
    · simp
    · simp
    · simp [XPlane.statName, XPlane.getStatMetadata]
    · intro line hline event hevent stat hstat _
      obtain rfl := mem_singleton.mp hline
      obtain rfl := mem_singleton.mp hevent
      obtain rfl := mem_singleton.mp hstat
      exact ⟨rfl, v, hvalue, hv⟩
  intro plane hmem
  obtain rfl | hmem := mem_cons.mp hmem
  · exact hplane _ _ c hhost hc
  · obtain rfl := mem_singleton.mp hmem
    exact hplane _ _ c' hdevice hc'

/-- One pair of arguments is hashed where the correlations are read as the same. -/
theorem injOn_twoPlanes {host device : XStatValue} (read : Nat)
    (hhost : XStat.uint64Value { value := host } = read)
    (hdevice : XStat.uint64Value { value := device } = read) (hashOf : FlowArgs → Nat) :
    Set.InjOn (getFlowId hashOf) (flowArgs (twoPlanes host device)) := by
  have hargs : ∀ args ∈ flowArgs (twoPlanes host device), args = .correlation 0 read := by
    rintro args ⟨place, ⟨i, j, k, hplace⟩, flow, hflow, rfl⟩
    obtain ⟨hplane, hline, hevent⟩ := mem_of_event? hplace
    obtain ⟨plane, line, event⟩ := place
    obtain rfl | hplane := mem_cons.mp hplane
    · obtain rfl := mem_singleton.mp hline
      obtain rfl := mem_singleton.mp hevent
      subst hhost
      obtain rfl := mem_singleton.mp hflow
      rfl
    · obtain rfl := mem_singleton.mp hplane
      obtain rfl := mem_singleton.mp hline
      obtain rfl := mem_singleton.mp hevent
      subst hdevice
      obtain rfl := mem_singleton.mp hflow
      rfl
  intro args hmem args' hmem' _
  rw [hargs args hmem, hargs args' hmem']

/-- Equal unsigned correlations are connected. -/
theorem unsigned_connect : FlowsConnect (twoPlanes (.uint64 5) (.uint64 5))
    (addFlows integerHashOf (twoPlanes (.uint64 5) (.uint64 5))) := by
  refine (addFlows_connect_iff (collected_twoPlanes rfl (by decide) rfl (by decide))
    (injOn_twoPlanes 5 rfl rfl _)).mpr ?_
  have hplaces : ∀ place, (twoPlanes (.uint64 5) (.uint64 5)).Has place → planeHostId place.1 = 0 ∧
        correlationStat place.1 place.2.2 = some { metadataId := 1, value := .uint64 5 } := by
    rintro ⟨plane, line, event⟩ ⟨i, j, k, hplace⟩
    obtain ⟨hplane, hline, hevent⟩ := mem_of_event? hplace
    obtain rfl | hplane := mem_cons.mp hplane
    · obtain rfl := mem_singleton.mp hline
      obtain rfl := mem_singleton.mp hevent
      exact ⟨rfl, rfl⟩
    · obtain rfl := mem_singleton.mp hplane
      obtain rfl := mem_singleton.mp hline
      obtain rfl := mem_singleton.mp hevent
      exact ⟨rfl, rfl⟩
  intro host device hhost hdevice _ _ stat stat' hstat hstat'
  rw [(hplaces host hhost).2, Option.some.injEq] at hstat
  rw [(hplaces device hdevice).2, Option.some.injEq] at hstat'
  rw [← hstat, ← hstat', (hplaces host hhost).1, (hplaces device hdevice).1]
  exact ⟨rfl, rfl⟩

/-- Signed correlations, which are read as zero, are connected whatever they are. -/
theorem signed_collapse : ¬∀ hashOf space, (∀ plane ∈ space.planes, CollectedPlane plane) →
    Set.InjOn (getFlowId hashOf) (flowArgs space) → FlowsConnect space (addFlows hashOf space) := by
  intro h
  have hinj : Set.InjOn (getFlowId integerHashOf) (flowArgs (twoPlanes (.int64 1) (.int64 2))) :=
    injOn_twoPlanes 0 rfl rfl _
  have hconnect := h integerHashOf _ (collected_twoPlanes rfl (by decide) rfl (by decide)) hinj
  have hsame := hconnect.connects _ _ _ _ ⟨0, 0, 0, rfl, rfl⟩ ⟨1, 0, 0, rfl, rfl⟩ (by decide)
    (by decide) _ _ rfl rfl
  exact absurd (hsame.mp rfl) (by decide)

end Pass

end Hisab.Profiler
