import Hisab.Profiler.GpuLines

/-!
# The times of exported GPU events

The line of a stream starts where its first event does, and the offset of an event is its time
as it was recorded: the visitors, which add the two, show the recorded time where the line
starts at zero.
-/

namespace Hisab.Profiler

open Base List I64 GpuTracerEvent

/-- What the visitors show of an event: where it is, and `name`, `timestamp_ps` and
`end_timestamp_ps` of an `xevent_visitor`. -/
structure ShownEvent where
  plane : List Char
  line : Int
  name : List Char
  timestampPs : Int
  endTimestampPs : Int
  deriving DecidableEq, Repr

/-- An event on a line that starts at `timestampNs`. -/
def showEvent (plane : XPlane) (lineId timestampNs : Int) (event : XEvent) : ShownEvent where
  plane := plane.name
  line := lineId
  name := (plane.getEventMetadata event.metadataId).name
  timestampPs := timestampNs * 1000 + event.offsetPs
  endTimestampPs := timestampNs * 1000 + event.offsetPs + event.durationPs

/-- The events of a plane, `for_each_line` and `for_each_event`. -/
def shownEvents (plane : XPlane) : List ShownEvent :=
  plane.lines.flatMap fun line ↦ line.events.map (showEvent plane line.id line.timestampNs)

/-- What is to be shown of a collected event. -/
def GpuTracerEvent.expected (event : GpuTracerEvent) : ShownEvent where
  plane := gpuPlaneName event.deviceId
  line := event.streamId.toNat
  name := event.exportName
  timestampPs := event.startTimeNs.toNat * 1000
  endTimestampPs := event.endTimeNs.toNat * 1000

/-- The new planes are those of the devices, and every event is on them once, with its times. -/
def KeepsTimes (devices : List UInt32) (events : List GpuTracerEvent) (space : XSpace)
    (space' : Option XSpace) : Prop :=
  ∃ planes, space' = some { space with planes := space.planes ++ planes } ∧
    planes.map XPlane.name = devices.map gpuPlaneName ∧
      (planes.flatMap shownEvents).Perm (events.map GpuTracerEvent.expected)

/-- The events of a device. -/
def deviceEvents (events : List GpuTracerEvent) (device : UInt32) : List GpuTracerEvent :=
  events.filter fun event ↦ event.deviceId = device

theorem mem_deviceEvents {events : List GpuTracerEvent} {event : GpuTracerEvent}
    (h : event ∈ events) : event ∈ deviceEvents events event.deviceId :=
  mem_filter.mpr ⟨h, decide_eq_true rfl⟩

/-- The condition: every stream has an event that starts at zero, picoseconds do not overflow, and
no line is asked for again after the lines have moved. -/
structure StartsAtZero (grow : Nat → Nat) (devices : List UInt32)
    (events : List GpuTracerEvent) : Prop where
  origin : ∀ event ∈ events, ∃ first ∈ events, first.deviceId = event.deviceId ∧
    first.streamId = event.streamId ∧ first.startTimeNs = 0
  range : ∀ event ∈ events, event.endTimeNs.toNat * 1000 < 2 ^ 63
  stay : ∀ device ∈ devices, LinesStay grow {} (deviceEvents events device)

/-! ### Times of one event -/

namespace GpuTracerEvent

variable {event : GpuTracerEvent} {ns : UInt64}

theorem nanoToPico_isSome_iff :
    (nanoToPico ns).isSome ↔ -2 ^ 63 ≤ (I64.ofSizeT ns.toNat).val * 1000 ∧
      (I64.ofSizeT ns.toNat).val * 1000 < 2 ^ 63 := by
  rw [nanoToPico, ofInt?]
  split
  next h => exact ⟨fun _ ↦ h, fun _ ↦ rfl⟩
  next h => exact ⟨(fun h' ↦ by cases h'), fun h' ↦ absurd h' h⟩

theorem nanoToPico_of_lt (h : ns.toNat * 1000 < 2 ^ 63) :
    ∃ ps, nanoToPico ns = some ps ∧ ps.val = ns.toNat * 1000 ∧ ps.toSizeT = ns.toNat * 1000 := by
  have hval : (ofSizeT ns.toNat).val = ns.toNat := val_ofSizeT (by unfold I64.max; omega)
  obtain ⟨ps, hps⟩ := Option.isSome_iff_exists.mp (nanoToPico_isSome_iff.mpr (by
    rw [hval]
    omega))
  have hpsval : ps.val = ns.toNat * 1000 := by rw [ofInt?_eq_some.mp hps, hval]
  have hsize := toSizeT_eq (x := ps) (by omega)
  exact ⟨ps, hps, hpsval, by omega⟩

theorem exportTimes_isSome_iff : event.exportTimes.isSome ↔
    (nanoToPico event.startTimeNs).isSome ∧ (nanoToPico event.endTimeNs).isSome := by
  rw [exportTimes]
  cases nanoToPico event.startTimeNs with
  | none => exact ⟨nofun, nofun⟩
  | some b =>
    cases nanoToPico event.endTimeNs with
    | none => exact ⟨nofun, nofun⟩
    | some e => exact ⟨fun _ ↦ ⟨rfl, rfl⟩, fun _ ↦ rfl⟩

/-- The offset and the duration where picoseconds do not overflow. -/
theorem exportTimes_of_lt (hle : event.startTimeNs ≤ event.endTimeNs)
    (hlt : event.endTimeNs.toNat * 1000 < 2 ^ 63) :
    ∃ offsetPs durationPs, event.exportTimes = some (offsetPs, durationPs) ∧
      offsetPs.val = event.startTimeNs.toNat * 1000 ∧
        durationPs.val = (event.endTimeNs.toNat - event.startTimeNs.toNat : Int) * 1000 := by
  have hle : event.startTimeNs.toNat ≤ event.endTimeNs.toNat := UInt64.le_iff_toNat_le.mp hle
  obtain ⟨b, hb, hbval, hbsize⟩ := nanoToPico_of_lt
    (Nat.lt_of_le_of_lt (Nat.mul_le_mul_right 1000 hle) hlt)
  obtain ⟨e, he, heval, hesize⟩ := nanoToPico_of_lt hlt
  refine ⟨ofSizeT b.toSizeT, ofSizeT (e.toSizeT - b.toSizeT), ?_, ?_, ?_⟩
  · rw [exportTimes, hb, he]
    simp only [Option.bind_eq_bind, Option.bind_some]
    rw [if_neg (by omega)]
    rfl
  · rw [val_ofSizeT (by unfold I64.max; omega)]
    omega
  · rw [val_ofSizeT (by unfold I64.max; omega)]
    omega

end GpuTracerEvent

/-! ### The start of a line -/

theorem min_starts (a b : UInt64) : a ≤ b ∧ min a b = a ∨ b ≤ a ∧ min a b = b := by
  by_cases h : a ≤ b
  · exact .inl ⟨h, if_pos h⟩
  · exact .inr ⟨(UInt64.le_total a b).resolve_left h, if_neg h⟩

/-- The origin of a stream is the smallest start of its events. -/
theorem isLeast_origin (events : List GpuTracerEvent) (streamId : UInt32) :
    match (events.foldl noteOrigin []).lookup streamId with
    | none => ∀ event ∈ events, event.streamId ≠ streamId
    | some origin => (∃ first ∈ events, first.streamId = streamId ∧ first.startTimeNs = origin) ∧
      ∀ event ∈ events, event.streamId = streamId → origin ≤ event.startTimeNs := by
  induction events using reverseRecOn with
  | nil => nofun
  | append_singleton events event ih =>
    rw [foldl_append, foldl_cons, foldl_nil]
    generalize events.foldl noteOrigin [] = origins at *
    by_cases hs : event.streamId = streamId
    · subst hs
      rw [noteOrigin]
      cases hlookup : origins.lookup event.streamId with
      | none =>
        rw [hlookup] at ih
        rw [lookup_cons_self]
        refine ⟨⟨event, mem_append_right _ (mem_singleton_self _), rfl, rfl⟩, ?_⟩
        intro other hother heq
        obtain hother | hother := mem_append.mp hother
        · exact absurd heq (ih other hother)
        · rw [mem_singleton.mp hother]
          exact UInt64.le_refl _
      | some origin =>
        rw [hlookup] at ih
        obtain ⟨⟨first, hfirst, hstream, rfl⟩, hle⟩ := ih
        rw [lookup_cons_self]
        obtain ⟨hmin, heq⟩ | ⟨hmin, heq⟩ := min_starts first.startTimeNs event.startTimeNs
        · rw [heq]
          refine ⟨⟨first, mem_append_left _ hfirst, hstream, rfl⟩, fun other hother hs ↦ ?_⟩
          obtain hother | hother := mem_append.mp hother
          · exact hle other hother hs
          · rwa [mem_singleton.mp hother]
        · rw [heq]
          refine ⟨⟨event, mem_append_right _ (mem_singleton_self _), rfl, rfl⟩, ?_⟩
          intro other hother hs
          obtain hother | hother := mem_append.mp hother
          · exact UInt64.le_trans hmin (hle other hother hs)
          · rw [mem_singleton.mp hother]
            exact UInt64.le_refl _
    · have hlookup : (noteOrigin origins event).lookup streamId = origins.lookup streamId := by
        rw [noteOrigin]
        split <;> rw [lookup_cons, beq_eq_false_iff_ne.mpr (Ne.symm hs)]
      rw [hlookup]
      cases hcase : origins.lookup streamId with
      | none =>
        rw [hcase] at ih
        intro other hother
        obtain hother | hother := mem_append.mp hother
        · exact ih other hother
        · rwa [mem_singleton.mp hother]
      | some origin =>
        rw [hcase] at ih
        obtain ⟨⟨first, hfirst, hfirst'⟩, hle⟩ := ih
        refine ⟨⟨first, mem_append_left _ hfirst, hfirst'⟩, fun other hother heq ↦ ?_⟩
        obtain hother | hother := mem_append.mp hother
        · exact hle other hother heq
        · rw [mem_singleton.mp hother] at heq
          exact absurd heq hs

/-- The line of an event starts with an event of the stream. -/
theorem exists_origin {events : List GpuTracerEvent} {event : GpuTracerEvent}
    (hevent : event ∈ events) : ∃ first ∈ events, first.streamId = event.streamId ∧
      originNs (events.foldl noteOrigin []) event.streamId =
        (I64.ofSizeT first.startTimeNs.toNat).val ∧
      ∀ other ∈ events, other.streamId = event.streamId →
        first.startTimeNs ≤ other.startTimeNs := by
  have h := isLeast_origin events event.streamId
  rw [originNs]
  cases hlookup : (events.foldl noteOrigin []).lookup event.streamId with
  | none =>
    rw [hlookup] at h
    exact absurd rfl (h event hevent)
  | some origin =>
    rw [hlookup] at h
    obtain ⟨⟨first, hfirst, hstream, rfl⟩, hle⟩ := h
    exact ⟨first, hfirst, hstream, rfl, hle⟩

/-! ### One device -/

/-- What is shown of an event of a device: its time is counted from its time. -/
def GpuTracerEvent.actual (deviceEvts : List GpuTracerEvent) (event : GpuTracerEvent) :
    ShownEvent :=
  let originPs := originNs (deviceEvts.foldl noteOrigin []) event.streamId * 1000
  let times := event.exportTimes.getD (0, 0)
  { plane := gpuPlaneName event.deviceId
    line := event.streamId.toNat
    name := event.exportName
    timestampPs := originPs + times.1.val
    endTimestampPs := originPs + times.1.val + times.2.val }

/-- The events of lines whose starts their ids tell. -/
theorem shownEvents_eq {plane : XPlane} (start : Int → Int)
    (h : ∀ line ∈ plane.lines, line.timestampNs = start line.id) :
    shownEvents plane = (lineEntries plane.lines).map fun entry ↦
      showEvent plane entry.1 (start entry.1) entry.2 := by
  rw [lineEntries, map_flatMap]
  refine flatMap_congr fun line hline ↦ ?_
  rw [map_map, h line hline]
  rfl

theorem shown_exportDevice {grow : Nat → Nat} {ordinal : UInt32} {plane : XPlane}
    {deviceEvts : List GpuTracerEvent} (hdevice : ∀ event ∈ deviceEvts, event.deviceId = ordinal)
    (h : exportDevice grow 0 ordinal deviceEvts { name := gpuPlaneName ordinal } = some plane) :
    plane.name = gpuPlaneName ordinal ∧
      (shownEvents plane).Perm (deviceEvts.map (GpuTracerEvent.actual deviceEvts)) := by
  have hnodup : (({ name := gpuPlaneName ordinal } : XPlane).lines.map XLine.id).Nodup := nodup_nil
  obtain ⟨b, done, rfl, hdone, -, hexported⟩ := exported_of_exportDevice hnodup h
  obtain ⟨hchange, hnames⟩ :=
    gpuStatMetadata_same (deviceBuilder 0 ordinal { name := gpuPlaneName ordinal })
  have hname : b.plane.name = gpuPlaneName ordinal := hexported.name.trans hnames.name
  have hlines : (gpuStatMetadata (deviceBuilder 0 ordinal
      { name := gpuPlaneName ordinal })).2.plane.lines = [] := hchange.lines
  have hevents := (hexported.names (XPlaneBuilder.EventNames.sameNames
    (b := deviceBuilder 0 ordinal { name := gpuPlaneName ordinal }) (fun _ _ ↦ nofun) hnames)).2
  have hentries := hexported.entries
  rw [hlines] at hentries
  refine ⟨hname, ?_⟩
  rw [shownEvents_eq fun id ↦ originNs (deviceEvts.foldl noteOrigin []) (UInt32.ofNat id.toNat)]
  · refine (hentries.map _).trans (.of_eq ?_)
    rw [← hdone, lineEntries, flatMap_nil, nil_append, map_map, map_map]
    refine map_congr_left fun pair hpair ↦ ?_
    obtain ⟨stats, offsetPs, durationPs, htimes, hdata, hduration, -⟩ :=
      hexported.records pair hpair
    have hpairDevice := hdevice pair.1 (hdone ▸ mem_map_of_mem hpair)
    have hoffset : pair.2.offsetPs = offsetPs.val := by rw [XEvent.offsetPs, hdata]
    simp only [Function.comp_apply, showEvent, actual, htimes, Option.getD_some,
      hname, hpairDevice, (hevents pair hpair).2, hoffset, hduration, Int.toNat_natCast,
      UInt32.ofNat_toNat]
  · intro line hline
    obtain ⟨pair, -, hid, htime⟩ | hold := hexported.line line hline
    · rw [htime, hid, Int.toNat_natCast, UInt32.ofNat_toNat]
    · rw [hlines] at hold
      cases hold

/-! ### All devices -/

theorem gpuPlaneName_injective : Function.Injective gpuPlaneName := by
  intro d d' h
  have h := toList_toString_injective (append_cancel_left h)
  exact UInt32.toBitVec_inj.mp (BitVec.toInt_inj.mp h)

/-- The events of a device in a plane that is added for it. -/
def exportNewPlane (grow : Nat → Nat) (events : List GpuTracerEvent) (device : UInt32) :
    Option XPlane :=
  exportDevice grow 0 device (deviceEvents events device) { name := gpuPlaneName device }

section Devices

variable {grow capacity : Nat → Nat} {devices : List UInt32} {events : List GpuTracerEvent}
  {space space' : XSpace}

theorem exportPlane_new {device : UInt32}
    (hnew : ∀ plane ∈ space.planes, plane.name ≠ gpuPlaneName device) :
    exportPlane grow capacity events space device =
      (exportNewPlane grow events device).map fun plane ↦
        { space with planes := space.planes ++ [plane] } := by
  have hfind : space.planes.findIdx? (fun plane ↦ plane.name = gpuPlaneName device) = none :=
    findIdx?_eq_none_iff.mpr fun plane hplane ↦ decide_eq_false (hnew plane hplane)
  rw [exportPlane, hfind, Option.map_eq_bind]
  rfl

/-- Every device has its own new plane. -/
theorem exportXSpace_eq_some (hnodup : devices.Nodup)
    (hnew : ∀ device ∈ devices, ∀ plane ∈ space.planes, plane.name ≠ gpuPlaneName device) :
    exportXSpace grow capacity devices events space = some space' ↔
      ∃ planes, List.Forall₂ (fun device plane ↦ exportNewPlane grow events device = some plane)
        devices planes ∧ space' = { space with planes := space.planes ++ planes } := by
  induction devices generalizing space with
  | nil =>
    constructor
    · rintro ⟨⟩
      exact ⟨[], .nil, by rw [append_nil]⟩
    · rintro ⟨_, ⟨⟩, rfl⟩
      rw [append_nil]
      rfl
  | cons device devices ih =>
    obtain ⟨hdevice, hnodup⟩ := nodup_cons.mp hnodup
    rw [exportXSpace, foldlM_cons, exportPlane_new (hnew device mem_cons_self)]
    have hname : ∀ plane, exportNewPlane grow events device = some plane →
        plane.name = gpuPlaneName device := fun plane hplane ↦
      (shown_exportDevice (fun e he ↦ of_decide_eq_true (mem_filter.mp he).2) hplane).1
    have ih : ∀ plane, exportNewPlane grow events device = some plane → _ := fun plane hplane ↦
      @ih { space with planes := space.planes ++ [plane] } hnodup (by
        intro d hd p hp
        obtain hp | hp := mem_append.mp hp
        · exact hnew d (mem_cons_of_mem _ hd) p hp
        · rw [mem_singleton.mp hp, hname plane hplane]
          exact fun heq ↦ hdevice (gpuPlaneName_injective heq ▸ hd))
    cases hplane : exportNewPlane grow events device with
    | none =>
      refine ⟨nofun, ?_⟩
      rintro ⟨_, hplanes, -⟩
      cases hplanes with
      | cons hp _ => cases hplane.symm.trans hp
    | some plane =>
      refine (ih plane hplane).trans ⟨?_, ?_⟩
      · rintro ⟨planes, hplanes, rfl⟩
        exact ⟨plane :: planes, .cons hplane hplanes, by simp⟩
      · rintro ⟨_, hplanes, rfl⟩
        cases hplanes with
        | cons hp hplanes =>
          obtain rfl := Option.some.inj (hplane.symm.trans hp)
          exact ⟨_, hplanes, by simp⟩

theorem shown_newPlanes {planes : List XPlane}
    (hplanes : List.Forall₂ (fun device plane ↦ exportNewPlane grow events device = some plane)
      devices planes) :
    planes.map XPlane.name = devices.map gpuPlaneName ∧
      (planes.flatMap shownEvents).Perm (devices.flatMap fun device ↦
        (deviceEvents events device).map (GpuTracerEvent.actual (deviceEvents events device))) := by
  induction hplanes with
  | nil => exact ⟨rfl, .refl _⟩
  | cons hplane _ ih =>
    obtain ⟨hname, hshown⟩ := shown_exportDevice
      (fun event hevent ↦ of_decide_eq_true (mem_filter.mp hevent).2) hplane
    exact ⟨congrArg₂ cons hname ih.1, hshown.append ih.2⟩

/-- The events that the visitors show are the collected ones, each with the time of its line. -/
theorem shown_exportXSpace {planes : List XPlane} (hnodup : devices.Nodup)
    (hdevices : ∀ event ∈ events, event.deviceId ∈ devices)
    (hplanes : List.Forall₂ (fun device plane ↦ exportNewPlane grow events device = some plane)
      devices planes) :
    (planes.flatMap shownEvents).Perm
      (events.map fun event ↦ event.actual (deviceEvents events event.deviceId)) := by
  have hmap : (devices.flatMap fun device ↦ (deviceEvents events device).map
        (actual (deviceEvents events device))) =
      (devices.flatMap (deviceEvents events)).map fun event ↦
        event.actual (deviceEvents events event.deviceId) := by
    rw [map_flatMap]
    refine flatMap_congr fun device _ ↦ map_congr_left fun event hevent ↦ ?_
    rw [of_decide_eq_true (mem_filter.mp hevent).2]
  exact ((shown_newPlanes hplanes).2.trans (.of_eq hmap)).trans
    ((perm_flatMap_filter hnodup hdevices).map _)

end Devices

/-! ### When the times are kept -/

section Times

variable {events : List GpuTracerEvent} {event : GpuTracerEvent}

/-- The start of a line is a time that the exporter has turned into picoseconds. -/
theorem origin_lt (hdefined : ∀ event ∈ events, event.exportTimes.isSome) (hevent : event ∈ events) :
    originNs ((deviceEvents events event.deviceId).foldl noteOrigin []) event.streamId * 1000 <
      2 ^ 63 := by
  obtain ⟨first, hfirst, -, horigin, -⟩ := exists_origin (mem_deviceEvents hevent)
  rw [horigin]
  have htimes := hdefined first (mem_filter.mp hfirst).1
  exact (nanoToPico_isSome_iff.mp (exportTimes_isSome_iff.mp htimes).1).2

/-- Times that are shown as they should be are in range. -/
theorem toNat_lt_of_expected (hdefined : ∀ event ∈ events, event.exportTimes.isSome)
    (hshown : event.expected ∈ events.map fun event ↦
      event.actual (deviceEvents events event.deviceId)) :
    event.startTimeNs.toNat < 2 ^ 63 ∧ event.endTimeNs.toNat < 2 ^ 63 := by
  obtain ⟨other, hother, heq⟩ := mem_map.mp hshown
  have horigin := origin_lt hdefined hother
  have hbegin := congrArg ShownEvent.timestampPs heq
  have hend := congrArg ShownEvent.endTimestampPs heq
  have hoffset := (other.exportTimes.getD (0, 0)).1.upper
  have hduration := (other.exportTimes.getD (0, 0)).2.upper
  dsimp only [actual, expected] at hbegin hend
  omega

/-- An event in range is shown as many picoseconds late as its line starts late. -/
theorem actual_eq (hle : event.startTimeNs ≤ event.endTimeNs)
    (hlt : event.endTimeNs.toNat * 1000 < 2 ^ 63) (deviceEvts : List GpuTracerEvent) :
    event.actual deviceEvts = { event.expected with
        timestampPs := originNs (deviceEvts.foldl noteOrigin []) event.streamId * 1000 +
          event.expected.timestampPs
        endTimestampPs := originNs (deviceEvts.foldl noteOrigin []) event.streamId * 1000 +
          event.expected.endTimestampPs } := by
  obtain ⟨offsetPs, durationPs, htimes, hoffset, hduration⟩ := exportTimes_of_lt hle hlt
  simp only [actual, expected, htimes, Option.getD_some, ShownEvent.mk.injEq, true_and]
  omega

theorem range_of_toNat_lt (hdefined : ∀ event ∈ events, event.exportTimes.isSome)
    (hevent : event ∈ events) (hlt : event.endTimeNs.toNat < 2 ^ 63) :
    event.endTimeNs.toNat * 1000 < 2 ^ 63 := by
  have hrange := (nanoToPico_isSome_iff.mp (exportTimes_isSome_iff.mp (hdefined event hevent)).2).2
  rw [val_ofSizeT (Nat.le_sub_one_of_lt hlt)] at hrange
  omega

/-- Events that are shown as they should be, in some order, are on lines that start at zero: the
sum of the starts is what the shown times exceed the recorded ones by. -/
theorem origin_eq_zero (hle : ∀ event ∈ events, event.startTimeNs ≤ event.endTimeNs)
    (hrange : ∀ event ∈ events, event.endTimeNs.toNat * 1000 < 2 ^ 63)
    (hperm : (events.map fun event ↦ event.actual (deviceEvents events event.deviceId)).Perm
      (events.map GpuTracerEvent.expected)) (hevent : event ∈ events) :
    originNs ((deviceEvents events event.deviceId).foldl noteOrigin []) event.streamId = 0 := by
  set origin : GpuTracerEvent → Int := fun event ↦
    originNs ((deviceEvents events event.deviceId).foldl noteOrigin []) event.streamId * 1000
  have hnonneg : ∀ x ∈ events.map origin, 0 ≤ x := by
    intro x hx
    obtain ⟨other, hother, rfl⟩ := mem_map.mp hx
    obtain ⟨first, hfirst, -, horigin, -⟩ := exists_origin (mem_deviceEvents hother)
    have hmem := (mem_filter.mp hfirst).1
    have hlt := hrange first hmem
    have hstart := UInt64.le_iff_toNat_le.mp (hle first hmem)
    dsimp only [origin]
    rw [horigin, val_ofSizeT (Nat.le_sub_one_of_lt (by omega))]
    omega
  have hsum := (hperm.map ShownEvent.timestampPs).sum_eq
  have hactual : (events.map fun event ↦ event.actual (deviceEvents events event.deviceId)).map
      ShownEvent.timestampPs =
        events.map fun event ↦ origin event + event.expected.timestampPs := by
    rw [map_map]
    refine map_congr_left fun event hevent ↦ ?_
    rw [Function.comp_apply, actual_eq (hle event hevent) (hrange event hevent)]
  rw [hactual, sum_map_add, map_map] at hsum
  have hzero : (events.map origin).sum = 0 := by
    have hcomp : ShownEvent.timestampPs ∘ expected = fun event ↦ event.expected.timestampPs := rfl
    rw [hcomp] at hsum
    omega
  have := all_zero_of_le_zero_le_of_sum_eq_zero hnonneg hzero (mem_map_of_mem hevent)
  dsimp only [origin] at this
  omega

/-- The shown times are the recorded ones exactly where every stream has an event that starts at
zero. -/
theorem perm_expected_iff (hle : ∀ event ∈ events, event.startTimeNs ≤ event.endTimeNs)
    (hdefined : ∀ event ∈ events, event.exportTimes.isSome) :
    (events.map fun event ↦ event.actual (deviceEvents events event.deviceId)).Perm
        (events.map GpuTracerEvent.expected) ↔
      (∀ event ∈ events, ∃ first ∈ events, first.deviceId = event.deviceId ∧
        first.streamId = event.streamId ∧ first.startTimeNs = 0) ∧
      ∀ event ∈ events, event.endTimeNs.toNat * 1000 < 2 ^ 63 := by
  constructor
  · intro hperm
    have hrange : ∀ event ∈ events, event.endTimeNs.toNat * 1000 < 2 ^ 63 := fun event hevent ↦
      range_of_toNat_lt hdefined hevent (toNat_lt_of_expected hdefined
        (hperm.mem_iff.mpr (mem_map_of_mem hevent))).2
    refine ⟨fun event hevent ↦ ?_, hrange⟩
    have hzero := origin_eq_zero hle hrange hperm hevent
    obtain ⟨first, hfirst, hstream, horigin, -⟩ := exists_origin (mem_deviceEvents hevent)
    obtain ⟨hmem, hdevice⟩ := mem_filter.mp hfirst
    refine ⟨first, hmem, of_decide_eq_true hdevice, hstream, ?_⟩
    have hlt := hrange first hmem
    have hstart := UInt64.le_iff_toNat_le.mp (hle first hmem)
    rw [horigin, val_ofSizeT (Nat.le_sub_one_of_lt (by omega))] at hzero
    exact UInt64.toNat_inj.mp (Int.ofNat_eq_zero.mp hzero)
  · rintro ⟨hfirst, hrange⟩
    refine .of_eq (map_congr_left fun event hevent ↦ ?_)
    obtain ⟨zero, hzero, hdevice, hstream, hstart⟩ := hfirst event hevent
    obtain ⟨first, -, -, horigin, hleast⟩ := exists_origin (mem_deviceEvents hevent)
    have hfirst := UInt64.le_iff_toNat_le.mp
      (hleast zero (mem_filter.mpr ⟨hzero, decide_eq_true hdevice⟩) hstream)
    rw [hstart] at hfirst
    have hfirst : first.startTimeNs.toNat = 0 := Nat.le_zero.mp hfirst
    rw [actual_eq (hle event hevent) (hrange event hevent), horigin, hfirst,
      val_ofSizeT (Nat.zero_le _), Int.natCast_zero, Int.zero_mul, Int.zero_add, Int.zero_add]

end Times

/-! ### The export -/

section Export

variable {grow capacity : Nat → Nat} {devices : List UInt32} {events : List GpuTracerEvent}
  {space : XSpace}

/-- The collector keeps events whose ends are not before their starts. -/
theorem foldl_collectEvent (hle : ∀ event ∈ events, event.startTimeNs ≤ event.endTimeNs)
    (collected : List GpuTracerEvent) : events.foldl collectEvent collected = collected ++ events := by
  induction events generalizing collected with
  | nil => exact (append_nil _).symm
  | cons event events ih =>
    have hmax : max event.endTimeNs event.startTimeNs = event.endTimeNs := by
      by_cases h : event.endTimeNs ≤ event.startTimeNs
      · exact (if_pos h).trans (UInt64.le_antisymm (hle event mem_cons_self) h)
      · exact if_neg h
    rw [foldl_cons, ih (fun e he ↦ hle e (mem_cons_of_mem _ he)), collectEvent, hmax, append_assoc]
    rfl

/-- All devices can be exported where each of them can. -/
theorem exists_newPlanes : (∃ planes, List.Forall₂
      (fun device plane ↦ exportNewPlane grow events device = some plane) devices planes) ↔
    ∀ device ∈ devices, (exportNewPlane grow events device).isSome := by
  constructor
  · rintro ⟨planes, hplanes⟩
    induction hplanes with
    | nil => nofun
    | cons hplane _ ih =>
      intro device hdevice
      obtain rfl | hdevice := mem_cons.mp hdevice
      · rw [hplane]
        rfl
      · exact ih device hdevice
  · intro h
    induction devices with
    | nil => exact ⟨[], .nil⟩
    | cons device devices ih =>
      obtain ⟨plane, hplane⟩ := Option.isSome_iff_exists.mp (h device mem_cons_self)
      obtain ⟨planes, hplanes⟩ := ih fun d hd ↦ h d (mem_cons_of_mem _ hd)
      exact ⟨plane :: planes, .cons hplane hplanes⟩

theorem exportNewPlane_isSome {device : UInt32} : (exportNewPlane grow events device).isSome ↔
    LinesStay grow {} (deviceEvents events device) ∧
      ∀ event ∈ deviceEvents events device, event.exportTimes.isSome := by
  have hnodup : (({ name := gpuPlaneName device } : XPlane).lines.map XLine.id).Nodup := nodup_nil
  exact exportDevice_isSome _ _ hnodup

/-- Where the times are kept, every stream has an event that starts at zero. -/
theorem startsAtZero_of_keepsTimes (hnodup : devices.Nodup)
    (hdevices : ∀ event ∈ events, event.deviceId ∈ devices)
    (hle : ∀ event ∈ events, event.startTimeNs ≤ event.endTimeNs)
    (hnew : ∀ device ∈ devices, ∀ plane ∈ space.planes, plane.name ≠ gpuPlaneName device)
    (h : KeepsTimes devices events space (exportXSpace grow capacity devices events space)) :
    StartsAtZero grow devices events := by
  obtain ⟨planes, hexport, -, hperm⟩ := h
  obtain ⟨planes', hplanes, heq⟩ := (exportXSpace_eq_some hnodup hnew).mp hexport
  obtain rfl := append_cancel_left (congrArg XSpace.planes heq)
  have hsome := exists_newPlanes.mp ⟨planes, hplanes⟩
  have hdefined : ∀ event ∈ events, event.exportTimes.isSome := fun event hevent ↦
    (exportNewPlane_isSome.mp (hsome _ (hdevices event hevent))).2 event
      (mem_filter.mpr ⟨hevent, decide_eq_true rfl⟩)
  obtain ⟨horigin, hrange⟩ := (perm_expected_iff hle hdefined).mp
    ((shown_exportXSpace hnodup hdevices hplanes).symm.trans hperm)
  exact ⟨horigin, hrange, fun device hdevice ↦ (exportNewPlane_isSome.mp (hsome _ hdevice)).1⟩

/-- Every event is shown once, on the plane of its device and the line of its stream, with the
times that were collected, exactly where every stream has an event that starts at zero. -/
theorem exportXSpace_keepsTimes_iff (hnodup : devices.Nodup)
    (hdevices : ∀ device, device ∈ devices ↔ ∃ event ∈ events, event.deviceId = device)
    (hle : ∀ event ∈ events, event.startTimeNs ≤ event.endTimeNs)
    (hnew : ∀ device ∈ devices, ∀ plane ∈ space.planes, plane.name ≠ gpuPlaneName device) :
    KeepsTimes devices events space
        (exportXSpace grow capacity devices (events.foldl collectEvent []) space) ↔
      StartsAtZero grow devices events := by
  rw [foldl_collectEvent hle]
  have hmem : ∀ event ∈ events, event.deviceId ∈ devices := fun event hevent ↦
    (hdevices _).mpr ⟨event, hevent, rfl⟩
  refine ⟨startsAtZero_of_keepsTimes hnodup hmem hle hnew, ?_⟩
  rintro ⟨horigin, hrange, hstay⟩
  have hdefined : ∀ event ∈ events, event.exportTimes.isSome := by
    intro event hevent
    obtain ⟨offsetPs, durationPs, htimes, -⟩ :=
      exportTimes_of_lt (hle event hevent) (hrange event hevent)
    rw [htimes]
    rfl
  obtain ⟨planes, hplanes⟩ := exists_newPlanes.mpr fun device hdevice ↦
    exportNewPlane_isSome.mpr ⟨hstay device hdevice, fun event hevent ↦
      hdefined event (mem_filter.mp hevent).1⟩
  refine ⟨planes, (exportXSpace_eq_some hnodup hnew).mpr ⟨planes, hplanes, rfl⟩,
    (shown_newPlanes hplanes).1, ?_⟩
  exact (shown_exportXSpace hnodup hmem hplanes).trans
    ((perm_expected_iff hle hdefined).mpr ⟨horigin, hrange⟩)

/-- Events of two devices that start at zero. -/
theorem zero_start_keepsTimes :
    KeepsTimes [0, 1] [{ endTimeNs := 5 }, { deviceId := 1, streamId := 7 }] {}
      (exportXSpace doubled (fun _ ↦ 0) [0, 1]
        ([{ endTimeNs := 5 }, { deviceId := 1, streamId := 7 }].foldl collectEvent []) {}) :=
  (exportXSpace_keepsTimes_iff (by decide) (by simp [eq_comm]) (by decide)
    (fun _ _ _ h ↦ absurd h not_mem_nil)).mpr ⟨by decide, by decide, by
      intro device hdevice
      obtain rfl | hdevice := mem_cons.mp hdevice
      · rfl
      · obtain rfl := mem_singleton.mp hdevice
        rfl⟩

/-- One event that starts after one nanosecond is shown as if it did after two. -/
theorem later_start_not_kept :
    ¬KeepsTimes [0] [{ startTimeNs := 1, endTimeNs := 2 }] {} (exportXSpace doubled (fun _ ↦ 0) [0]
        ([{ startTimeNs := 1, endTimeNs := 2 }].foldl collectEvent []) {}) := by
  intro h
  have hzero := startsAtZero_of_keepsTimes (by decide) (by decide) (by decide)
    (fun _ _ _ h ↦ absurd h not_mem_nil) h
  exact absurd (hzero.origin _ (mem_singleton_self _)) (by decide)

end Export

end Hisab.Profiler
