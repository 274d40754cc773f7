import Hisab.Profiler.GpuExport
import Hisab.Profiler.LineVector

/-!
# The lines of the GPU exporter

Where the requests for the lines of its streams go through, the exporter puts every event on the
line of its stream.
-/

namespace Hisab.Profiler

open Base List XPlaneBuilder Option

/-! ### One event -/

section Event

variable {grow : Nat → Nat} {stats : GpuStatMetadata} {lineOrigin : List (UInt32 × UInt64)}
  {b b' : XPlaneBuilder} {event : GpuTracerEvent} {v v' : LineVector}

/-- The time of the line of a stream. -/
def originNs (lineOrigin : List (UInt32 × UInt64)) (streamId : UInt32) : Int :=
  (I64.ofSizeT ((lineOrigin.lookup streamId).getD 0).toNat).val

/-- What is recorded of an event: its times and its stats. -/
def Records (event : GpuTracerEvent) (raw : XEvent) : Prop :=
  ∃ stats offsetPs durationPs, event.exportTimes = some (offsetPs, durationPs) ∧
    raw.data = .offset offsetPs.val ∧ raw.durationPs = durationPs.val ∧
      raw.stats = event.exportStats stats

/-- `raw` is on the line of the stream, which has the time of the stream, and the other lines are
what they were. -/
structure Added (lineOrigin : List (UInt32 × UInt64)) (event : GpuTracerEvent) (raw : XEvent)
    (b b' : XPlaneBuilder) : Prop where
  entries : (lineEntries b'.plane.lines).Perm
    (lineEntries b.plane.lines ++ [((event.streamId.toNat : Int), raw)])
  records : Records event raw
  line : ∀ l ∈ b'.plane.lines, l.id = event.streamId.toNat ∧
      l.timestampNs = originNs lineOrigin event.streamId ∨
    l.id ≠ event.streamId.toNat ∧ l ∈ b.plane.lines
  name : b'.plane.name = b.plane.name
  names : b.EventNames → b'.EventNames ∧ raw.metadataId ≤ b'.lastEventMetadataId ∧
    (b'.plane.getEventMetadata raw.metadataId).name = event.exportName
  last : b.lastEventMetadataId ≤ b'.lastEventMetadataId
  metadata : ∀ id, id ≤ b.lastEventMetadataId →
    b'.plane.getEventMetadata id = b.plane.getEventMetadata id

theorem exportEvent_none_of_request (h : v.Tracks b)
    (hrequest : v.request grow event.streamId.toNat = none) :
    exportEvent grow stats lineOrigin b event = none := by
  have hline := h.request_none hrequest
  simp [exportEvent, modifyLine, hline]

/-- What the loop does to the line of the event. -/
def exportedLine (lineOrigin : List (UInt32 × UInt64)) (event : GpuTracerEvent) (raw : XEvent)
    (line : XLine) : XLine where
  id := line.id
  displayId := line.displayId
  name := "stream ".toList ++ (toString event.streamId.toNat).toList
  displayName := line.displayName
  timestampNs := originNs lineOrigin event.streamId
  durationPs := line.durationPs
  events := line.events ++ [raw]

theorem exportEvent_none_of_times (htimes : event.exportTimes = none) :
    exportEvent grow stats lineOrigin b event = none := by
  simp [exportEvent, htimes]

variable (stats lineOrigin) in
/-- The steps of the loop change the line of the event. -/
theorem exportEvent_eq {line : LinePtr} {b₁ : XPlaneBuilder}
    (hcreated : b.getOrCreateLine grow event.streamId.toNat = (line, b₁))
    (hrefers : b₁.Refers event.streamId.toNat line) {offsetPs durationPs : I64}
    (htimes : event.exportTimes = some (offsetPs, durationPs)) :
    ∃ b' raw, exportEvent grow stats lineOrigin b event = some b' ∧
      LineChange b₁ b' line.index (exportedLine lineOrigin event raw) ∧
      Records event raw ∧ ∃ b₃, XPlaneBuilder.SameNames b₁ b₃ ∧
        raw.metadataId = ((b₃.getOrCreateEventMetadata event.exportName).2.plane.getEventMetadata
          (b₃.getOrCreateEventMetadata event.exportName).1).id ∧
          XPlaneBuilder.SameNames (b₃.getOrCreateEventMetadata event.exportName).2 b' := by
  obtain ⟨b₂, hb₂, hchange₂, hnames₂⟩ := LineChange.modifyLine hrefers
    fun l ↦ LineSetter.set l (.setName ("stream ".toList ++ (toString event.streamId.toNat).toList))
  have hrefers₂ := hchange₂.refers (BuilderState.Handles.id_set _) hrefers
  obtain ⟨b₃, hb₃, hchange₃, hnames₃⟩ := LineChange.modifyLine hrefers₂
    fun l ↦ LineSetter.set l (.setTimestampNs (originNs lineOrigin event.streamId))
  have hrefers₃ := hchange₃.refers (BuilderState.Handles.id_set _) hrefers₂
  have hrefers₄ := (LineChange.eventMetadata b₃ event.exportName line.index).refers
    (fun _ ↦ rfl) hrefers₃
  obtain ⟨b₅, hb₅, hchange₅, hnames₅⟩ := LineChange.modifyLine hrefers₄ fun l ↦ l.addEvent
    { metadataId := ((b₃.getOrCreateEventMetadata event.exportName).2.plane.getEventMetadata
        (b₃.getOrCreateEventMetadata event.exportName).1).id
      data := .offset offsetPs.val
      durationPs := durationPs.val
      stats := event.exportStats stats }
  refine ⟨b₅, _, ?_, ((hchange₂.trans hchange₃).trans (.eventMetadata b₃ _ _)).trans hchange₅,
    ⟨stats, offsetPs, durationPs, htimes, rfl, rfl, rfl⟩, b₃, hnames₂.trans hnames₃, rfl, hnames₅⟩
  rw [originNs] at hb₃
  simp only [exportEvent, hcreated, hb₂, hb₃, htimes, bind_eq_bind, bind_some, hb₅]

variable (stats lineOrigin) in
theorem exportEvent_some (h : v.Tracks b)
    (hrequest : v.request grow event.streamId.toNat = some v') {offsetPs durationPs : I64}
    (htimes : event.exportTimes = some (offsetPs, durationPs)) :
    ∃ b' raw, exportEvent grow stats lineOrigin b event = some b' ∧ v'.Tracks b' ∧
      Added lineOrigin event raw b b' := by
  obtain ⟨htracks, hrefers⟩ := h.request hrequest
  obtain ⟨hentries, hlines⟩ := LineVector.lines_getOrCreateLine grow b (event.streamId.toNat : Int)
  have hnames₁ := sameNames_getOrCreateLine b grow event.streamId.toNat
  cases hcreated : b.getOrCreateLine grow event.streamId.toNat with
  | mk line b₁ =>
    rw [hcreated] at htracks hrefers hentries hlines hnames₁
    dsimp only at htracks hrefers hentries hlines hnames₁
    obtain ⟨b', raw, hexport, hchange, hrecords, b₃, hnames₃, hid, hnames'⟩ :=
      exportEvent_eq stats lineOrigin hcreated hrefers htimes
    obtain ⟨l, hl, hlid⟩ := hrefers
    obtain ⟨-, hget⟩ := line?_eq_some.mp hl
    have hnames₃ := hnames₁.trans hnames₃
    refine ⟨b', raw, hexport, htracks.change hchange fun _ ↦ rfl, ?_, hrecords, ?_, ?_, ?_, ?_, ?_⟩
    · rw [hchange.lines, ← hentries, ← hlid]
      exact lineEntries_modify hget rfl rfl
    · intro l' hl'
      rw [hchange.lines] at hl'
      have hnodup : (b₁.plane.lines.map XLine.id).Nodup := htracks.ids ▸ htracks.nodup
      obtain rfl | ⟨hmem, hne⟩ := mem_modify hnodup hget hl'
      · exact .inl ⟨hlid, rfl⟩
      · rw [hlid] at hne
        exact .inr ⟨hne, (hlines l' hmem).resolve_right hne⟩
    · rw [hnames'.name, name_getOrCreateEventMetadata, hnames₃.name]
    · intro hb
      have hb₃ := hb.sameNames hnames₃
      obtain ⟨hle, hkey, hname⟩ := getOrCreateEventMetadata_spec hb₃ event.exportName
      rw [hkey] at hid
      refine ⟨(hb₃.getOrCreate event.exportName).sameNames hnames', ?_, ?_⟩
      · rw [hid, hnames'.last]
        exact hle
      · rw [hid, hnames'.getEventMetadata]
        exact hname
    · rw [hnames'.last, ← hnames₃.last]
      exact lastEventMetadataId_le b₃ event.exportName
    · intro id hle
      rw [← hnames₃.last] at hle
      rw [hnames'.getEventMetadata, getEventMetadata_getOrCreate b₃ _ hle, hnames₃.getEventMetadata]

/-! ### All events of a device -/

/-- What the loop has made of `b₀`: each event that it has gone through, with what was added. -/
structure Exported (lineOrigin : List (UInt32 × UInt64)) (b₀ : XPlaneBuilder)
    (done : List (GpuTracerEvent × XEvent)) (b : XPlaneBuilder) : Prop where
  entries : (lineEntries b.plane.lines).Perm
    (lineEntries b₀.plane.lines ++ done.map fun pair ↦ ((pair.1.streamId.toNat : Int), pair.2))
  records : ∀ pair ∈ done, Records pair.1 pair.2
  line : ∀ l ∈ b.plane.lines, (∃ pair ∈ done, l.id = pair.1.streamId.toNat ∧
    l.timestampNs = originNs lineOrigin pair.1.streamId) ∨ l ∈ b₀.plane.lines
  name : b.plane.name = b₀.plane.name
  names : b₀.EventNames → b.EventNames ∧ ∀ pair ∈ done, pair.2.metadataId ≤ b.lastEventMetadataId ∧
      (b.plane.getEventMetadata pair.2.metadataId).name = pair.1.exportName

theorem Exported.nil (lineOrigin : List (UInt32 × UInt64)) (b₀ : XPlaneBuilder) :
    Exported lineOrigin b₀ [] b₀ where
  entries := by rw [map_nil, append_nil]
  records := nofun
  line _ hl := .inr hl
  name := rfl
  names h := ⟨h, nofun⟩

variable {done : List (GpuTracerEvent × XEvent)}

theorem Exported.add {b₀ : XPlaneBuilder} {raw : XEvent} (h : Exported lineOrigin b₀ done b)
    (hadded : Added lineOrigin event raw b b') :
    Exported lineOrigin b₀ (done ++ [(event, raw)]) b' where
  entries := by
    rw [map_append, ← append_assoc]
    exact hadded.entries.trans (h.entries.append_right _)
  records pair hpair := by
    obtain hpair | hpair := mem_append.mp hpair
    · exact h.records pair hpair
    · obtain rfl := mem_singleton.mp hpair
      exact hadded.records
  line l hl := by
    obtain ⟨hid, htime⟩ | ⟨-, hold⟩ := hadded.line l hl
    · exact .inl ⟨(event, raw), mem_append_right _ (mem_singleton_self _), hid, htime⟩
    · obtain ⟨pair, hpair, hid, htime⟩ | hold := h.line l hold
      · exact .inl ⟨pair, mem_append_left _ hpair, hid, htime⟩
      · exact .inr hold
  name := hadded.name.trans h.name
  names hb₀ := by
    obtain ⟨hb, hdone⟩ := h.names hb₀
    obtain ⟨hb', hle, hname⟩ := hadded.names hb
    refine ⟨hb', fun pair hpair ↦ ?_⟩
    obtain hpair | hpair := mem_append.mp hpair
    · obtain ⟨hle, hname⟩ := hdone pair hpair
      rw [hadded.metadata _ hle]
      exact ⟨Int.le_trans hle hadded.last, hname⟩
    · obtain rfl := mem_singleton.mp hpair
      exact ⟨hle, hname⟩

/-- The requests for the lines of the events go through. -/
def LinesStay (grow : Nat → Nat) (v : LineVector) (events : List GpuTracerEvent) : Prop :=
  ((events.map fun event ↦ (event.streamId.toNat : Int)).foldlM (LineVector.request grow) v).isSome

instance (grow : Nat → Nat) (v : LineVector) (events : List GpuTracerEvent) :
    Decidable (LinesStay grow v events) :=
  inferInstanceAs (Decidable (_ = true))

variable {events : List GpuTracerEvent}

theorem linesStay_cons : LinesStay grow v (event :: events) ↔
      ∃ v', v.request grow event.streamId.toNat = some v' ∧ LinesStay grow v' events := by
  rw [LinesStay, map_cons, foldlM_cons]
  cases v.request grow event.streamId.toNat with
  | none => exact ⟨nofun, nofun⟩
  | some v' =>
    refine ⟨fun h ↦ ⟨v', rfl, h⟩, ?_⟩
    rintro ⟨_, ⟨⟩, h⟩
    exact h

theorem foldlM_exportEvent {b₀ : XPlaneBuilder} (h : v.Tracks b)
    (hdone : Exported lineOrigin b₀ done b) (hstay : LinesStay grow v events)
    (htimes : ∀ event ∈ events, event.exportTimes.isSome) :
    ∃ b' rest v', events.foldlM (exportEvent grow stats lineOrigin) b = some b' ∧
      LineVector.Tracks v' b' ∧ Exported lineOrigin b₀ (done ++ rest) b' ∧
        rest.map Prod.fst = events := by
  induction events generalizing v b done with
  | nil => exact ⟨b, [], v, rfl, h, by rwa [append_nil], rfl⟩
  | cons event events ih =>
    obtain ⟨v', hrequest, hstay⟩ := linesStay_cons.mp hstay
    obtain ⟨⟨offsetPs, durationPs⟩, hexport⟩ := isSome_iff_exists.mp (htimes event mem_cons_self)
    obtain ⟨b₁, raw, hb₁, htracks, hadded⟩ := exportEvent_some stats lineOrigin h hrequest hexport
    obtain ⟨b', rest, v'', hb', htracks, hexported, hrest⟩ := ih htracks (hdone.add hadded) hstay
      fun e he ↦ htimes e (mem_cons_of_mem _ he)
    refine ⟨b', (event, raw) :: rest, v'', ?_, htracks, ?_, ?_⟩
    · rw [foldlM_cons, hb₁]
      exact hb'
    · rwa [append_assoc] at hexported
    · rw [map_cons, hrest]

/-- The export is defined for these events only. -/
theorem of_foldlM_exportEvent (h : v.Tracks b)
    (hb' : events.foldlM (exportEvent grow stats lineOrigin) b = some b') :
    LinesStay grow v events ∧ ∀ event ∈ events, event.exportTimes.isSome := by
  induction events generalizing v b with
  | nil => exact ⟨rfl, nofun⟩
  | cons event events ih =>
    rw [foldlM_cons, bind_eq_bind, bind_eq_some_iff] at hb'
    obtain ⟨b₁, hb₁, hb'⟩ := hb'
    cases hrequest : v.request grow event.streamId.toNat with
    | none =>
      rw [exportEvent_none_of_request h hrequest] at hb₁
      cases hb₁
    | some v' =>
      cases hexport : event.exportTimes with
      | none =>
        rw [exportEvent_none_of_times hexport] at hb₁
        cases hb₁
      | some times =>
        obtain ⟨b₂, raw, hb₂, htracks, -⟩ := exportEvent_some stats lineOrigin h hrequest hexport
        obtain rfl := some.inj (hb₁.symm.trans hb₂)
        obtain ⟨hstay, htimes⟩ := ih htracks hb'
        refine ⟨linesStay_cons.mpr ⟨v', hrequest, hstay⟩, fun e he ↦ ?_⟩
        obtain rfl | he := mem_cons.mp he
        · rw [hexport]
          rfl
        · exact htimes e he

end Event

/-! ### One device -/

section Device

variable {grow : Nat → Nat} {capacity : Nat} {ordinal : UInt32} {deviceEvts : List GpuTracerEvent}
  {plane plane' : XPlane}

/-- The builder before the first event. -/
def deviceBuilder (capacity : Nat) (ordinal : UInt32) (plane : XPlane) : XPlaneBuilder :=
  let b := XPlaneBuilder.ofPlane plane capacity
  { b with plane := { b.plane with name := gpuPlaneName ordinal } }

theorem gpuStatMetadata_same (b : XPlaneBuilder) :
    LineChange b (gpuStatMetadata b).2 0 id ∧ b.SameNames (gpuStatMetadata b).2 :=
  ⟨((((LineChange.statMetadata _ _ 0).trans (.statMetadata _ _ 0)).trans
      (.statMetadata _ _ 0)).trans (.statMetadata _ _ 0)).trans (.statMetadata _ _ 0),
    ((((sameNames_statMetadata _ _).trans (sameNames_statMetadata _ _)).trans
      (sameNames_statMetadata _ _)).trans
      (sameNames_statMetadata _ _)).trans
      (sameNames_statMetadata _ _)⟩

theorem exportDevice_eq (deviceEvts : List GpuTracerEvent) (plane : XPlane) :
    exportDevice grow capacity ordinal deviceEvts plane = (deviceEvts.foldlM (exportEvent grow
        (gpuStatMetadata (deviceBuilder capacity ordinal plane)).1 (deviceEvts.foldl noteOrigin []))
        (gpuStatMetadata (deviceBuilder capacity ordinal plane)).2).map XPlaneBuilder.plane := by
  rw [map_eq_bind]
  rfl

theorem tracks_device (hnodup : (plane.lines.map XLine.id).Nodup) :
    LineVector.Tracks (.ofLines plane.lines capacity)
      (gpuStatMetadata (deviceBuilder capacity ordinal plane)).2 := by
  have h := LineVector.tracks_ofPlane hnodup capacity
  exact LineVector.Tracks.change (b := deviceBuilder capacity ordinal plane)
    ⟨h.capacity, h.generation, h.ids, h.nodup, h.known, h.unknown⟩ (gpuStatMetadata_same _).1
    fun _ ↦ rfl

variable (capacity ordinal) in
/-- Where the export of a device is defined. -/
theorem exportDevice_isSome (hnodup : (plane.lines.map XLine.id).Nodup) :
    (exportDevice grow capacity ordinal deviceEvts plane).isSome ↔
      LinesStay grow (.ofLines plane.lines capacity) deviceEvts ∧
        ∀ event ∈ deviceEvts, event.exportTimes.isSome := by
  rw [exportDevice_eq, isSome_map]
  constructor
  · intro h
    obtain ⟨b', hb'⟩ := isSome_iff_exists.mp h
    exact of_foldlM_exportEvent (tracks_device hnodup) hb'
  · rintro ⟨hstay, htimes⟩
    obtain ⟨b', rest, v', hb', -⟩ :=
      foldlM_exportEvent (tracks_device hnodup) (.nil _ _) hstay htimes
    rw [hb']
    rfl

/-- What the export of a device adds to the plane. -/
theorem exported_of_exportDevice (hnodup : (plane.lines.map XLine.id).Nodup)
    (h : exportDevice grow capacity ordinal deviceEvts plane = some plane') :
    ∃ b done, b.plane = plane' ∧ done.map Prod.fst = deviceEvts ∧
      (plane'.lines.map XLine.id).Nodup ∧ Exported (deviceEvts.foldl noteOrigin [])
        (gpuStatMetadata (deviceBuilder capacity ordinal plane)).2 done b := by
  rw [exportDevice_eq, map_eq_some_iff] at h
  obtain ⟨b, hb, rfl⟩ := h
  obtain ⟨hstay, htimes⟩ := of_foldlM_exportEvent (tracks_device hnodup) hb
  obtain ⟨b', done, v', hb', htracks, hexported, hdone⟩ :=
    foldlM_exportEvent (tracks_device hnodup) (.nil _ _) hstay htimes
  obtain rfl := some.inj (hb.symm.trans hb')
  exact ⟨b, done, rfl, hdone, htracks.ids ▸ htracks.nodup, hexported⟩

/-- Every event of a device is on the line of its stream, beside the events that were there. -/
def OnOwnLines (deviceEvts : List GpuTracerEvent) (plane plane' : XPlane) : Prop :=
  (plane'.lines.map XLine.id).Nodup ∧ ∃ done : List (GpuTracerEvent × XEvent),
    done.map Prod.fst = deviceEvts ∧ (∀ pair ∈ done, Records pair.1 pair.2) ∧
      (lineEntries plane'.lines).Perm (lineEntries plane.lines ++
        done.map fun pair ↦ ((pair.1.streamId.toNat : Int), pair.2))

theorem onOwnLines (hnodup : (plane.lines.map XLine.id).Nodup)
    (h : exportDevice grow capacity ordinal deviceEvts plane = some plane') :
    OnOwnLines deviceEvts plane plane' := by
  obtain ⟨b, done, rfl, hdone, hnodup', hexported⟩ := exported_of_exportDevice hnodup h
  refine ⟨hnodup', done, hdone, hexported.records, ?_⟩
  have hentries := hexported.entries
  rwa [(gpuStatMetadata_same _).1.lines, modify_id] at hentries

/-- A line builder that was just returned refers to the line that was asked for, and what goes
through it is on that line, as long as no pointer is used or returned that was made before the
lines have moved last; so it is for the exporter, with its order of streams. -/
theorem lineHandles_sound (grow : Nat → Nat) :
    (∀ s, ((builderPrograms grow).restrict BuilderState.Current).Reachable s → s.Sound) ∧
      ∀ capacity ordinal deviceEvts (plane : XPlane), (plane.lines.map XLine.id).Nodup →
        ((∃ plane', exportDevice grow capacity ordinal deviceEvts plane = some plane' ∧
          OnOwnLines deviceEvts plane plane') ↔
        LinesStay grow (.ofLines plane.lines capacity) deviceEvts ∧
          ∀ event ∈ deviceEvts, event.exportTimes.isSome) := by
  refine ⟨fun s h ↦ (BuilderState.handles_of_current h).sound,
    fun capacity ordinal deviceEvts plane hnodup ↦ ?_⟩
  rw [← exportDevice_isSome capacity ordinal hnodup, isSome_iff_exists]
  constructor
  · rintro ⟨plane', hplane', -⟩
    exact ⟨plane', hplane'⟩
  · rintro ⟨plane', hplane'⟩
    exact ⟨plane', hplane', onOwnLines hnodup hplane'⟩

/-- Two lines of a new plane, and two events of one stream. -/
theorem two_lines_sound :
    (∃ s, ((builderPrograms doubled).restrict BuilderState.Current).Reachable s ∧
      s.returned = some (2, { generation := 2, index := 1 }) ∧ s.Sound) ∧
    ∃ plane', exportDevice doubled 0 0 [{ streamId := 1, endTimeNs := 5 }, { streamId := 1 }] {} =
      some plane' ∧ OnOwnLines [{ streamId := 1, endTimeNs := 5 }, { streamId := 1 }] {} plane' := by
  have hsound := lineHandles_sound doubled
  constructor
  · have hreach : ((builderPrograms doubled).restrict BuilderState.Current).Reachable _ :=
      .step (l := .getOrCreateLine 2) (.step (l := .getOrCreateLine 1)
        (.of_init ⟨{}, 0, nodup_nil, rfl⟩) ⟨⟨rfl, rfl⟩, nofun⟩) ⟨⟨rfl, rfl⟩, nofun⟩
    exact ⟨_, hreach, rfl, hsound.1 _ hreach⟩
  · exact (hsound.2 0 0 _ {} nodup_nil).mpr (by decide)

/-- The first line is asked for again after the second has made the lines move. -/
theorem stale_line_returned : ¬∀ s, (builderPrograms doubled).Reachable s → s.Sound := by
  intro h
  have hreach : (builderPrograms doubled).Reachable _ :=
    .step (l := .getOrCreateLine 1) (.step (l := .getOrCreateLine 2) (.step
      (l := .getOrCreateLine 1) (.of_init ⟨{}, 0, nodup_nil, rfl⟩) ⟨rfl, rfl⟩) ⟨rfl, rfl⟩)
      ⟨rfl, rfl⟩
  have hgen := ((h _ hreach).returned 1 { generation := 1, index := 0 } rfl).generation
  exact absurd hgen (by decide)

end Device

end Hisab.Profiler
