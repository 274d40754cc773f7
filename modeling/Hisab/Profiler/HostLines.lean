import Hisab.Profiler.GivenNames
import Hisab.Profiler.LineVector

/-!
# The lines of the host plane

What the conversion makes of the events that are collected: the line of a thread has the events
of the thread in their order, each with metadata that shows it under the name of its node.
-/

namespace Hisab.Profiler

open Base List Int

/-! ### Metadata -/

namespace XPlaneBuilder

variable {b b' b'' : XPlaneBuilder} {name : List Char}

/-- What is known by a name is metadata that was made for it, and what has no id yet is empty. -/
structure HostNames (b : XPlaneBuilder) : Prop where
  known : ∀ name id, b.eventMetadataByName.lookup name = some id →
    id ≤ b.lastEventMetadataId ∧ b.plane.getEventMetadata id = mayAddDisplayName { id, name }
  unused : ∀ id, b.lastEventMetadataId < id → b.plane.getEventMetadata id = {}

/-- Metadata that has an id stays what it is. -/
structure Grows (b b' : XPlaneBuilder) : Prop where
  last : b.lastEventMetadataId ≤ b'.lastEventMetadataId
  metadata : ∀ id, id ≤ b.lastEventMetadataId →
    b'.plane.getEventMetadata id = b.plane.getEventMetadata id

theorem Grows.trans (h : Grows b b') (h' : Grows b' b'') : Grows b b'' where
  last := le_trans h.last h'.last
  metadata id hid := by rw [h'.metadata id (le_trans hid h.last), h.metadata id hid]

theorem SameNames.grows (h : SameNames b b') : Grows b b' :=
  ⟨le_of_eq h.last.symm, fun id _ ↦ h.getEventMetadata id⟩

theorem HostNames.sameNames (h : b.HostNames) (hsame : SameNames b b') : b'.HostNames where
  known name id hid := by
    rw [hsame.byName] at hid
    rw [hsame.last, hsame.getEventMetadata]
    exact h.known name id hid
  unused id hid := by
    rw [hsame.last] at hid
    rw [hsame.getEventMetadata]
    exact h.unused id hid

theorem getEventMetadata_modify (id : Int) (f : XEventMetadata → XEventMetadata) (k : Int) :
    (b.modifyEventMetadata id f).plane.getEventMetadata k =
      if k = id then f (b.plane.getEventMetadata id) else b.plane.getEventMetadata k := by
  rw [modifyEventMetadata, XPlane.getEventMetadata, lookup_setEntry]
  split
  next => rfl
  next => rfl

/-- The metadata of a name with its display name. -/
def shownMetadata (b : XPlaneBuilder) (name : List Char) : XPlaneBuilder :=
  (b.getOrCreateEventMetadata name).2.modifyEventMetadata (b.getOrCreateEventMetadata name).1
    mayAddDisplayName

theorem shownMetadata_known {id : Int} (h : b.eventMetadataByName.lookup name = some id) :
    b.shownMetadata name = b.modifyEventMetadata id mayAddDisplayName := by
  rw [shownMetadata, getOrCreateEventMetadata_known h]

/-- Metadata that is known is left as it is. -/
theorem getEventMetadata_shown_known {id : Int} (hb : b.HostNames)
    (h : b.eventMetadataByName.lookup name = some id) (k : Int) :
    (b.shownMetadata name).plane.getEventMetadata k = b.plane.getEventMetadata k := by
  rw [shownMetadata_known h, getEventMetadata_modify]
  split
  next hk => rw [hk, (hb.known name id h).2, mayAddDisplayName_idem]
  next => rfl

/-- Metadata of a name that is not known is made for it. -/
theorem getEventMetadata_shown_new (hb : b.HostNames)
    (h : b.eventMetadataByName.lookup name = none) (k : Int) :
    (b.shownMetadata name).plane.getEventMetadata k = if k = b.lastEventMetadataId + 1 then
        mayAddDisplayName { id := b.lastEventMetadataId + 1, name }
      else b.plane.getEventMetadata k := by
  have hid : (b.getOrCreateEventMetadata name).1 = b.lastEventMetadataId + 1 := by
    rw [getOrCreateEventMetadata, h]
  rw [shownMetadata, getEventMetadata_modify, hid, getEventMetadata_new h, if_pos rfl,
    hb.unused _ (Int.lt_succ _)]
  split
  next => rfl
  next hk => rw [getEventMetadata_new h, if_neg hk]

/-- The metadata of a name: its entry, and that nothing else changes. -/
theorem shownMetadata_spec (hb : b.HostNames) (name : List Char) :
    (b.shownMetadata name).HostNames ∧ Grows b (b.shownMetadata name) ∧
      (b.getOrCreateEventMetadata name).1 ≤ (b.shownMetadata name).lastEventMetadataId ∧
      (b.shownMetadata name).plane.getEventMetadata (b.getOrCreateEventMetadata name).1 =
        mayAddDisplayName { id := (b.getOrCreateEventMetadata name).1, name } := by
  cases h : b.eventMetadataByName.lookup name with
  | some id =>
    have hget := getEventMetadata_shown_known hb h
    have hlast : (b.shownMetadata name).lastEventMetadataId = b.lastEventMetadataId := by
      rw [shownMetadata_known h]
      rfl
    have hbyName : (b.shownMetadata name).eventMetadataByName = b.eventMetadataByName := by
      rw [shownMetadata_known h]
      rfl
    rw [getOrCreateEventMetadata_known h, hget]
    refine ⟨⟨fun name' k hk ↦ ?_, fun k hk ↦ ?_⟩, ⟨le_of_eq hlast.symm, fun k _ ↦ hget k⟩,
      hlast ▸ (hb.known name id h).1, (hb.known name id h).2⟩
    · rw [hbyName] at hk
      rw [hlast, hget]
      exact hb.known name' k hk
    · rw [hlast] at hk
      rw [hget]
      exact hb.unused k hk
  | none =>
    have hget := getEventMetadata_shown_new hb h
    have hid : (b.getOrCreateEventMetadata name).1 = b.lastEventMetadataId + 1 := by
      rw [getOrCreateEventMetadata, h]
    have hlast : (b.shownMetadata name).lastEventMetadataId = b.lastEventMetadataId + 1 := by
      rw [shownMetadata, getOrCreateEventMetadata, h]
      rfl
    have hbyName : (b.shownMetadata name).eventMetadataByName =
        (name, b.lastEventMetadataId + 1) :: b.eventMetadataByName := by
      rw [shownMetadata, getOrCreateEventMetadata, h]
      rfl
    rw [hid, hlast, hget, if_pos rfl]
    refine ⟨⟨fun name' k hk ↦ ?_, fun k hk ↦ ?_⟩,
      ⟨hlast ▸ le_of_lt (Int.lt_succ _), fun k hk ↦ ?_⟩, le_refl _, rfl⟩
    · rw [hbyName, lookup_cons] at hk
      rw [hlast]
      split at hk
      next heq =>
        obtain rfl := eq_of_beq heq
        cases hk
        exact ⟨le_refl _, by rw [hget, if_pos rfl]⟩
      next =>
        obtain ⟨hle, hmetadata⟩ := hb.known name' k hk
        rw [hget, if_neg (by omega)]
        exact ⟨by omega, hmetadata⟩
    · rw [hget, if_neg (by omega)]
      exact hb.unused k (by omega)
    · rw [hget, if_neg (by omega)]

theorem sameLines_shownMetadata (b : XPlaneBuilder) (name : List Char) (i : Nat) :
    LineChange b (b.shownMetadata name) i id ∧ (b.shownMetadata name).plane.name = b.plane.name :=
  ⟨(LineChange.eventMetadata b name i).trans (g := id)
      ⟨(modify_id ..).symm, rfl, rfl, rfl⟩, name_getOrCreateEventMetadata b name⟩

/-- The stats of an event leave the lines and the metadata of events alone. -/
theorem sameLines_makeStats (stats : List (List Char × XStatValue)) (b : XPlaneBuilder) (i : Nat) :
    LineChange b (makeStats stats b).2 i id ∧ SameNames b (makeStats stats b).2 := by
  induction stats generalizing b with
  | nil => exact ⟨⟨(modify_id ..).symm, rfl, rfl, rfl⟩, rfl, rfl, rfl, rfl⟩
  | cons stat stats ih =>
    obtain ⟨hlines, hnames⟩ := ih (b.getOrCreateStatMetadata stat.1).2
    exact ⟨(LineChange.statMetadata b stat.1 i).trans hlines,
      (sameNames_statMetadata b stat.1).trans hnames⟩

end XPlaneBuilder

open XPlaneBuilder

/-! ### The events of a thread -/

/-- The event of a line is shown under the name of the node of the collected one. -/
structure Shows (b : XPlaneBuilder) (e : Event) (raw : XEvent) : Prop where
  single : raw.isAggregatedEvent = false
  known : raw.metadataId ≤ b.lastEventMetadataId
  name : eventDisplayName (b.plane.getEventMetadata raw.metadataId) = e.nodeName

theorem Shows.mono {b b' : XPlaneBuilder} {e : Event} {raw : XEvent} (h : Shows b e raw)
    (hgrows : Grows b b') : Shows b' e raw where
  single := h.single
  known := le_trans h.known hgrows.last
  name := by rw [hgrows.metadata _ h.known, h.name]

/-- A change of a line that adds events, each shown under its name. -/
def Appends (b : XPlaneBuilder) (events : List Event) (f : XLine → XLine) : Prop :=
  ∀ l, (f l).id = l.id ∧ ∃ raws, (f l).events = l.events ++ raws ∧
    List.Forall₂ (Shows b) events raws

section Convert

variable {grow : Nat → Nat} {stod : List Char → Option (Double × Nat)}
  {startTimestampNs : UInt64} {b b' : XPlaneBuilder} {line : LinePtr} {lineId : Int}
  {events : List Event} {thread : EventList} {v v' : LineVector}

theorem eventDisplayName_shown (id : Int) (e : Event) :
    eventDisplayName (mayAddDisplayName { id, name := e.annotated.name }) = e.nodeName := by
  rw [Event.nodeName, mayAddDisplayName_of_empty rfl, mayAddDisplayName_of_empty rfl]
  rfl

/-- A builder after the events: the line has got them, and the names are in order. -/
structure Converted (b b' : XPlaneBuilder) (i : Nat) (events : List Event) (f : XLine → XLine) :
    Prop where
  change : LineChange b b' i f
  appends : Appends b' events f
  names : b'.HostNames
  grows : Grows b b'
  name : b'.plane.name = b.plane.name

variable (stod) in
theorem convertEvent_some (hb : b.HostNames) (hrefers : b.Refers lineId line) (e : Event) :
    ∃ b' f, convertEvent stod startTimestampNs line b e = some b' ∧
      Converted b b' line.index ([e].filter fun e ↦ e.isShown startTimestampNs) f := by
  rw [convertEvent]
  by_cases hshown : e.isShown startTimestampNs = true
  · rw [if_pos hshown, filter_cons_of_pos (by exact hshown)]
    obtain ⟨hnames, hgrows, hle, hmetadata⟩ := shownMetadata_spec hb e.annotated.name
    obtain ⟨hlines, hname⟩ := sameLines_shownMetadata b e.annotated.name line.index
    obtain ⟨hstats, hsame⟩ := sameLines_makeStats
      (e.annotated.metadata.map fun arg ↦ (arg.key, parseStatValue stod arg.value))
      (b.shownMetadata e.annotated.name) line.index
    have hlines := hlines.trans hstats
    obtain ⟨b', hb', hchange, hsame'⟩ := LineChange.modifyLine
      (hlines.refers (fun _ ↦ rfl) hrefers) fun l ↦ l.addEvent (e.onLine
        ((b.shownMetadata e.annotated.name).plane.getEventMetadata
          (b.getOrCreateEventMetadata e.annotated.name).1).id
        (makeStats (e.annotated.metadata.map fun arg ↦ (arg.key, parseStatValue stod arg.value))
          (b.shownMetadata e.annotated.name)).1 l)
    have hsame := hsame.trans hsame'
    have hid : ∀ id, (mayAddDisplayName { id, name := e.annotated.name }).id = id := by
      intro id
      rw [mayAddDisplayName_of_empty rfl]
    refine ⟨b', _, hb', hlines.trans hchange, fun l ↦ ⟨rfl, _, rfl, .cons ⟨rfl, ?_, ?_⟩ .nil⟩,
      hnames.sameNames hsame, hgrows.trans hsame.grows, hsame.name.trans hname⟩
    · rw [Event.onLine, hmetadata, hid, hsame.last]
      exact hle
    · rw [Event.onLine, hmetadata, hid, hsame.getEventMetadata, hmetadata]
      exact eventDisplayName_shown _ e
  · rw [if_neg hshown, filter_cons_of_neg (by exact hshown)]
    exact ⟨b, id, rfl, ⟨(modify_id ..).symm, rfl, rfl, rfl⟩,
      fun l ↦ ⟨rfl, [], (append_nil _).symm, .nil⟩, hb, ⟨le_refl _, fun _ _ ↦ rfl⟩, rfl⟩

theorem Converted.trans {b'' : XPlaneBuilder} {i : Nat} {events' : List Event}
    {f g : XLine → XLine} (h : Converted b b' i events f) (h' : Converted b' b'' i events' g) :
    Converted b b'' i (events ++ events') (g ∘ f) where
  change := h.change.trans h'.change
  appends l := by
    obtain ⟨hid, raws, hevents, hshows⟩ := h.appends l
    obtain ⟨hid', raws', hevents', hshows'⟩ := h'.appends (f l)
    refine ⟨hid'.trans hid, raws ++ raws', ?_, ?_⟩
    · rw [Function.comp_apply, hevents', hevents, append_assoc]
    · exact rel_append (hshows.imp fun _ _ hs ↦ hs.mono h'.grows) hshows'
  names := h'.names
  grows := h.grows.trans h'.grows
  name := h'.name.trans h.name

variable (stod startTimestampNs) in
/-- All events of a thread. -/
theorem foldlM_convertEvent (hb : b.HostNames) (hrefers : b.Refers lineId line)
    (events : List Event) : ∃ b' f, events.foldlM (convertEvent stod startTimestampNs line) b =
      some b' ∧ Converted b b' line.index (events.filter fun e ↦ e.isShown startTimestampNs) f := by
  induction events generalizing b with
  | nil =>
    exact ⟨b, id, rfl, ⟨(modify_id ..).symm, rfl, rfl, rfl⟩,
      fun l ↦ ⟨rfl, [], (append_nil _).symm, .nil⟩, hb, ⟨le_refl _, fun _ _ ↦ rfl⟩, rfl⟩
  | cons e events ih =>
    obtain ⟨b₁, f, hb₁, hconverted⟩ := convertEvent_some stod hb hrefers e
    obtain ⟨b', g, hb', hrest⟩ := ih hconverted.names
      (hconverted.change.refers (fun l ↦ (hconverted.appends l).1) hrefers)
    refine ⟨b', g ∘ f, ?_, ?_⟩
    · rw [foldlM_cons, hb₁]
      exact hb'
    · have h := hconverted.trans hrest
      rwa [← filter_append] at h

end Convert

/-! ### All threads -/

/-- The events of the threads of an id that become events of the plane. -/
def threadEvents (startTimestampNs : UInt64) (tid : Int) (threads : List EventList) : List Event :=
  ((threads.filter fun t ↦ (t.1.tid : Int) = tid).flatMap Prod.snd).filter fun e ↦
    e.isShown startTimestampNs

/-- The plane after some threads. -/
structure HostPlane (startTimestampNs : UInt64) (done : List EventList) (b : XPlaneBuilder) :
    Prop where
  names : b.HostNames
  name : b.plane.name = hostThreadsPlaneName
  lines : ∀ l ∈ b.plane.lines,
    List.Forall₂ (Shows b) (threadEvents startTimestampNs l.id done) l.events
  present : ∀ t ∈ done, (t.1.tid : Int) ∈ b.plane.lines.map XLine.id

section Threads

variable {grow : Nat → Nat} {stod : List Char → Option (Double × Nat)}
  {startTimestampNs : UInt64} {b b' : XPlaneBuilder} {lineId : Int} {thread : EventList}
  {done threads : List EventList} {v v' : LineVector}

theorem threadEvents_append (tid : Int) : threadEvents startTimestampNs tid (done ++ threads) =
    threadEvents startTimestampNs tid done ++ threadEvents startTimestampNs tid threads := by
  simp only [threadEvents, filter_append, flatMap_append]

theorem threadEvents_self (thread : EventList) :
    threadEvents startTimestampNs thread.1.tid [thread] =
      thread.2.filter fun e ↦ e.isShown startTimestampNs := by
  simp [threadEvents]

theorem threadEvents_other {tid : Int} (h : ∀ t ∈ threads, (t.1.tid : Int) ≠ tid) :
    threadEvents startTimestampNs tid threads = [] := by
  have hnone : (threads.filter fun t ↦ (t.1.tid : Int) = tid) = [] :=
    filter_eq_nil_iff.mpr fun t ht ↦ by simpa using h t ht
  rw [threadEvents, hnone]
  rfl

theorem HostPlane.sameNames (h : HostPlane startTimestampNs done b) (hsame : SameNames b b')
    (hlines : ∀ l ∈ b'.plane.lines, l ∈ b.plane.lines ∨
      l.events = [] ∧ l.id ∉ b.plane.lines.map XLine.id)
    (hids : ∀ id ∈ b.plane.lines.map XLine.id, id ∈ b'.plane.lines.map XLine.id) :
    HostPlane startTimestampNs done b' where
  names := h.names.sameNames hsame
  name := hsame.name.trans h.name
  lines l hl := by
    obtain hl | ⟨hempty, hnew⟩ := hlines l hl
    · exact (h.lines l hl).imp fun _ _ hs ↦ hs.mono hsame.grows
    · rw [hempty, threadEvents_other]
      · exact .nil
      · intro t ht heq
        exact hnew (heq ▸ h.present t ht)
  present t ht := hids _ (h.present t ht)

variable (grow) in
/-- A line is asked for. -/
theorem HostPlane.getOrCreateLine (h : HostPlane startTimestampNs done b) (htracks : v.Tracks b)
    (lineId : Int) : HostPlane startTimestampNs done (b.getOrCreateLine grow lineId).2 := by
  have hsame := sameNames_getOrCreateLine b grow lineId
  cases hlookup : b.linesById.lookup lineId with
  | some line =>
    rw [getOrCreateLine_known hlookup]
    exact h
  | none =>
    have hnew : lineId ∉ b.plane.lines.map XLine.id := by
      rw [htracks.ids]
      intro hmem
      obtain ⟨index, generation, hmade, -⟩ := LineVector.mem_made hmem
      have hknown := htracks.known index lineId generation hmade
      rw [hlookup] at hknown
      cases hknown
    have hlines : (b.getOrCreateLine grow lineId).2.plane.lines =
        b.plane.lines ++ [{ id := lineId }] := by
      rw [getOrCreateLine_new hlookup]
      exact addLine_lines b _
    refine h.sameNames hsame (fun l hl ↦ ?_) fun id hid ↦ ?_
    · rw [hlines] at hl
      obtain hl | hl := mem_append.mp hl
      · exact .inl hl
      · obtain rfl := mem_singleton.mp hl
        exact .inr ⟨rfl, hnew⟩
    · rw [hlines, map_append]
      exact mem_append_left _ hid

/-- The events of a thread are added to its line. -/
theorem HostPlane.convert (h : HostPlane startTimestampNs done b)
    (hnodup : (b.plane.lines.map XLine.id).Nodup) {line : LinePtr}
    (hrefers : b.Refers thread.1.tid line) {f : XLine → XLine}
    (hconverted : Converted b b' line.index
      (thread.2.filter fun e ↦ e.isShown startTimestampNs) f) :
    HostPlane startTimestampNs (done ++ [thread]) b' where
  names := hconverted.names
  name := hconverted.name.trans h.name
  lines l' hl' := by
    obtain ⟨l, hl, hid⟩ := hrefers
    obtain ⟨-, hget⟩ := line?_eq_some.mp hl
    have hold : ∀ l₀ ∈ b.plane.lines,
        List.Forall₂ (Shows b') (threadEvents startTimestampNs l₀.id done) l₀.events :=
      fun l₀ hl₀ ↦ (h.lines l₀ hl₀).imp fun _ _ hs ↦ hs.mono hconverted.grows
    rw [hconverted.change.lines] at hl'
    rw [threadEvents_append]
    obtain rfl | ⟨hmem, hne⟩ := mem_modify hnodup hget hl'
    · obtain ⟨hid', raws, hevents, hshows⟩ := hconverted.appends l
      rw [hid', hevents]
      refine rel_append (hold l (mem_of_getElem? hget)) ?_
      rw [hid, threadEvents_self]
      exact hshows
    · have hother : threadEvents startTimestampNs l'.id [thread] = [] := by
        refine threadEvents_other fun t ht heq ↦ ?_
        obtain rfl := mem_singleton.mp ht
        exact hne (heq.symm.trans hid.symm)
      rw [hother, append_nil]
      exact hold l' hmem
  present t ht := by
    have hids : b'.plane.lines.map XLine.id = b.plane.lines.map XLine.id := by
      rw [hconverted.change.lines, map_key_modify fun l ↦ (hconverted.appends l).1]
    rw [hids]
    obtain ht | ht := mem_append.mp ht
    · exact h.present t ht
    · obtain rfl := mem_singleton.mp ht
      obtain ⟨l, hl, hid⟩ := hrefers
      exact mem_map.mpr ⟨l, mem_of_getElem? (line?_eq_some.mp hl).2, hid⟩

/-- What is set of a line before its events are added. -/
theorem Converted.of_setter {i : Nat} {f : XLine → XLine} (hb : b.HostNames)
    (hchange : LineChange b b' i f) (hsame : SameNames b b')
    (hf : ∀ l, (f l).id = l.id ∧ (f l).events = l.events) : Converted b b' i [] f where
  change := hchange
  appends l := ⟨(hf l).1, [], by rw [(hf l).2, append_nil], .nil⟩
  names := hb.sameNames hsame
  grows := hsame.grows
  name := hsame.name

variable (stod) in
/-- One thread whose line may be used. -/
theorem convertThread_some (htracks : v.Tracks b) (h : HostPlane startTimestampNs done b)
    (hrequest : v.request grow thread.1.tid = some v') :
    ∃ b', convertThread grow stod startTimestampNs b thread = some b' ∧ v'.Tracks b' ∧
      HostPlane startTimestampNs (done ++ [thread]) b' := by
  obtain ⟨htracks₁, hrefers⟩ := htracks.request hrequest
  have hplane := h.getOrCreateLine grow htracks thread.1.tid
  have hnodup := htracks₁.ids ▸ htracks₁.nodup
  rw [convertThread]
  cases hcreated : b.getOrCreateLine grow thread.1.tid with
  | mk line b₁ =>
    rw [hcreated] at htracks₁ hrefers hplane hnodup
    obtain ⟨b₂, hb₂, hchange₂, hsame₂⟩ := LineChange.modifyLine hrefers
      fun l ↦ { l with name := thread.1.name.toList }
    have hconverted₂ := Converted.of_setter hplane.names hchange₂ hsame₂ fun _ ↦ ⟨rfl, rfl⟩
    have hrefers₂ := hchange₂.refers (fun _ ↦ rfl) hrefers
    obtain ⟨b₃, hb₃, hchange₃, hsame₃⟩ := LineChange.modifyLine hrefers₂
      fun l ↦ { l with timestampNs := (I64.ofSizeT startTimestampNs.toNat).val }
    have hconverted₃ := hconverted₂.trans
      (.of_setter hconverted₂.names hchange₃ hsame₃ fun _ ↦ ⟨rfl, rfl⟩)
    obtain ⟨b', f, hb', hconverted⟩ := foldlM_convertEvent stod startTimestampNs
      hconverted₃.names (hchange₃.refers (fun _ ↦ rfl) hrefers₂) thread.2
    have hconverted := hconverted₃.trans hconverted
    refine ⟨b', ?_, htracks₁.change hconverted.change fun l ↦ (hconverted.appends l).1,
      hplane.convert hnodup hrefers hconverted⟩
    simp only [Option.bind_eq_bind, hb₂, hb₃, Option.bind_some, hb']

theorem convertThread_none (htracks : v.Tracks b) (hrequest : v.request grow thread.1.tid = none) :
    convertThread grow stod startTimestampNs b thread = none := by
  have hline := htracks.request_none hrequest
  simp [convertThread, modifyLine, hline]

variable (grow stod) in
/-- The conversion is defined if the requests for the lines go through, and then it has added the
events of all threads. -/
theorem foldlM_convertThread (htracks : v.Tracks b) (h : HostPlane startTimestampNs done b)
    (threads : List EventList) :
    (threads.foldlM (convertThread grow stod startTimestampNs) b).isSome =
        ((threads.map fun t ↦ (t.1.tid : Int)).foldlM (LineVector.request grow) v).isSome ∧
      ∀ b', threads.foldlM (convertThread grow stod startTimestampNs) b = some b' →
        HostPlane startTimestampNs (done ++ threads) b' := by
  induction threads generalizing v b done with
  | nil =>
    refine ⟨rfl, fun b' hb' ↦ ?_⟩
    cases hb'
    rwa [append_nil]
  | cons thread threads ih =>
    rw [map_cons, foldlM_cons, foldlM_cons]
    cases hrequest : v.request grow thread.1.tid with
    | none =>
      rw [convertThread_none htracks hrequest]
      exact ⟨rfl, nofun⟩
    | some v' =>
      obtain ⟨b₁, hb₁, htracks₁, hplane⟩ := convertThread_some stod htracks h hrequest
      rw [hb₁]
      obtain ⟨hdefined, hconverted⟩ := ih htracks₁ hplane
      rw [append_assoc] at hconverted
      exact ⟨hdefined, hconverted⟩

/-- Lines with new ids may be used. -/
theorem request_isSome {ids : List Int} (hids : ids.Nodup)
    (hnew : ∀ id ∈ ids, id ∉ v.made.map Prod.fst) :
    (ids.foldlM (LineVector.request grow) v).isSome = true := by
  induction ids generalizing v with
  | nil => rfl
  | cons id ids ih =>
    obtain ⟨hid, hids⟩ := nodup_cons.mp hids
    have hlookup := LineVector.lookup_eq_none (hnew id mem_cons_self)
    have hmade : ∃ v', v.request grow id = some v' ∧
        v'.made.map Prod.fst = v.made.map Prod.fst ++ [id] := by
      rw [LineVector.request, hlookup]
      dsimp only
      split <;> exact ⟨_, rfl, by rw [map_append]; rfl⟩
    obtain ⟨v', hv', hmade⟩ := hmade
    rw [foldlM_cons, hv']
    refine ih hids fun k hk hmem ↦ ?_
    rw [hmade, mem_append, mem_singleton] at hmem
    obtain hmem | rfl := hmem
    · exact hnew k (mem_cons_of_mem _ hk) hmem
    · exact hid hk

end Threads

/-! ### The plane -/

section Plane

variable {grow : Nat → Nat} {stod : List Char → Option (Double × Nat)}
  {startTimestampNs : UInt64} {threads : List EventList} {plane : XPlane}

/-- The plane of a session before the conversion. -/
def newHostPlane : XPlane := { name := hostThreadsPlaneName }

theorem tracks_new : LineVector.Tracks (.ofLines [] 0) (.ofPlane newHostPlane 0) := by
  have hnodup : (newHostPlane.lines.map XLine.id).Nodup := nodup_nil
  exact LineVector.tracks_ofPlane hnodup 0

variable (startTimestampNs) in
theorem hostPlane_new : HostPlane startTimestampNs [] (.ofPlane newHostPlane 0) where
  names := ⟨nofun, fun _ _ ↦ rfl⟩
  name := rfl
  lines := nofun
  present := nofun

/-- A converted plane: an event of a line for each event of its threads. -/
structure ConvertedPlane (startTimestampNs : UInt64) (threads : List EventList) (plane : XPlane) :
    Prop where
  name : plane.name = hostThreadsPlaneName
  lines : ∀ l ∈ plane.lines, List.Forall₂ (fun e (raw : XEvent) ↦ raw.isAggregatedEvent = false ∧
    eventDisplayName (plane.getEventMetadata raw.metadataId) = e.nodeName)
      (threadEvents startTimestampNs l.id threads) l.events
  present : ∀ t ∈ threads, ∃ l ∈ plane.lines, l.id = t.1.tid

theorem convertedPlane_of (h : convertCompleteEventsToXplane grow 0 stod startTimestampNs threads
    newHostPlane = some plane) : ConvertedPlane startTimestampNs threads plane := by
  rw [convertCompleteEventsToXplane, Option.bind_eq_bind, Option.bind_eq_some_iff] at h
  obtain ⟨b, hb, hplane⟩ := h
  cases hplane
  have hhost := (foldlM_convertThread grow stod tracks_new (hostPlane_new startTimestampNs)
    threads).2 b hb
  have hperm : (sortXlinesByName b.plane.lines).Perm b.plane.lines := mergeSort_perm ..
  refine ⟨hhost.name, fun l hl ↦ ?_, fun t ht ↦ ?_⟩
  · exact (hhost.lines l (hperm.mem_iff.mp hl)).imp fun _ _ hs ↦ ⟨hs.single, hs.name⟩
  · obtain ⟨l, hl, hid⟩ := mem_map.mp (hhost.present t ht)
    exact ⟨l, hperm.mem_iff.mpr hl, hid⟩

variable (grow stod startTimestampNs) in
/-- The conversion is defined for threads with different ids. -/
theorem convert_isSome (hthreads : (threads.map fun t ↦ t.1.tid).Nodup) :
    (convertCompleteEventsToXplane grow 0 stod startTimestampNs threads newHostPlane).isSome := by
  have hdefined := (foldlM_convertThread grow stod tracks_new (hostPlane_new startTimestampNs)
    threads).1
  have hids : (threads.map fun t ↦ (t.1.tid : Int)).Nodup := by
    have := hthreads.map ofNat_injective
    rwa [map_map] at this
  rw [request_isSome hids fun _ _ ↦ not_mem_nil] at hdefined
  obtain ⟨b, hb⟩ := Option.isSome_iff_exists.mp hdefined
  rw [convertCompleteEventsToXplane, hb]
  rfl

theorem ConvertedPlane.normalize (h : ConvertedPlane startTimestampNs threads plane)
    (startTimeNs : UInt64) :
    ConvertedPlane startTimestampNs threads (normalizeTimestamps startTimeNs plane) where
  name := h.name
  lines l' hl' := by
    obtain ⟨l, hl, rfl⟩ := mem_map.mp hl'
    split <;> exact h.lines l hl
  present t ht := by
    obtain ⟨l, hl, hid⟩ := h.present t ht
    refine ⟨_, mem_map_of_mem hl, ?_⟩
    split <;> exact hid

end Plane

end Hisab.Profiler
