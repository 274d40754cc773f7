import Hisab.Profiler.HostLines
import Hisab.Profiler.HotspotTotals

/-!
# Which names survive

From the string that is given to a scope to the node of the scope tree, the rows and lines of the
reports and the key of the memory statistics.
-/

namespace Hisab.Profiler

open Base List

/-- The names in the lines of `render_tree`, `hotspot_report.cpp:211–240`. -/
def renderTreeNames : Forest ScopeData → List (List Char)
  | .nil => []
  | .node node children siblings =>
    (if node.event.name = syntheticRootName then [] else [node.event.name]) ++
      renderTreeNames children ++ renderTreeNames siblings

/-- The names in `top_down_tree`. -/
def topDownNames (root : Option ScopeTree) : List (List Char) :=
  match root with
  | none => []
  | some tree => renderTreeNames (.node tree.root tree.children .nil)

/-- The key under which `profiler_scope::stop` records the memory of a scope,
`profiler.cpp:599–607`. -/
def Event.memoryKey (e : Event) : List Char := e.name.toList

/-- The key that `scope_memory_stats` looks up for a node, `profiler_report.cpp:215–224`. -/
def ScopeData.memoryKey (node : ScopeData) : List Char := node.event.name

/-- A node of the tree of a thread, made from the event at a position. -/
def NodeOf (space : XSpace) (tid : Int) (i : Nat) (node : ScopeData) : Prop :=
  ∃ l ∈ hostLines space, l.2.id = tid ∧ node ∈ (lineForest l).nodes ∧ node.event.recorded = i

/-- Tree, reports and memory statistics have the names that were given; the memory is that of
the events of profiler scopes. -/
structure NamesSurvive (startTimestampNs : UInt64) (scope : Event → Bool)
    (threads : List EventList) (space : XSpace) : Prop where
  node : ∀ tid i e, (threadEvents startTimestampNs tid threads)[i]? = some e →
    ∃ node, NodeOf space tid i node ∧ node.event.name = givenName e.name.toList
  hotspot : ∀ tid, ∀ e ∈ threadEvents startTimestampNs tid threads,
    ∃ row ∈ hotspots (buildScopeTree space), row.name = givenName e.name.toList
  printed : ∀ tid, ∀ e ∈ threadEvents startTimestampNs tid threads,
    givenName e.name.toList ∈ topDownNames (buildScopeTree space)
  memory : ∀ tid i e node, (threadEvents startTimestampNs tid threads)[i]? = some e →
    NodeOf space tid i node → scope e = true →
      node.memoryKey = givenName e.name.toList ∧ e.memoryKey = node.memoryKey
  distinct : ∀ tid i e node tid' i' e' node',
    (threadEvents startTimestampNs tid threads)[i]? = some e → NodeOf space tid i node →
    (threadEvents startTimestampNs tid' threads)[i']? = some e' → NodeOf space tid' i' node' →
      node.event.name = node'.event.name → givenName e.name.toList = givenName e'.name.toList

/-- What a string that is given to a scope, or to a traceme alone, has to be. -/
structure SurvivingName (scope : Bool) (str : List Char) : Prop extends ShownAsGiven str where
  notRoot : givenName str ≠ syntheticRootName
  plain : scope = true → hasMetadata str = false

/-! ### The nodes -/

theorem of_mem_lineEvents {plane : XPlane} {line : XLine} {f : FlatEvent}
    (h : f ∈ lineEvents plane line) : ∃ raw, line.events[f.recorded]? = some raw ∧
      f.name = eventDisplayName (plane.getEventMetadata raw.metadataId) := by
  obtain ⟨⟨raw, i⟩, hraw, hf⟩ := mem_filterMap.mp h
  dsimp only at hf
  split at hf <;> cases hf
  exact ⟨raw, mem_zipIdx_iff_getElem?.mp hraw, rfl⟩

theorem exists_mem_lineEvents (plane : XPlane) {line : XLine} {i : Nat} {raw : XEvent}
    (h : line.events[i]? = some raw) (hsingle : raw.isAggregatedEvent = false) :
    ∃ f ∈ lineEvents plane line, f.recorded = i := by
  let startNs := line.timestampNs + picoToNano raw.offsetPs
  refine ⟨⟨startNs, startNs + max 0 (picoToNano raw.durationPs),
    eventDisplayName (plane.getEventMetadata raw.metadataId), i⟩, ?_, rfl⟩
  refine mem_filterMap.mpr ⟨(raw, i), mem_zipIdx_iff_getElem?.mpr h, ?_⟩
  dsimp only
  rw [hsingle, if_neg (by simp)]

section Nodes

variable {startTimestampNs : UInt64} {threads : List EventList} {plane : XPlane} {space : XSpace}
  {tid : Int} {i : Nat} {e : Event} {node : ScopeData}

theorem mem_hostLines (hspace : (space.planes.filter fun plane ↦
    plane.name = hostThreadsPlaneName) = [plane]) {l : XPlane × XLine} :
    l ∈ hostLines space ↔ l.1 = plane ∧ l.2 ∈ plane.lines := by
  rw [hostLines, hspace, flatMap_singleton, mem_map]
  constructor
  · rintro ⟨line, hline, rfl⟩
    exact ⟨rfl, hline⟩
  · rintro ⟨rfl, hline⟩
    exact ⟨l.2, hline, rfl⟩

/-- A node has the name of its event. -/
theorem name_of_nodeOf (h : ConvertedPlane startTimestampNs threads plane)
    (hspace : (space.planes.filter fun plane ↦ plane.name = hostThreadsPlaneName) = [plane])
    (hnode : NodeOf space tid i node)
    (he : (threadEvents startTimestampNs tid threads)[i]? = some e) :
    node.event.name = e.nodeName := by
  obtain ⟨l, hl, rfl, hmem, rfl⟩ := hnode
  obtain ⟨hplane, hline⟩ := (mem_hostLines hspace).mp hl
  have hevent := (nodes_lineForest_perm l).mem_iff.mp (mem_map_of_mem hmem)
  obtain ⟨raw, hraw, hname⟩ := of_mem_lineEvents hevent
  obtain ⟨-, hshown⟩ := (forall₂_iff_get.mp (h.lines l.2 hline)).2 node.event.recorded
    (List.getElem?_eq_some_iff.mp he).1 (List.getElem?_eq_some_iff.mp hraw).1
  rw [get_eq_getElem, get_eq_getElem, (List.getElem?_eq_some_iff.mp he).2,
    (List.getElem?_eq_some_iff.mp hraw).2] at hshown
  rw [hname, hplane, hshown]

/-- Every event has a node. -/
theorem exists_nodeOf (h : ConvertedPlane startTimestampNs threads plane)
    (hspace : (space.planes.filter fun plane ↦ plane.name = hostThreadsPlaneName) = [plane])
    (he : (threadEvents startTimestampNs tid threads)[i]? = some e) :
    ∃ node, NodeOf space tid i node := by
  obtain ⟨t, ht, -⟩ := mem_flatMap.mp (mem_of_mem_filter (mem_of_getElem? he))
  obtain ⟨ht, htid⟩ := mem_filter.mp ht
  obtain ⟨line, hline, hid⟩ := h.present t ht
  obtain rfl : line.id = tid := hid.trans (of_decide_eq_true htid)
  have hlines := forall₂_iff_get.mp (h.lines line hline)
  have hi := hlines.1 ▸ (List.getElem?_eq_some_iff.mp he).1
  obtain ⟨hsingle, -⟩ := hlines.2 i (List.getElem?_eq_some_iff.mp he).1 hi
  obtain ⟨f, hf, hrecorded⟩ := exists_mem_lineEvents plane (List.getElem?_eq_getElem hi) hsingle
  obtain ⟨node, hnode, rfl⟩ := mem_map.mp ((nodes_lineForest_perm (plane, line)).mem_iff.mpr hf)
  exact ⟨node, (plane, line), (mem_hostLines hspace).mpr ⟨rfl, hline⟩, rfl, hnode, hrecorded⟩

theorem NodeOf.mem_space (h : NodeOf space tid i node) : node ∈ (spaceForest space).nodes := by
  obtain ⟨l, hl, -, hnode, -⟩ := h
  rw [spaceForest]
  generalize hostLines space = lines at hl
  induction lines with
  | nil => cases hl
  | cons l' lines ih =>
    rw [foldr_cons, Forest.nodes_append, mem_append]
    obtain rfl | hl := mem_cons.mp hl
    · exact .inl hnode
    · exact .inr (ih hl)

end Nodes

/-! ### The reports -/

theorem mem_names_addRecord {name : List Char} (rows : List HotspotEntry) (r : ScopeData × Nat) :
    name ∈ (addRecord rows r).map HotspotEntry.name ↔
      name ∈ rows.map HotspotEntry.name ∨ r.1.event.name = name := by
  rw [addRecord]
  obtain ⟨front, row, back, rfl, hname, hadd⟩ | ⟨-, hadd⟩ :=
    addHotspot_cases r.1.event.name r.2 (nodeTotalNs r.1) rows
  · rw [hadd, ← hname]
    simp only [map_append, map_cons, mem_append, mem_cons]
    tauto
  · rw [hadd]
    simp only [map_append, map_cons, map_nil, mem_append, mem_singleton, eq_comm]

/-- The names of the rows are those of the records. -/
theorem mem_names_foldl {name : List Char} (recs : List (ScopeData × Nat))
    (rows : List HotspotEntry) :
    name ∈ (recs.foldl addRecord rows).map HotspotEntry.name ↔
      name ∈ rows.map HotspotEntry.name ∨ ∃ r ∈ recs, r.1.event.name = name := by
  induction recs generalizing rows with
  | nil => simp
  | cons r recs ih =>
    rw [foldl_cons, ih, mem_names_addRecord, or_assoc]
    simp

/-- A name has a row if a node other than the root has it. -/
theorem exists_hotspot_iff {space : XSpace} {name : List Char} :
    (∃ row ∈ hotspots (buildScopeTree space), row.name = name) ↔
      name ≠ syntheticRootName ∧ ∃ node ∈ (spaceForest space).nodes, node.event.name = name := by
  rw [← mem_map, ((hotspots_perm space).map HotspotEntry.name).mem_iff, mem_names_foldl]
  simp only [map_nil, not_mem_nil, false_or]
  have hrecords := records_nodes (spaceForest space)
  constructor
  · rintro ⟨r, hr, rfl⟩
    have hmem := mem_map_of_mem (f := Prod.fst) hr
    rw [hrecords, mem_filter, decide_eq_true_eq] at hmem
    exact ⟨hmem.2, r.1, hmem.1, rfl⟩
  · rintro ⟨hne, node, hnode, rfl⟩
    have hmem : node ∈ (records (spaceForest space)).map Prod.fst := by
      rw [hrecords, mem_filter, decide_eq_true_eq]
      exact ⟨hnode, hne⟩
    obtain ⟨r, hr, rfl⟩ := mem_map.mp hmem
    exact ⟨r, hr, rfl⟩

/-- The printed names are those of the records. -/
theorem renderTreeNames_eq (forest : Forest ScopeData) :
    renderTreeNames forest = (records forest).map fun r ↦ r.1.event.name := by
  induction forest with
  | nil => rfl
  | node node children siblings ihc ihs =>
    rw [renderTreeNames, records, ihc, ihs, map_append]
    split <;> rfl

theorem mem_topDownNames_of {space : XSpace} {node : ScopeData}
    (hnode : node ∈ (spaceForest space).nodes) (hne : node.event.name ≠ syntheticRootName) :
    node.event.name ∈ topDownNames (buildScopeTree space) := by
  have hmem : node ∈ (records (spaceForest space)).map Prod.fst := by
    rw [records_nodes, mem_filter, decide_eq_true_eq]
    exact ⟨hnode, hne⟩
  obtain ⟨r, hr, rfl⟩ := mem_map.mp hmem
  have hevent := (nodes_spaceForest_perm space).mem_iff.mp (mem_map_of_mem hnode)
  obtain ⟨l, hl, hevents⟩ := mem_flatMap.mp hevent
  have hany : (hostLines space).any (fun l ↦ decide (lineEvents l.1 l.2 ≠ [])) = true :=
    any_eq_true.mpr ⟨l, hl, decide_eq_true (ne_nil_of_mem hevents)⟩
  rw [buildScopeTree_eq, if_pos hany, topDownNames, renderTreeNames_eq, records_root rfl]
  exact mem_map.mpr ⟨r, hr, rfl⟩

/-! ### The names -/

section Names

variable {startTimestampNs : UInt64} {threads : List EventList} {plane : XPlane} {space : XSpace}
  {scope : Event → Bool}

/-- A string with metadata is not the name in it. -/
theorem hasMetadata_of_givenName {str : List Char} (h : givenName str = str) :
    hasMetadata str = false := by
  by_contra hmeta
  have hlast : str.getLast? = some '#' := of_decide_eq_true (Bool.of_not_eq_false hmeta)
  rw [givenName, if_pos hlast] at h
  have hmem : '#' ∈ str := mem_of_getLast? hlast
  rw [← h] at hmem
  exact absurd (mem_takeWhile_imp hmem) (by simp)

theorem givenName_of_plain {str : List Char} (h : hasMetadata str = false) :
    givenName str = str := by
  rw [givenName, if_neg (of_decide_eq_false h)]

theorem names_survive_of (h : ConvertedPlane startTimestampNs threads plane)
    (hspace : (space.planes.filter fun plane ↦ plane.name = hostThreadsPlaneName) = [plane]) :
    NamesSurvive startTimestampNs scope threads space ↔
      ∀ tid, ∀ e ∈ threadEvents startTimestampNs tid threads,
        SurvivingName (scope e) e.name.toList := by
  constructor
  · intro hsurvive tid e he
    obtain ⟨i, hi⟩ := getElem?_of_mem he
    obtain ⟨node, hnode, hname⟩ := hsurvive.node tid i e hi
    have hshown := (name_of_nodeOf h hspace hnode hi).symm.trans hname
    refine ⟨(nodeName_eq_givenName_iff e).mp hshown, ?_, fun hscope ↦ ?_⟩
    · exact (exists_hotspot_iff.mp (hsurvive.hotspot tid e he)).1
    · obtain ⟨hkey, hrecorded⟩ := hsurvive.memory tid i e node hi hnode hscope
      exact hasMetadata_of_givenName (hrecorded.trans hkey).symm
  · intro hall
    have hname : ∀ tid i e node, (threadEvents startTimestampNs tid threads)[i]? = some e →
        NodeOf space tid i node → node.event.name = givenName e.name.toList := by
      intro tid i e node hi hnode
      rw [name_of_nodeOf h hspace hnode hi]
      exact (nodeName_eq_givenName_iff e).mpr (hall tid e (mem_of_getElem? hi)).toShownAsGiven
    have hreported : ∀ tid, ∀ e ∈ threadEvents startTimestampNs tid threads,
        ∃ node ∈ (spaceForest space).nodes, node.event.name = givenName e.name.toList := by
      intro tid e he
      obtain ⟨i, hi⟩ := getElem?_of_mem he
      obtain ⟨node, hnode⟩ := exists_nodeOf h hspace hi
      exact ⟨node, hnode.mem_space, hname tid i e node hi hnode⟩
    refine ⟨fun tid i e hi ↦ ?_, fun tid e he ↦ ?_, fun tid e he ↦ ?_,
      fun tid i e node hi hnode hscope ↦ ?_,
      fun tid i e node tid' i' e' node' hi hnode hi' hnode' heq ↦ ?_⟩
    · obtain ⟨node, hnode⟩ := exists_nodeOf h hspace hi
      exact ⟨node, hnode, hname tid i e node hi hnode⟩
    · exact exists_hotspot_iff.mpr ⟨(hall tid e he).notRoot, hreported tid e he⟩
    · obtain ⟨node, hnode, hgiven⟩ := hreported tid e he
      rw [← hgiven]
      exact mem_topDownNames_of hnode (hgiven ▸ (hall tid e he).notRoot)
    · have hgiven := hname tid i e node hi hnode
      refine ⟨hgiven, ?_⟩
      rw [ScopeData.memoryKey, hgiven]
      exact (givenName_of_plain ((hall tid e (mem_of_getElem? hi)).plain hscope)).symm
    · rw [← hname tid i e node hi hnode, heq, hname tid' i' e' node' hi' hnode']

end Names

/-- The conversion is defined for threads with different ids, and where it is, the names survive
in the session's tree, reports and memory statistics if and only if every string that was given
is such that its name is not empty, has no text behind its first colon and is not that of the
root, has no whitespace around it before metadata, and has no metadata if it is that of a scope. -/
theorem names_survive_iff (grow : Nat → Nat) (stod : List Char → Option (Double × Nat))
    (startTimestampNs : UInt64) (scope : Event → Bool) (threads : List EventList) :
    ((threads.map fun t ↦ t.1.tid).Nodup →
      (convertCompleteEventsToXplane grow 0 stod startTimestampNs threads newHostPlane).isSome) ∧
    ∀ plane, convertCompleteEventsToXplane grow 0 stod startTimestampNs threads newHostPlane =
        some plane →
      ∀ startTimeNs space, (space.planes.filter fun plane ↦ plane.name = hostThreadsPlaneName) =
          [normalizeTimestamps startTimeNs plane] →
        (NamesSurvive startTimestampNs scope threads space ↔
          ∀ tid, ∀ e ∈ threadEvents startTimestampNs tid threads,
            SurvivingName (scope e) e.name.toList) :=
  ⟨convert_isSome grow stod startTimestampNs, fun _ hplane startTimeNs _ hspace ↦
    names_survive_of ((convertedPlane_of hplane).normalize startTimeNs) hspace⟩

/-- One thread with events of these names. -/
def namedEvents (names : List String) : List EventList :=
  [({ tid := 1, name := "main" }, names.map fun name ↦ { name, startTime := 2, endTime := 3 })]

theorem mem_namedEvents {names : List String} {tid : Int} {e : Event}
    (he : e ∈ threadEvents 1 tid (namedEvents names)) : e.name ∈ names := by
  obtain ⟨t, ht, he⟩ := mem_flatMap.mp (mem_of_mem_filter he)
  obtain rfl := mem_singleton.mp (mem_of_mem_filter ht)
  obtain ⟨name, hname, rfl⟩ := mem_map.mp he
  exact hname

/-- A space with the converted plane alone. -/
def hostSpace (plane : XPlane) : XSpace := { planes := [normalizeTimestamps 1 plane] }

theorem filter_hostSpace {threads : List EventList} {plane : XPlane}
    (h : ConvertedPlane 1 threads plane) :
    ((hostSpace plane).planes.filter fun plane ↦ plane.name = hostThreadsPlaneName) =
      [normalizeTimestamps 1 plane] := by
  have hname : (normalizeTimestamps 1 plane).name = hostThreadsPlaneName := (h.normalize 1).name
  simp [hostSpace, hname]

/-- A scope, and a traceme with metadata. -/
theorem plain_names_survive : ∃ plane, convertCompleteEventsToXplane doubled 0 (fun _ ↦ none) 1
      (namedEvents ["work", "load#step=1#"]) newHostPlane = some plane ∧
    NamesSurvive 1 (fun e ↦ decide (e.name = "work")) (namedEvents ["work", "load#step=1#"])
      (hostSpace plane) := by
  obtain ⟨hdefined, hsurvive⟩ := names_survive_iff doubled (fun _ ↦ none) 1
    (fun e ↦ decide (e.name = "work")) (namedEvents ["work", "load#step=1#"])
  obtain ⟨plane, hplane⟩ := Option.isSome_iff_exists.mp (hdefined (by decide))
  refine ⟨plane, hplane, (hsurvive plane hplane 1 _
    (filter_hostSpace (convertedPlane_of hplane))).mpr fun tid e he ↦ ?_⟩
  have hname := mem_namedEvents he
  simp only [mem_cons, not_mem_nil, or_false] at hname
  obtain hname | hname := hname
  · rw [hname]
    exact ⟨⟨by decide, by decide, by decide⟩, by decide, by decide⟩
  · rw [hname]
    exact ⟨⟨by decide, by decide, by decide⟩, by decide, by decide⟩

/-- A qualified name loses what is in front of its first colon. -/
theorem qualified_name_lost : ∃ plane, convertCompleteEventsToXplane doubled 0 (fun _ ↦ none) 1
      (namedEvents ["ns::f"]) newHostPlane = some plane ∧
    ¬ NamesSurvive 1 (fun _ ↦ true) (namedEvents ["ns::f"]) (hostSpace plane) ∧
    ∃ node, NodeOf (hostSpace plane) 1 0 node ∧ node.event.name = ":f".toList := by
  have hthreads : ((namedEvents ["ns::f"]).map fun t ↦ t.1.tid).Nodup := by decide
  obtain ⟨plane, hplane⟩ := Option.isSome_iff_exists.mp
    (convert_isSome doubled (fun _ ↦ none) 1 hthreads)
  have hconverted := convertedPlane_of hplane
  have hspace := filter_hostSpace hconverted
  have hshown : (threadEvents 1 1 (namedEvents ["ns::f"]))[0]? = some ⟨"ns::f", 2, 3⟩ := by decide
  refine ⟨plane, hplane, fun hsurvive ↦ ?_, ?_⟩
  · have hname := (names_survive_of (hconverted.normalize 1) hspace).mp hsurvive 1 _
      (mem_of_getElem? hshown)
    exact absurd hname.noType (by decide)
  · obtain ⟨node, hnode⟩ := exists_nodeOf (hconverted.normalize 1) hspace hshown
    refine ⟨node, hnode, ?_⟩
    rw [name_of_nodeOf (hconverted.normalize 1) hspace hnode hshown]
    decide

end Hisab.Profiler
