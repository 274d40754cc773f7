import Hisab.Profiler.LineHandles

/-!
# The vector of lines

Whether a line that is asked for again may be used depends on the ids that were asked for and on
the capacity of the vector of lines alone.
-/

namespace Hisab.Profiler

open Base List XPlaneBuilder

/-- The capacity of a vector of lines, how often it has moved, and the ids of the lines, each with
the moves there were when the pointer to the line was made. -/
structure LineVector where
  capacity : Nat := 0
  generation : Nat := 0
  made : List (Int × Nat) := []
  deriving DecidableEq, Repr

namespace LineVector

/-- A line is asked for; none if it is there and has moved since the pointer to it was made. -/
def request (grow : Nat → Nat) (v : LineVector) (lineId : Int) : Option LineVector :=
  match v.made.lookup lineId with
  | some generation => if generation = v.generation then some v else none
  | none =>
    if v.made.length = v.capacity then
      some
        { capacity := grow v.capacity
          generation := v.generation + 1
          made := v.made ++ [(lineId, v.generation + 1)] }
    else some { v with made := v.made ++ [(lineId, v.generation)] }

/-- The lines that a plane has. -/
def ofLines (lines : List XLine) (capacity : Nat) : LineVector where
  capacity
  made := lines.map fun line ↦ (line.id, 0)

/-- The vector of lines of a builder. -/
structure Tracks (v : LineVector) (b : XPlaneBuilder) : Prop where
  capacity : b.capacity = v.capacity
  generation : b.generation = v.generation
  ids : b.plane.lines.map XLine.id = v.made.map Prod.fst
  nodup : (v.made.map Prod.fst).Nodup
  known : ∀ index lineId generation, v.made[index]? = some (lineId, generation) →
    b.linesById.lookup lineId = some { generation, index }
  unknown : ∀ lineId, lineId ∉ v.made.map Prod.fst → b.linesById.lookup lineId = none

end LineVector

/-- The events of some lines, each with the id of its line. -/
def lineEntries (lines : List XLine) : List (Int × XEvent) :=
  lines.flatMap fun line ↦ line.events.map fun event ↦ (line.id, event)

/-! ### One line -/

/-- An event more on one of the lines. -/
theorem lineEntries_modify {lines : List XLine} {i : Nat} {l : XLine} {f : XLine → XLine}
    {event : XEvent} (hl : lines[i]? = some l) (hid : (f l).id = l.id)
    (hevents : (f l).events = l.events ++ [event]) :
    (lineEntries (lines.modify i f)).Perm (lineEntries lines ++ [(l.id, event)]) := by
  induction lines generalizing i with
  | nil => cases hl
  | cons line lines ih =>
    cases i with
    | zero =>
      obtain rfl : line = l := by simpa using hl
      rw [modify_zero_cons]
      simp only [lineEntries, flatMap_cons, hid, hevents, map_append, append_assoc]
      exact List.Perm.append_left _ perm_append_comm
    | succ i =>
      simp only [lineEntries, flatMap_cons, append_assoc]
      exact List.Perm.append_left _ (ih (by simpa using hl))

/-- A line is the changed one, or another with another id. -/
theorem mem_modify {lines : List XLine} {i : Nat} {l l' : XLine} {f : XLine → XLine}
    (hnodup : (lines.map XLine.id).Nodup) (hl : lines[i]? = some l)
    (hmem : l' ∈ lines.modify i f) : l' = f l ∨ l' ∈ lines ∧ l'.id ≠ l.id := by
  obtain ⟨j, hj⟩ := getElem?_of_mem hmem
  rw [getElem?_modify] at hj
  split at hj
  next heq =>
    subst heq
    rw [hl] at hj
    exact .inl (Option.some.inj hj).symm
  next hne =>
    have hj : lines[j]? = some l' := by simpa using hj
    refine .inr ⟨mem_of_getElem? hj, fun hid ↦ hne ?_⟩
    refine (getElem?_inj ?_ hnodup).mp ?_
    · rw [length_map]
      exact (List.getElem?_eq_some_iff.mp hl).1
    · rw [getElem?_map, getElem?_map, hl, hj, Option.map_some, Option.map_some, hid]

/-- One line is changed, and the pointers stay what they are. -/
structure LineChange (b b' : XPlaneBuilder) (i : Nat) (f : XLine → XLine) : Prop where
  lines : b'.plane.lines = b.plane.lines.modify i f
  capacity : b'.capacity = b.capacity
  generation : b'.generation = b.generation
  linesById : b'.linesById = b.linesById

namespace LineChange

variable {b b' b'' : XPlaneBuilder} {i : Nat} {f g : XLine → XLine} {line : LinePtr} {lineId : Int}

theorem trans (h : LineChange b b' i f) (h' : LineChange b' b'' i g) :
    LineChange b b'' i (g ∘ f) where
  lines := by rw [h'.lines, h.lines, modify_modify_eq]
  capacity := h'.capacity.trans h.capacity
  generation := h'.generation.trans h.generation
  linesById := h'.linesById.trans h.linesById

theorem refers (h : LineChange b b' i f) (hf : ∀ l, (f l).id = l.id)
    (hrefers : b.Refers lineId line) : b'.Refers lineId line := by
  obtain ⟨l, hl, hid⟩ := hrefers.modify i hf
  obtain ⟨hgen, hget⟩ := line?_eq_some.mp hl
  refine ⟨l, line?_eq_some.mpr ⟨hgen.trans h.generation.symm, ?_⟩, hid⟩
  rw [h.lines]
  exact hget

/-- A line is changed through a pointer to it. -/
theorem modifyLine (hrefers : b.Refers lineId line) (f : XLine → XLine) : ∃ b',
    b.modifyLine line f = some b' ∧ LineChange b b' line.index f ∧
      XPlaneBuilder.SameNames b b' := by
  rw [modifyLine_eq_some hrefers]
  exact ⟨_, rfl, ⟨rfl, rfl, rfl, rfl⟩, ⟨rfl, rfl, rfl, rfl⟩⟩

theorem eventMetadata (b : XPlaneBuilder) (name : List Char) (i : Nat) :
    LineChange b (b.getOrCreateEventMetadata name).2 i id := by
  rw [getOrCreateEventMetadata]
  split <;> exact ⟨(modify_id ..).symm, rfl, rfl, rfl⟩

theorem statMetadata (b : XPlaneBuilder) (name : List Char) (i : Nat) :
    LineChange b (b.getOrCreateStatMetadata name).2 i id := by
  rw [getOrCreateStatMetadata]
  split <;> exact ⟨(modify_id ..).symm, rfl, rfl, rfl⟩

end LineChange

/-! ### A line is asked for -/

namespace LineVector

variable {grow : Nat → Nat} {v v' : LineVector} {b : XPlaneBuilder} {lineId : Int}

theorem mem_made (h : lineId ∈ v.made.map Prod.fst) :
    ∃ (index : Nat) (generation : Nat), v.made[index]? = some (lineId, generation) ∧
      v.made.lookup lineId = some generation := by
  have hsome : (v.made.lookup lineId).isSome := by
    rw [lookup_isSome_iff]
    obtain ⟨entry, hentry, rfl⟩ := mem_map.mp h
    exact ⟨entry, hentry, beq_self_eq_true _⟩
  obtain ⟨generation, hlookup⟩ := Option.isSome_iff_exists.mp hsome
  obtain ⟨front, back, hmade, -⟩ := lookup_eq_some_iff.mp hlookup
  refine ⟨front.length, generation, ?_, hlookup⟩
  rw [hmade]
  simp

theorem lookup_eq_none (h : lineId ∉ v.made.map Prod.fst) : v.made.lookup lineId = none := by
  rw [lookup_eq_none_iff]
  exact fun entry hentry ↦ bne_iff_ne.mpr fun heq ↦ h (mem_map.mpr ⟨entry, hentry, heq.symm⟩)

theorem Tracks.length (h : Tracks v b) : b.plane.lines.length = v.made.length := by
  have := congrArg List.length h.ids
  rwa [length_map, length_map] at this

/-- The pointer to a line is that of its entry. -/
theorem Tracks.refers (h : Tracks v b) {index generation : Nat}
    (hmade : v.made[index]? = some (lineId, generation)) (hgen : generation = v.generation) :
    b.Refers lineId { generation, index } := by
  have hid : (b.plane.lines.map XLine.id)[index]? = some lineId := by
    rw [h.ids, getElem?_map, hmade, Option.map_some]
  rw [getElem?_map, Option.map_eq_some_iff] at hid
  obtain ⟨l, hl, hid⟩ := hid
  exact ⟨l, line?_eq_some.mpr ⟨hgen.trans h.generation.symm, hl⟩, hid⟩

/-- The vector after a line that is not there was asked for. -/
theorem Tracks.addLine (h : Tracks v b) (hnew : lineId ∉ v.made.map Prod.fst)
    (hrequest : v.request grow lineId = some v') :
    (b.addLine grow { id := lineId }).capacity = v'.capacity ∧
      (b.addLine grow { id := lineId }).generation = v'.generation ∧
      v'.made = v.made ++ [(lineId, v'.generation)] := by
  rw [LineVector.request, lookup_eq_none hnew] at hrequest
  simp only [← h.length, ← h.capacity] at hrequest
  rw [XPlaneBuilder.addLine]
  split at hrequest
  next hfull =>
    cases hrequest
    rw [if_pos hfull]
    exact ⟨rfl, congrArg (· + 1) h.generation, rfl⟩
  next hroom =>
    cases hrequest
    rw [if_neg hroom]
    exact ⟨rfl, h.generation, rfl⟩

variable (grow) in
/-- A line that is asked for is added at most. -/
theorem lines_getOrCreateLine (b : XPlaneBuilder) (lineId : Int) :
    lineEntries (b.getOrCreateLine grow lineId).2.plane.lines = lineEntries b.plane.lines ∧
      ∀ l ∈ (b.getOrCreateLine grow lineId).2.plane.lines, l ∈ b.plane.lines ∨ l.id = lineId := by
  cases hlookup : b.linesById.lookup lineId with
  | some line =>
    rw [getOrCreateLine_known hlookup]
    exact ⟨rfl, fun l hl ↦ .inl hl⟩
  | none =>
    rw [getOrCreateLine_new hlookup]
    dsimp only
    rw [addLine_lines, lineEntries, flatMap_append]
    refine ⟨append_nil _, fun l hl ↦ ?_⟩
    obtain hl | hl := mem_append.mp hl
    · exact .inl hl
    · exact .inr (congrArg XLine.id (mem_singleton.mp hl))

/-- The lines of a builder after a line was asked for, and a pointer to it that may be used. -/
theorem Tracks.request (h : Tracks v b) (hrequest : v.request grow lineId = some v') :
    Tracks v' (b.getOrCreateLine grow lineId).2 ∧
      (b.getOrCreateLine grow lineId).2.Refers lineId (b.getOrCreateLine grow lineId).1 := by
  by_cases hmem : lineId ∈ v.made.map Prod.fst
  · obtain ⟨index, generation, hmade, hlookup⟩ := mem_made hmem
    rw [LineVector.request, hlookup] at hrequest
    simp only at hrequest
    split at hrequest
    next hgen =>
      cases hrequest
      rw [getOrCreateLine_known (h.known index lineId generation hmade)]
      exact ⟨h, h.refers hmade hgen⟩
    next => cases hrequest
  · obtain ⟨hcapacity, hgeneration, hmade⟩ := h.addLine hmem hrequest
    rw [getOrCreateLine_new (h.unknown lineId hmem)]
    refine ⟨⟨hcapacity, hgeneration, ?_, ?_, fun index k g hentry ↦ ?_, fun k hk ↦ ?_⟩,
      refers_new _ _ lineId⟩
    · rw [addLine_lines, hmade, map_append, map_append, h.ids]
      rfl
    · rw [hmade, map_append, nodup_append]
      refine ⟨h.nodup, nodup_singleton _, ?_⟩
      rintro _ hold _ hsingle rfl
      obtain rfl := mem_singleton.mp hsingle
      exact hmem hold
    · rw [addLine_linesById, lookup_cons]
      rw [hmade] at hentry
      obtain hlt | hge := Nat.lt_or_ge index v.made.length
      · rw [getElem?_append_left hlt] at hentry
        have hne : k ≠ lineId := fun heq ↦ hmem (heq ▸ mem_map_of_mem (mem_of_getElem? hentry))
        rw [beq_eq_false_iff_ne.mpr hne]
        exact h.known index k g hentry
      · rw [getElem?_append_right hge, getElem?_singleton] at hentry
        split at hentry
        next hzero =>
          cases hentry
          rw [beq_self_eq_true, lastPtr, addLine_lines, hgeneration, length_append, h.length]
          have : v.made.length = index := by omega
          rw [this]
          rfl
        next => cases hentry
    · rw [hmade, map_append, mem_append, not_or] at hk
      rw [addLine_linesById, lookup_cons,
        beq_eq_false_iff_ne.mpr fun heq ↦ hk.2 (mem_singleton.mpr heq)]
      exact h.unknown k hk.1

/-- A pointer that has become stale is returned. -/
theorem Tracks.request_none (h : Tracks v b) (hrequest : v.request grow lineId = none) :
    (b.getOrCreateLine grow lineId).2.line? (b.getOrCreateLine grow lineId).1 = none := by
  by_cases hmem : lineId ∈ v.made.map Prod.fst
  · obtain ⟨index, generation, hmade, hlookup⟩ := mem_made hmem
    rw [LineVector.request, hlookup] at hrequest
    simp only at hrequest
    split at hrequest
    next => cases hrequest
    next hne =>
      rw [getOrCreateLine_known (h.known index lineId generation hmade),
        line?, if_neg fun hgen ↦ hne (hgen.trans h.generation)]
  · rw [LineVector.request, lookup_eq_none hmem] at hrequest
    simp only at hrequest
    split at hrequest <;> cases hrequest

/-- A line is changed, and none more. -/
theorem Tracks.change (h : Tracks v b) {b' : XPlaneBuilder} {i : Nat} {f : XLine → XLine}
    (hchange : LineChange b b' i f) (hf : ∀ l, (f l).id = l.id) : Tracks v b' where
  capacity := hchange.capacity.trans h.capacity
  generation := hchange.generation.trans h.generation
  ids := by
    rw [hchange.lines, map_key_modify hf]
    exact h.ids
  nodup := h.nodup
  known := by
    rw [hchange.linesById]
    exact h.known
  unknown := by
    rw [hchange.linesById]
    exact h.unknown

/-- The pointers of the constructor. -/
theorem tracks_ofPlane {plane : XPlane} (hnodup : (plane.lines.map XLine.id).Nodup)
    (capacity : Nat) : Tracks (ofLines plane.lines capacity) (.ofPlane plane capacity) := by
  have hids : plane.lines.map XLine.id = (ofLines plane.lines capacity).made.map Prod.fst := by
    rw [ofLines, map_map]
    rfl
  obtain ⟨hindexed, hknown⟩ := BuilderState.indexed_foldl plane.lines
    plane.lines.zipIdx (fun entry he ↦ mem_zipIdx_iff_getElem?.mp he) [] ⟨nofun, nofun⟩
  refine ⟨rfl, rfl, hids, hids ▸ hnodup, fun index k g hmade ↦ ?_, fun k hk ↦ ?_⟩
  · rw [ofLines, getElem?_map, Option.map_eq_some_iff] at hmade
    obtain ⟨l, hl, ⟨⟩⟩ := hmade
    obtain ⟨p, hp⟩ := Option.isSome_iff_exists.mp (hknown l.id (.inr (mem_map.mpr
      ⟨(l, index), mem_zipIdx_iff_getElem?.mpr hl, rfl⟩)))
    obtain ⟨l', hl', hid⟩ := hindexed.index l.id p hp
    have hindex : p.index = index := by
      refine (getElem?_inj ?_ hnodup).mp ?_
      · rw [length_map]
        exact (List.getElem?_eq_some_iff.mp hl').1
      · rw [getElem?_map, getElem?_map, hl, hl', Option.map_some, Option.map_some, hid]
    refine hp.trans (congrArg some ?_)
    rw [← hindexed.generation l.id p hp, ← hindex]
  · by_contra hsome
    obtain ⟨p, hp⟩ := Option.ne_none_iff_exists'.mp hsome
    obtain ⟨l, hl, hid⟩ := hindexed.index k p hp
    exact hk (hids ▸ mem_map.mpr ⟨l, mem_of_getElem? hl, hid⟩)

end LineVector

end Hisab.Profiler
