import Hisab.Base.KeyedList
import Hisab.Base.TransitionSystem
import Hisab.Profiler.BuilderMetadata

/-!
# Line builders of one plane

Programs over one `xplane_builder`: lines are asked for by id, and every line builder that was
returned may be used later. Beside the plane stands what the operations do to lines by id. The
use of a pointer to lines that have moved is a fault.
-/

namespace Hisab.Profiler

open Base Function List Option

namespace XLine

variable (line : XLine)

/-- `xline_builder::set_time_stamp_ns_and_adjust_event_offsets`, `xplane_builder.cpp:221–233`. -/
def setTimeStampNsAndAdjustEventOffsets (timestampNs : Int) : XLine :=
  let offsetPs := (line.timestampNs - timestampNs) * 1000
  { line with
    timestampNs
    events := if offsetPs ≠ 0 then
        line.events.map fun event ↦ { event with data := .offset (event.offsetPs + offsetPs) }
      else line.events }

/-- `add_events` of an event. -/
def addEvent (event : XEvent) : XLine := { line with events := line.events ++ [event] }

end XLine

/-- What an `xline_builder` sets. -/
inductive LineSetter
  | setName (name : List Char)
  | setNameIfEmpty (name : List Char)
  | setDisplayNameIfEmpty (displayName : List Char)
  | setTimestampNs (timestampNs : Int)
  | setTimeStampNsAndAdjustEventOffsets (timestampNs : Int)
  | setDurationPs (durationPs : Int)
  deriving DecidableEq, Repr

/-- `SetName`, `SetNameIfEmpty` and so on, `xplane_builder.h:402–440`. -/
def LineSetter.set (line : XLine) : LineSetter → XLine
  | setName name => { line with name }
  | setNameIfEmpty name => if line.name = [] then { line with name } else line
  | setDisplayNameIfEmpty displayName =>
    if line.displayName = [] then { line with displayName } else line
  | setTimestampNs timestampNs => { line with timestampNs }
  | setTimeStampNsAndAdjustEventOffsets timestampNs =>
    line.setTimeStampNsAndAdjustEventOffsets timestampNs
  | setDurationPs durationPs => { line with durationPs }

/-- The operations; a handle is a line builder that was returned, the latest being `0`. An event
is added with its times and its stats. -/
inductive BuilderStep
  | planeName (name : List Char)
  | eventMetadata (name : List Char)
  | statMetadata (name : List Char)
  | getOrCreateLine (lineId : Int)
  | set (handle : Nat) (setter : LineSetter)
  | addEvent (handle : Nat) (event : XEvent)
  deriving DecidableEq, Repr

/-- A builder with the line builders it has returned, each with the id that was asked for, the one
that the last operation returned, and the lines by id as the operations say. -/
structure BuilderState where
  builder : XPlaneBuilder
  handles : List (Int × LinePtr) := []
  returned : Option (Int × LinePtr) := none
  lines : Int → Option XLine
  fault : Bool := false

namespace BuilderState

variable (s : BuilderState)

/-- A change of a line through a line builder. -/
def useHandle (handle : Nat) (f : XLine → XLine) : Option BuilderState := do
  let (lineId, line) ← s.handles[handle]?
  match s.builder.modifyLine line f with
  | some builder =>
    return { s with
      builder
      returned := none
      lines := update s.lines lineId ((s.lines lineId).map f) }
  | none => return { s with fault := true }

def step (grow : Nat → Nat) : BuilderStep → Option BuilderState
  | .planeName name =>
    let builder := { s.builder with plane := { s.builder.plane with name } }
    some { s with builder, returned := none }
  | .eventMetadata name =>
    some { s with builder := (s.builder.getOrCreateEventMetadata name).2, returned := none }
  | .statMetadata name =>
    some { s with builder := (s.builder.getOrCreateStatMetadata name).2, returned := none }
  | .getOrCreateLine lineId =>
    let (line, builder) := s.builder.getOrCreateLine grow lineId
    some { s with
        builder
        handles := (lineId, line) :: s.handles
        returned := some (lineId, line)
        lines := update s.lines lineId (some ((s.lines lineId).getD { id := lineId })) }
  | .set handle setter => s.useHandle handle fun line ↦ setter.set line
  | .addEvent handle event => s.useHandle handle fun line ↦ line.addEvent event

end BuilderState

/-- Programs over the builder of a plane whose vector of lines has some capacity. -/
def builderPrograms (grow : Nat → Nat) : TransitionSystem BuilderState BuilderStep where
  init s := ∃ plane capacity, (plane.lines.map XLine.id).Nodup ∧
    s = { builder := .ofPlane plane capacity
          lines := fun lineId ↦ findKey XLine.id lineId plane.lines }
  step s a s' := s.fault = false ∧ s.step grow a = some s'

/-! ### What the builder does to its lines -/

namespace XPlaneBuilder

variable {b b' : XPlaneBuilder} {grow : Nat → Nat} {line : LinePtr} {f : XLine → XLine}
  {l : XLine} {lineId : Int}

/-- The lines and the pointers to them are those of another builder. -/
def SameLines (b b' : XPlaneBuilder) : Prop :=
  b'.plane.lines = b.plane.lines ∧ b'.generation = b.generation ∧ b'.linesById = b.linesById

theorem sameLines_eventMetadata (b : XPlaneBuilder) (name : List Char) :
    SameLines b (b.getOrCreateEventMetadata name).2 := by
  rw [getOrCreateEventMetadata]
  split <;> exact ⟨rfl, rfl, rfl⟩

theorem sameLines_statMetadata (b : XPlaneBuilder) (name : List Char) :
    SameLines b (b.getOrCreateStatMetadata name).2 := by
  rw [getOrCreateStatMetadata]
  split <;> exact ⟨rfl, rfl, rfl⟩

/-- The pointer refers to the line with the id. -/
def Refers (b : XPlaneBuilder) (lineId : Int) (line : LinePtr) : Prop :=
  ∃ l, b.line? line = some l ∧ l.id = lineId

theorem Refers.generation (h : b.Refers lineId line) : line.generation = b.generation := by
  obtain ⟨l, hl, -⟩ := h
  by_contra hne
  rw [line?, if_neg hne] at hl
  cases hl

theorem line?_eq_some : b.line? line = some l ↔
    line.generation = b.generation ∧ b.plane.lines[line.index]? = some l := by
  rw [line?]
  split
  next h => exact ⟨fun hl ↦ ⟨h, hl⟩, fun hl ↦ hl.2⟩
  next h => exact ⟨nofun, fun hl ↦ absurd hl.1 h⟩

theorem Refers.sameLines (hsame : SameLines b b') (h : b.Refers lineId line) :
    b'.Refers lineId line := by
  obtain ⟨l, hl, hid⟩ := h
  obtain ⟨hgeneration, hl⟩ := line?_eq_some.mp hl
  obtain ⟨hlines, hgen, -⟩ := hsame
  exact ⟨l, line?_eq_some.mpr ⟨hgeneration.trans hgen.symm, hlines ▸ hl⟩, hid⟩

/-! ### A line more, and a line changed -/

theorem modifyLine_eq_some (h : b.Refers lineId line) : b.modifyLine line f = some { b with
      plane := { b.plane with lines := b.plane.lines.modify line.index f } } := by
  obtain ⟨l, hl, -⟩ := h
  rw [modifyLine, if_pos (by rw [hl]; rfl)]

/-- Pointers refer to the same lines after a change of one. -/
theorem Refers.modify (h : b.Refers lineId line) (i : Nat) (hf : ∀ l, (f l).id = l.id) :
    Refers { b with plane := { b.plane with lines := b.plane.lines.modify i f } } lineId line := by
  obtain ⟨l, hl, hid⟩ := h
  obtain ⟨hgen, hget⟩ := line?_eq_some.mp hl
  refine ⟨if i = line.index then f l else l, line?_eq_some.mpr ⟨hgen, ?_⟩, ?_⟩
  · rw [getElem?_modify, hget]
    split <;> rfl
  · split
    next => exact (hf l).trans hid
    next => exact hid

theorem addLine_lines (b : XPlaneBuilder) (l : XLine) :
    (b.addLine grow l).plane.lines = b.plane.lines ++ [l] := by
  rw [addLine]
  split <;> rfl

theorem addLine_linesById (b : XPlaneBuilder) (l : XLine) :
    (b.addLine grow l).linesById = b.linesById := by
  rw [addLine]
  split <;> rfl

theorem generation_le_addLine (b : XPlaneBuilder) (l : XLine) :
    b.generation ≤ (b.addLine grow l).generation := by
  rw [addLine]
  split
  next => exact Nat.le_succ _
  next => exact Nat.le_refl _

theorem getOrCreateLine_known (h : b.linesById.lookup lineId = some line) :
    b.getOrCreateLine grow lineId = (line, b) := by
  rw [getOrCreateLine, h]

/-- The pointer to the line that was added last. -/
def lastPtr (b : XPlaneBuilder) : LinePtr where
  generation := b.generation
  index := b.plane.lines.length - 1

theorem getOrCreateLine_new (h : b.linesById.lookup lineId = none) :
    b.getOrCreateLine grow lineId = ((b.addLine grow { id := lineId }).lastPtr,
      { b.addLine grow { id := lineId } with
        linesById := (lineId, (b.addLine grow { id := lineId }).lastPtr) ::
          (b.addLine grow { id := lineId }).linesById }) := by
  rw [getOrCreateLine, h]
  rfl

variable (b grow) in
/-- The new pointer refers to the new line. -/
theorem refers_new (lineId : Int) : (b.addLine grow { id := lineId }).Refers lineId
    (b.addLine grow { id := lineId }).lastPtr := by
  refine ⟨{ id := lineId }, line?_eq_some.mpr ⟨rfl, ?_⟩, rfl⟩
  rw [lastPtr, addLine_lines]
  simp

/-- Pointers of the present generation stay what they are. -/
theorem Refers.addLine (h : line.generation = b.generation → b.Refers lineId line)
    (hle : line.generation ≤ b.generation) (l : XLine)
    (hgen : line.generation = (b.addLine grow l).generation) :
    (b.addLine grow l).Refers lineId line := by
  have heq : line.generation = b.generation :=
    Nat.le_antisymm hle (hgen ▸ generation_le_addLine b l)
  obtain ⟨l', hl', hid⟩ := h heq
  obtain ⟨-, hget⟩ := line?_eq_some.mp hl'
  refine ⟨l', line?_eq_some.mpr ⟨hgen, ?_⟩, hid⟩
  rw [addLine_lines, getElem?_append_left (List.getElem?_eq_some_iff.mp hget).1]
  exact hget

end XPlaneBuilder

/-! ### The invariant -/

namespace BuilderState

/-- Every pointer of the present generation refers to the line it was asked for, every line is
known by its id, and the lines are those that the operations say. -/
structure Handles (s : BuilderState) : Prop where
  fault : s.fault = false
  nodup : (s.builder.plane.lines.map XLine.id).Nodup
  lines : ∀ lineId, findKey XLine.id lineId s.builder.plane.lines = s.lines lineId
  known : ∀ l ∈ s.builder.plane.lines, (s.builder.linesById.lookup l.id).isSome
  old : ∀ lineId line, s.builder.linesById.lookup lineId = some line ∨
    (lineId, line) ∈ s.handles → line.generation ≤ s.builder.generation
  refers : ∀ lineId line, s.builder.linesById.lookup lineId = some line ∨
    (lineId, line) ∈ s.handles → line.generation = s.builder.generation →
      s.builder.Refers lineId line
  returned : ∀ lineId line, s.returned = some (lineId, line) → s.builder.Refers lineId line

/-- No pointer that the operation goes through was made before the lines have moved last. -/
def Current (s : BuilderState) : BuilderStep → Prop
  | .getOrCreateLine lineId => ∀ line, s.builder.linesById.lookup lineId = some line →
    line.generation = s.builder.generation
  | .set handle _ | .addEvent handle _ =>
    ∀ lineId line, s.handles[handle]? = some (lineId, line) → line.generation = s.builder.generation
  | _ => True

namespace Handles

variable {s s' : BuilderState} {b : XPlaneBuilder} {grow : Nat → Nat}

open XPlaneBuilder

/-- An operation that leaves the lines alone. -/
theorem sameLines (h : s.Handles) (hsame : SameLines s.builder b) :
    Handles { s with builder := b, returned := none } where
  fault := h.fault
  nodup := by
    rw [hsame.1]
    exact h.nodup
  lines lineId := by
    rw [hsame.1]
    exact h.lines lineId
  known l hl := by
    rw [hsame.1] at hl
    rw [hsame.2.2]
    exact h.known l hl
  old lineId line hline := by
    rw [hsame.2.2] at hline
    rw [hsame.2.1]
    exact h.old lineId line hline
  refers lineId line hline hgen := by
    rw [hsame.2.2] at hline
    rw [hsame.2.1] at hgen
    exact (h.refers lineId line hline hgen).sameLines hsame
  returned := nofun

/-- A line is changed through a line builder that is not stale. -/
theorem useHandle (h : s.Handles) {handle : Nat} {f : XLine → XLine} (hf : ∀ l, (f l).id = l.id)
    (hcurrent : ∀ lineId line, s.handles[handle]? = some (lineId, line) →
      line.generation = s.builder.generation)
    (hs : s.useHandle handle f = some s') : s'.Handles := by
  rw [BuilderState.useHandle, bind_eq_bind, bind_eq_some_iff] at hs
  obtain ⟨⟨lineId, line⟩, hhandle, hs⟩ := hs
  have hrefers := h.refers lineId line (.inr (mem_of_getElem? hhandle))
    (hcurrent lineId line hhandle)
  simp only [modifyLine_eq_some hrefers] at hs
  cases hs
  obtain ⟨l, hl, hid⟩ := hrefers
  obtain ⟨-, hget⟩ := line?_eq_some.mp hl
  refine ⟨h.fault, ?_, fun k ↦ ?_, fun l' hl' ↦ ?_, h.old, fun k p hp hgen ↦ ?_, nofun⟩
  · rw [map_key_modify hf]
    exact h.nodup
  · dsimp only
    rw [findKey_modify h.nodup hget hf, h.lines, hid]
    by_cases hk : lineId = k
    · rw [if_pos hk, hk, update_self]
    · rw [if_neg hk, update_of_ne (Ne.symm hk)]
  · have hmem := mem_map_of_mem (f := XLine.id) hl'
    rw [map_key_modify hf] at hmem
    obtain ⟨l₀, hl₀, heq⟩ := mem_map.mp hmem
    rw [← heq]
    exact h.known l₀ hl₀
  · exact (h.refers k p hp hgen).modify _ hf

/-- A pointer that is kept after a line was added is the new one or was kept before. -/
theorem mem_new {lineId k : Int} {line p : LinePtr}
    (hp : ((lineId, line) :: (s.builder.addLine grow { id := lineId }).linesById).lookup k =
      some p ∨ (k, p) ∈ (lineId, line) :: s.handles) :
    (k = lineId ∧ p = line) ∨ (s.builder.linesById.lookup k = some p ∨ (k, p) ∈ s.handles) := by
  rw [addLine_linesById, lookup_cons, mem_cons] at hp
  obtain hp | hp | hp := hp
  · split at hp
    next heq => exact .inl ⟨eq_of_beq heq, (some.inj hp).symm⟩
    next => exact .inr (.inl hp)
  · cases hp
    exact .inl ⟨rfl, rfl⟩
  · exact .inr (.inr hp)

theorem step_getOrCreateLine (lineId : Int) : s.step grow (.getOrCreateLine lineId) = some { s with
      builder := (s.builder.getOrCreateLine grow lineId).2
      handles := (lineId, (s.builder.getOrCreateLine grow lineId).1) :: s.handles
      returned := some (lineId, (s.builder.getOrCreateLine grow lineId).1)
      lines := update s.lines lineId (some ((s.lines lineId).getD { id := lineId })) } :=
  rfl

/-- A line is asked for, and a pointer to it that is known is not stale. -/
theorem getOrCreateLine (h : s.Handles) {lineId : Int}
    (hcurrent : ∀ line, s.builder.linesById.lookup lineId = some line →
      line.generation = s.builder.generation)
    (hs : s.step grow (.getOrCreateLine lineId) = some s') : s'.Handles := by
  rw [step_getOrCreateLine, some.injEq] at hs
  subst hs
  cases hlookup : s.builder.linesById.lookup lineId with
  | some line =>
    have hrefers := h.refers lineId line (.inl hlookup) (hcurrent line hlookup)
    rw [getOrCreateLine_known hlookup]
    refine ⟨h.fault, h.nodup, fun k ↦ ?_, h.known, fun k p hp ↦ ?_, fun k p hp hgen ↦ ?_, ?_⟩
    · obtain ⟨l, hl, rfl⟩ := hrefers
      have hmem := mem_of_getElem? (line?_eq_some.mp hl).2
      dsimp only
      by_cases hk : k = l.id
      · rw [hk, update_self, ← h.lines, findKey_of_mem h.nodup hmem]
        rfl
      · rw [update_of_ne hk]
        exact h.lines k
    · obtain hp | hp := hp
      · exact h.old k p (.inl hp)
      · obtain hp | hp := mem_cons.mp hp
        · cases hp
          exact h.old _ _ (.inl hlookup)
        · exact h.old k p (.inr hp)
    · obtain hp | hp := hp
      · exact h.refers k p (.inl hp) hgen
      · obtain hp | hp := mem_cons.mp hp
        · cases hp
          exact hrefers
        · exact h.refers k p (.inr hp) hgen
    · rintro _ _ ⟨⟩
      exact hrefers
  | none =>
    have hnew : lineId ∉ s.builder.plane.lines.map XLine.id := by
      intro hmem
      obtain ⟨l, hl, rfl⟩ := mem_map.mp hmem
      have := h.known l hl
      rw [hlookup] at this
      cases this
    have hrefers := refers_new s.builder grow lineId
    rw [getOrCreateLine_new hlookup]
    refine ⟨h.fault, ?_, fun k ↦ ?_, fun l hl ↦ ?_, fun k p hp ↦ ?_, fun k p hp hgen ↦ ?_, ?_⟩
    · rw [addLine_lines, map_append, nodup_append]
      refine ⟨h.nodup, nodup_singleton _, ?_⟩
      rintro _ hmem _ hsingle rfl
      obtain rfl := mem_singleton.mp hsingle
      exact hnew hmem
    · dsimp only
      rw [addLine_lines, findKey_concat hnew, h.lines]
      by_cases hk : k = lineId
      · rw [if_pos hk.symm, hk, update_self, ← h.lines, findKey_eq_none hnew]
        rfl
      · rw [if_neg (Ne.symm hk), update_of_ne hk]
    · rw [addLine_lines, mem_append, mem_singleton] at hl
      rw [addLine_linesById, lookup_cons]
      split
      next => rfl
      next hne =>
        obtain hl | rfl := hl
        · exact h.known l hl
        · exact absurd (beq_self_eq_true _) (by rw [hne]; nofun)
    · obtain ⟨rfl, rfl⟩ | hp := mem_new hp
      · exact Nat.le_refl _
      · exact Nat.le_trans (h.old k p hp) (generation_le_addLine _ _)
    · obtain ⟨rfl, rfl⟩ | hp := mem_new hp
      · exact hrefers
      · exact Refers.addLine (h.refers k p hp) (h.old k p hp) _ hgen
    · rintro _ _ ⟨⟩
      exact hrefers

/-- A line builder sets anything but the id. -/
theorem id_set (setter : LineSetter) (line : XLine) : (setter.set line).id = line.id := by
  cases setter with
  | setNameIfEmpty | setDisplayNameIfEmpty =>
    rw [LineSetter.set]
    split <;> rfl
  | _ => rfl

/-- Every operation whose pointers are not stale. -/
theorem step (h : s.Handles) {a : BuilderStep} (hcurrent : s.Current a)
    (hs : s.step grow a = some s') : s'.Handles := by
  cases a with
  | planeName name =>
    cases hs
    exact h.sameLines ⟨rfl, rfl, rfl⟩
  | eventMetadata name =>
    cases hs
    exact h.sameLines (sameLines_eventMetadata _ _)
  | statMetadata name =>
    cases hs
    exact h.sameLines (sameLines_statMetadata _ _)
  | getOrCreateLine lineId => exact h.getOrCreateLine hcurrent hs
  | set handle setter => exact h.useHandle (id_set setter) hcurrent hs
  | addEvent handle event => exact h.useHandle (f := (·.addEvent event)) (fun _ ↦ rfl) hcurrent hs

end Handles

/-! ### A builder for a plane with lines -/

/-- The pointers that the constructor keeps, each to a line of the plane with its id. -/
structure Indexed (lines : List XLine) (entries : List (Int × LinePtr)) : Prop where
  generation : ∀ lineId line, entries.lookup lineId = some line → line.generation = 0
  index : ∀ lineId line, entries.lookup lineId = some line →
    ∃ l, lines[line.index]? = some l ∧ l.id = lineId

theorem Indexed.emplace {lines : List XLine} {entries : List (Int × LinePtr)}
    (h : Indexed lines entries) {l : XLine} {index : Nat} (hl : lines[index]? = some l) :
    Indexed lines (Profiler.emplace l.id { generation := 0, index } entries) := by
  have hcases : ∀ lineId line,
      (Profiler.emplace l.id { generation := 0, index } entries).lookup lineId = some line →
      entries.lookup lineId = some line ∨ lineId = l.id ∧ line = { generation := 0, index } := by
    intro lineId line hline
    rw [lookup_emplace, or_eq_some_iff] at hline
    obtain hline | ⟨-, hline⟩ := hline
    · exact .inl hline
    · split at hline
      next heq => exact .inr ⟨heq, (some.inj hline).symm⟩
      next => cases hline
  constructor
  · intro lineId line hline
    obtain hline | ⟨-, rfl⟩ := hcases lineId line hline
    · exact h.generation lineId line hline
    · rfl
  · intro lineId line hline
    obtain hline | ⟨rfl, rfl⟩ := hcases lineId line hline
    · exact h.index lineId line hline
    · exact ⟨l, hl, rfl⟩

/-- The constructor goes through the lines: what it keeps is a pointer to each. -/
theorem indexed_foldl (lines : List XLine) (rest : List (XLine × Nat))
    (hrest : ∀ entry ∈ rest, lines[entry.2]? = some entry.1) (entries : List (Int × LinePtr))
    (h : Indexed lines entries) :
    Indexed lines (rest.foldl (fun lines entry ↦
      emplace entry.1.id { generation := 0, index := entry.2 } lines) entries) ∧
    ∀ lineId, (entries.lookup lineId).isSome ∨ lineId ∈ rest.map (fun entry ↦ entry.1.id) →
      ((rest.foldl (fun lines entry ↦
        emplace entry.1.id { generation := 0, index := entry.2 } lines) entries).lookup
          lineId).isSome := by
  induction rest generalizing entries with
  | nil => exact ⟨h, fun lineId hid ↦ hid.resolve_right not_mem_nil⟩
  | cons entry rest ih =>
    obtain ⟨hindexed, hknown⟩ := ih (fun e he ↦ hrest e (mem_cons_of_mem _ he)) _
      (h.emplace (hrest entry mem_cons_self))
    refine ⟨hindexed, fun lineId hid ↦ hknown lineId ?_⟩
    rw [lookup_emplace, isSome_or, Bool.or_eq_true]
    obtain hid | hid := hid
    · exact .inl (.inl hid)
    · obtain heq | hid := mem_cons.mp hid
      · exact .inl (.inr (by rw [if_pos heq]; rfl))
      · exact .inr hid

theorem handles_init {plane : XPlane} (hnodup : (plane.lines.map XLine.id).Nodup)
    (capacity : Nat) : Handles
      { builder := .ofPlane plane capacity
        lines := fun lineId ↦ findKey XLine.id lineId plane.lines } := by
  obtain ⟨hindexed, hknown⟩ := indexed_foldl plane.lines plane.lines.zipIdx
    (fun entry he ↦ mem_zipIdx_iff_getElem?.mp he) [] ⟨nofun, nofun⟩
  refine ⟨rfl, hnodup, fun _ ↦ rfl, fun l hl ↦ ?_, fun k p hp ↦ ?_, fun k p hp _ ↦ ?_, nofun⟩
  · refine hknown l.id (.inr ?_)
    obtain ⟨i, hi⟩ := getElem?_of_mem hl
    exact mem_map.mpr ⟨(l, i), mem_zipIdx_iff_getElem?.mpr hi, rfl⟩
  · obtain hp | hp := hp
    · exact Nat.le_of_eq (hindexed.generation k p hp)
    · cases hp
  · obtain hp | hp := hp
    · obtain ⟨l, hl, hid⟩ := hindexed.index k p hp
      exact ⟨l, XPlaneBuilder.line?_eq_some.mpr ⟨hindexed.generation k p hp, hl⟩, hid⟩
    · cases hp

/-! ### Runs -/

/-- A line builder that was just returned refers to the line that was asked for, no id occurs
twice, and the lines are what the operations on their ids have made of them. -/
structure Sound (s : BuilderState) : Prop where
  fault : s.fault = false
  returned : ∀ lineId line, s.returned = some (lineId, line) → s.builder.Refers lineId line
  nodup : (s.builder.plane.lines.map XLine.id).Nodup
  lines : ∀ lineId, findKey XLine.id lineId s.builder.plane.lines = s.lines lineId

theorem Handles.sound {s : BuilderState} (h : s.Handles) : s.Sound :=
  ⟨h.fault, h.returned, h.nodup, h.lines⟩

theorem handles_of_current {grow : Nat → Nat} {s : BuilderState}
    (h : ((builderPrograms grow).restrict Current).Reachable s) : s.Handles := by
  refine h.invariant ?_ fun s t a hs ht ↦ hs.step ht.2 ht.1.2
  rintro s ⟨plane, capacity, hnodup, rfl⟩
  exact handles_init hnodup capacity

end BuilderState

end Hisab.Profiler
