import Hisab.Base.KeyedList
import Hisab.Profiler.XPlane

/-!
# Values of a stat

The setters and getters of `xstat` (`Library/Profiler/native/exporters/xplane/xplane.h:50–157`) and
the writers of `xstats_builder` (`xplane_builder.h:218–245,302–401`). A stat keeps the alternative
of its value and, beside it, a flag that the value is a reference; a plain write leaves the flag.
-/

namespace Hisab.Profiler

open Base List XStat

/-- `value_case_type`. -/
inductive ValueCase
  | int64Value
  | uint64Value
  | doubleValue
  | strValue
  | bytesValue
  | refValue
  deriving DecidableEq, Repr

/-- What `value_case` and the getters report. -/
structure StatReading where
  valueCase : ValueCase
  double : Double := default
  uint64 : Nat := 0
  int64 : Int := 0
  str : List Char := []
  bytes : List Char := []
  ref : Int := 0
  deriving DecidableEq, Repr

/-- One write: `set_value` of any kind, or `set_ref_value`. -/
inductive StatWrite
  | value (val : XStatValue)
  | ref (id : Int)
  deriving DecidableEq, Repr

namespace XStat

/-- `set_value`, the same in each of its overloads. -/
def setValue (stat : XStat) (value : XStatValue) : XStat := { stat with value }

/-- `set_ref_value`. -/
def setRefValue (stat : XStat) (ref : Int) : XStat :=
  { stat with value := .int64 ref, refValue := true }

def doubleValue (stat : XStat) : Double :=
  match stat.value with
  | .double val => val
  | _ => default

def strValue (stat : XStat) : List Char :=
  match stat.value with
  | .str val => val
  | _ => []

def bytesValue (stat : XStat) : List Char :=
  match stat.value with
  | .bytes val => val
  | _ => []

/-- `value_case`, for a variant that holds a value. -/
def valueCase (stat : XStat) : ValueCase :=
  if stat.isRef then .refValue
  else
    match stat.value with
    | .double _ => .doubleValue
    | .uint64 _ => .uint64Value
    | .int64 _ => .int64Value
    | .str _ => .strValue
    | .bytes _ => .bytesValue

/-- Everything that a reader can ask of a stat. -/
def reading (stat : XStat) : StatReading where
  valueCase := stat.valueCase
  double := stat.doubleValue
  uint64 := stat.uint64Value
  int64 := stat.int64Value
  str := stat.strValue
  bytes := stat.bytesValue
  ref := stat.refValueId

end XStat

namespace StatWrite

/-- What a stat should report after the write: its kind and its value, and nothing else. -/
def reading : StatWrite → StatReading
  | .value (.double val) => { valueCase := .doubleValue, double := val }
  | .value (.uint64 val) => { valueCase := .uint64Value, uint64 := val }
  | .value (.int64 val) => { valueCase := .int64Value, int64 := val }
  | .value (.str val) => { valueCase := .strValue, str := val }
  | .value (.bytes val) => { valueCase := .bytesValue, bytes := val }
  | .ref id => { valueCase := .refValue, int64 := id, ref := id }

/-- The value that the variant holds after the write. -/
def stored : StatWrite → XStatValue
  | .value val => val
  | .ref id => .int64 id

def isRef : StatWrite → Bool
  | .value _ => false
  | .ref _ => true

end StatWrite

/-- A stat with its history: the last write, unless the stat is new or has been moved from, and
whether a reference was ever written to it or to a stat that it is a copy of. -/
structure WrittenStat where
  stat : XStat := {}
  last : Option StatWrite := none
  held : Bool := false
  deriving DecidableEq, Repr

namespace WrittenStat

def write (s : WrittenStat) (w : StatWrite) : WrittenStat where
  stat := match w with
    | .value val => s.stat.setValue val
    | .ref id => s.stat.setRefValue id
  last := some w
  held := s.held || w.isRef

/-- A stat that has been moved from keeps its flag; its value is anything. -/
def movedFrom (s : WrittenStat) (left : XStatValue) : WrittenStat where
  stat := { s.stat with value := left }
  held := s.held

/-- The flag tells whether a reference was ever written, and the variant holds the last write. -/
structure Ok (s : WrittenStat) : Prop where
  flag : s.stat.refValue = s.held
  stored : ∀ w ∈ s.last, s.stat.value = w.stored ∧ (w.isRef = true → s.held = true)

variable {s : WrittenStat} {w : StatWrite}

theorem Ok.write (h : s.Ok) (w : StatWrite) : (s.write w).Ok := by
  cases w with
  | value val =>
    refine ⟨?_, ?_⟩
    · exact h.flag.trans (Bool.or_false _).symm
    · rintro w' ⟨⟩
      exact ⟨rfl, nofun⟩
  | ref id =>
    refine ⟨(Bool.or_true _).symm, ?_⟩
    rintro w' ⟨⟩
    exact ⟨rfl, fun _ ↦ Bool.or_true _⟩

theorem Ok.movedFrom (h : s.Ok) (left : XStatValue) : (s.movedFrom left).Ok where
  flag := h.flag
  stored := nofun

end WrittenStat

/-! ### The stats of an event -/

/-- What is written: a value or a reference to metadata (`set_stat_value`), or the stat of another
plane (`copy_stat_value`). -/
inductive StatSource
  | write (w : StatWrite)
  | copy (src : XStat) (srcPlane : XPlane)

/-- The write of `copy_stat_value` (`xplane_builder.h:363–396`): a reference becomes one to the
metadata of the same name, and is dropped if there is none. -/
def copyStatValue (src : XStat) (srcPlane : XPlane) (b : XPlaneBuilder) :
    Option StatWrite × XPlaneBuilder :=
  match src.valueCase with
  | .int64Value => (some (.value (.int64 src.int64Value)), b)
  | .uint64Value => (some (.value (.uint64 src.uint64Value)), b)
  | .doubleValue => (some (.value (.double src.doubleValue)), b)
  | .strValue => (some (.value (.str src.strValue)), b)
  | .bytesValue => (some (.value (.bytes src.bytesValue)), b)
  | .refValue =>
    match srcPlane.statMetadata.lookup src.refValueId with
    | some metadata =>
      let (id, b) := b.getOrCreateStatMetadata metadata.name
      (some (.ref id), b)
    | none => (none, b)

def StatSource.resolve (b : XPlaneBuilder) : StatSource → Option StatWrite × XPlaneBuilder
  | .write w => (some w, b)
  | .copy src srcPlane => copyStatValue src srcPlane b

/-- The write, if there is one, on a stat. -/
def WrittenStat.writeOpt (s : WrittenStat) : Option StatWrite → WrittenStat
  | none => s
  | some w => s.write w

/-- `add_stat` and the write on the new stat (`xplane_builder.h:302–307`). -/
def addStat (metadataId : Int) (w : Option StatWrite) (stats : List WrittenStat) :
    List WrittenStat :=
  stats ++ [WrittenStat.writeOpt { stat := { metadataId } } w]

/-- `find_or_add_stat` and the write on the stat that it returns (`xplane_builder.h:309–319`). -/
def setOrAddStat (metadataId : Int) (w : Option StatWrite) : List WrittenStat → List WrittenStat
  | [] => addStat metadataId w []
  | s :: stats =>
    if s.stat.metadataId = metadataId then s.writeOpt w :: stats
    else s :: setOrAddStat metadataId w stats

structure StatState where
  stats : List WrittenStat := []
  builder : XPlaneBuilder

inductive StatOp
  | construct
  | set (i : Nat) (w : StatWrite)
  | copy (i j : Nat)
  | move (i j : Nat) (left : XStatValue)
  | addStat (metadataId : Int) (source : StatSource)
  | setOrAddStat (metadataId : Int) (source : StatSource)

namespace StatState

/-- One operation on the stats; a copy or a move assigns the stat `j` to the stat `i`. -/
def step (s : StatState) : StatOp → StatState
  | .construct => { s with stats := s.stats ++ [{}] }
  | .set i w => { s with stats := s.stats.modify i (·.write w) }
  | .copy i j =>
    match s.stats[j]? with
    | some src => { s with stats := s.stats.set i src }
    | none => s
  | .move i j left =>
    match s.stats[j]? with
    | some src => { s with stats := (s.stats.modify j (·.movedFrom left)).set i src }
    | none => s
  | .addStat metadataId source =>
    let (w, builder) := source.resolve s.builder
    { stats := Profiler.addStat metadataId w s.stats, builder }
  | .setOrAddStat metadataId source =>
    let (w, builder) := source.resolve s.builder
    { stats := Profiler.setOrAddStat metadataId w s.stats, builder }

def run (s : StatState) (ops : List StatOp) : StatState := ops.foldl step s

end StatState

/-- Stats with this metadata come from `set_or_add_stat` alone. -/
def StatOp.OnlySetOrAdd (id : Int) : StatOp → Prop
  | .set .. => True
  | .addStat metadataId _ => metadataId ≠ id
  | .setOrAddStat .. => True
  | _ => False

variable {s : StatState} {stats : List WrittenStat} {x : WrittenStat}

theorem WrittenStat.Ok.writeOpt (h : x.Ok) (w : Option StatWrite) : (x.writeOpt w).Ok := by
  cases w with
  | none => exact h
  | some w => exact h.write w

theorem metadataId_writeOpt (x : WrittenStat) (w : Option StatWrite) :
    (x.writeOpt w).stat.metadataId = x.stat.metadataId := by
  cases w with
  | none => rfl
  | some w => cases w <;> rfl

/-- The stats that are there keep their metadata; one may be added, if there is none like it. -/
theorem map_setOrAddStat (metadataId : Int) (w : Option StatWrite) (stats : List WrittenStat) :
    (setOrAddStat metadataId w stats).map (·.stat.metadataId) =
      if metadataId ∈ stats.map (·.stat.metadataId) then stats.map (·.stat.metadataId)
      else stats.map (·.stat.metadataId) ++ [metadataId] := by
  induction stats with
  | nil => simp [setOrAddStat, addStat, metadataId_writeOpt]
  | cons s stats ih =>
    rw [setOrAddStat]
    split
    · next h => simp [metadataId_writeOpt, h]
    · next h =>
      rw [map_cons, ih, map_cons]
      simp only [mem_cons, Ne.symm h, false_or]
      split <;> rfl

theorem StatState.count_step {op : StatOp} {id : Int} (hop : op.OnlySetOrAdd id)
    (h : (s.stats.map (·.stat.metadataId)).count id ≤ 1) :
    ((s.step op).stats.map (·.stat.metadataId)).count id ≤ 1 := by
  cases op with
  | construct | copy i j | move i j left => exact hop.elim
  | set i w => rwa [step, map_key_modify fun x ↦ metadataId_writeOpt x (some w)]
  | addStat metadataId source =>
    simp only [step, Profiler.addStat, map_append, count_append, map_singleton, metadataId_writeOpt]
    have hne : metadataId ≠ id := hop
    rwa [count_singleton, if_neg (by simpa using hne)]
  | setOrAddStat metadataId source =>
    rw [step, map_setOrAddStat]
    split
    · exact h
    · next hmem =>
      rw [count_append]
      by_cases heq : metadataId = id
      · subst heq
        rw [count_eq_zero_of_not_mem hmem]
        simp
      · simpa [count_singleton, heq] using h

theorem StatState.count_run {ops : List StatOp} {id : Int} (hops : ∀ op ∈ ops, op.OnlySetOrAdd id)
    (h : (s.stats.map (·.stat.metadataId)).count id ≤ 1) :
    ((s.run ops).stats.map (·.stat.metadataId)).count id ≤ 1 := by
  induction ops generalizing s with
  | nil => exact h
  | cons op ops ih =>
    obtain ⟨hop, hops⟩ := forall_mem_cons.mp hops
    exact ih hops (count_step hop h)

end Hisab.Profiler
