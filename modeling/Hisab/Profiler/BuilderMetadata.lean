import Hisab.Profiler.XPlane
import Mathlib.Data.List.Nodup

/-!
# Metadata of a plane builder

The id that is returned for a name is that of metadata with this name, and metadata that was
there stays what it was.
-/

namespace Hisab.Profiler

open List Option

theorem lookup_setEntry {V : Type} (key k : Int) (value : V) (entries : List (Int × V)) :
    (setEntry key value entries).lookup k = if k = key then some value else entries.lookup k := by
  induction entries with
  | nil =>
    rw [setEntry, lookup_cons]
    by_cases h : k = key
    · rw [if_pos h, h, beq_self_eq_true]
    · rw [if_neg h, beq_eq_false_iff_ne.mpr h]
  | cons entry entries ih =>
    obtain ⟨k', v⟩ := entry
    rw [setEntry]
    split
    next heq =>
      subst heq
      rw [lookup_cons, lookup_cons]
      by_cases h : k = k'
      · rw [if_pos h, h, beq_self_eq_true]
      · rw [if_neg h, beq_eq_false_iff_ne.mpr h]
    next hne =>
      split
      next =>
        rw [lookup_cons]
        by_cases h : k = key
        · rw [if_pos h, h, beq_self_eq_true]
        · rw [if_neg h, beq_eq_false_iff_ne.mpr h]
      next =>
        rw [lookup_cons, lookup_cons, ih]
        by_cases h : k = k'
        · rw [h, beq_self_eq_true]
          exact (if_neg hne).symm
        · rw [beq_eq_false_iff_ne.mpr h]

theorem lookup_emplace {K V : Type} [DecidableEq K] [inst : BEq K] [LawfulBEq K] (key k : K)
    (value : V) (entries : List (K × V)) : (emplace key value entries).lookup k =
      (entries.lookup k).or (if k = key then some value else none) := by
  obtain rfl : inst = instBEqOfDecidableEq := lawful_beq_subsingleton _ _
  rw [emplace]
  split
  next h =>
    split
    next heq =>
      obtain ⟨v, hv⟩ := isSome_iff_exists.mp h
      rw [heq, hv, some_or]
    next => rw [or_none]
  next =>
    rw [lookup_append, lookup_cons, lookup_nil]
    by_cases heq : k = key
    · rw [if_pos heq, heq, beq_self_eq_true]
    · rw [if_neg heq, beq_eq_false_iff_ne.mpr heq]

namespace XPlaneBuilder

variable {b : XPlaneBuilder} {name : List Char} {id : Int}

/-- What is known by a name is the id of metadata with this name. -/
def EventNames (b : XPlaneBuilder) : Prop :=
  ∀ name id, b.eventMetadataByName.lookup name = some id →
    id ≤ b.lastEventMetadataId ∧ (b.plane.getEventMetadata id).id = id ∧
      (b.plane.getEventMetadata id).name = name

theorem getOrCreateEventMetadata_known (h : b.eventMetadataByName.lookup name = some id) :
    b.getOrCreateEventMetadata name = (id, b) := by
  rw [getOrCreateEventMetadata, h]

theorem lastEventMetadataId_le (b : XPlaneBuilder) (name : List Char) :
    b.lastEventMetadataId ≤ (b.getOrCreateEventMetadata name).2.lastEventMetadataId := by
  rw [getOrCreateEventMetadata]
  split
  next => exact Int.le_refl _
  next => exact Int.le_of_lt (Int.lt_succ _)

theorem name_getOrCreateEventMetadata (b : XPlaneBuilder) (name : List Char) :
    (b.getOrCreateEventMetadata name).2.plane.name = b.plane.name := by
  rw [getOrCreateEventMetadata]
  split <;> rfl

/-- New metadata has a new id. -/
theorem getEventMetadata_new (h : b.eventMetadataByName.lookup name = none) (k : Int) :
    (b.getOrCreateEventMetadata name).2.plane.getEventMetadata k =
      if k = b.lastEventMetadataId + 1 then
        { b.plane.getEventMetadata (b.lastEventMetadataId + 1) with
          id := b.lastEventMetadataId + 1, name }
      else b.plane.getEventMetadata k := by
  rw [getOrCreateEventMetadata, h, XPlane.getEventMetadata, lookup_setEntry]
  split
  next => rfl
  next => rfl

/-- Metadata that is there stays what it is. -/
theorem getEventMetadata_getOrCreate (b : XPlaneBuilder) (name : List Char)
    (h : id ≤ b.lastEventMetadataId) :
    (b.getOrCreateEventMetadata name).2.plane.getEventMetadata id = b.plane.getEventMetadata id := by
  cases hlookup : b.eventMetadataByName.lookup name with
  | some known => rw [getOrCreateEventMetadata_known hlookup]
  | none => rw [getEventMetadata_new hlookup, if_neg (by omega)]

theorem getOrCreateEventMetadata_spec (h : b.EventNames) (name : List Char) :
    (b.getOrCreateEventMetadata name).1 ≤ (b.getOrCreateEventMetadata name).2.lastEventMetadataId ∧
      ((b.getOrCreateEventMetadata name).2.plane.getEventMetadata
        (b.getOrCreateEventMetadata name).1).id = (b.getOrCreateEventMetadata name).1 ∧
      ((b.getOrCreateEventMetadata name).2.plane.getEventMetadata
        (b.getOrCreateEventMetadata name).1).name = name := by
  cases hlookup : b.eventMetadataByName.lookup name with
  | some known =>
    rw [getOrCreateEventMetadata_known hlookup]
    exact h name known hlookup
  | none =>
    rw [getEventMetadata_new hlookup]
    simp only [getOrCreateEventMetadata, hlookup]
    exact ⟨Int.le_refl _, rfl, rfl⟩

theorem EventNames.getOrCreate (h : b.EventNames) (name : List Char) :
    (b.getOrCreateEventMetadata name).2.EventNames := by
  intro name' id hid
  cases hlookup : b.eventMetadataByName.lookup name with
  | some known =>
    rw [getOrCreateEventMetadata_known hlookup] at hid ⊢
    exact h name' id hid
  | none =>
    have hspec := getOrCreateEventMetadata_spec h name
    simp only [getOrCreateEventMetadata, hlookup, lookup_cons] at hid
    split at hid
    next heq =>
      obtain rfl := eq_of_beq heq
      cases hid
      simp only [getOrCreateEventMetadata, hlookup] at hspec ⊢
      exact hspec
    next =>
      obtain ⟨hle, hname⟩ := h name' id hid
      refine ⟨Int.le_trans hle (lastEventMetadataId_le b name), ?_⟩
      rw [getEventMetadata_getOrCreate b name hle]
      exact hname

/-- The name of the plane and the event metadata are those of another builder. -/
structure SameNames (b b' : XPlaneBuilder) : Prop where
  name : b'.plane.name = b.plane.name
  eventMetadata : b'.plane.eventMetadata = b.plane.eventMetadata
  last : b'.lastEventMetadataId = b.lastEventMetadataId
  byName : b'.eventMetadataByName = b.eventMetadataByName

theorem SameNames.trans {b' b'' : XPlaneBuilder} (h : SameNames b b') (h' : SameNames b' b'') :
    SameNames b b'' :=
  ⟨h'.name.trans h.name, h'.eventMetadata.trans h.eventMetadata, h'.last.trans h.last,
    h'.byName.trans h.byName⟩

theorem SameNames.getEventMetadata {b' : XPlaneBuilder} (h : SameNames b b') (id : Int) :
    b'.plane.getEventMetadata id = b.plane.getEventMetadata id := by
  rw [XPlane.getEventMetadata, XPlane.getEventMetadata, h.eventMetadata]

theorem EventNames.sameNames {b' : XPlaneBuilder} (h : b.EventNames) (hsame : SameNames b b') :
    b'.EventNames := by
  intro name id hid
  rw [hsame.byName] at hid
  rw [hsame.last, hsame.getEventMetadata]
  exact h name id hid

theorem sameNames_addLine (b : XPlaneBuilder) (grow : Nat → Nat) (line : XLine) :
    SameNames b (b.addLine grow line) := by
  rw [addLine]
  split <;> exact ⟨rfl, rfl, rfl, rfl⟩

theorem sameNames_getOrCreateLine (b : XPlaneBuilder) (grow : Nat → Nat) (lineId : Int) :
    SameNames b (b.getOrCreateLine grow lineId).2 := by
  rw [getOrCreateLine]
  split
  next => exact ⟨rfl, rfl, rfl, rfl⟩
  next =>
    obtain ⟨hname, hmetadata, hlast, hbyName⟩ := sameNames_addLine b grow { id := lineId }
    exact ⟨hname, hmetadata, hlast, hbyName⟩

theorem sameNames_statMetadata (b : XPlaneBuilder) (name : List Char) :
    SameNames b (b.getOrCreateStatMetadata name).2 := by
  rw [getOrCreateStatMetadata]
  split <;> exact ⟨rfl, rfl, rfl, rfl⟩

/-! ### Stat metadata -/

/-- The constructor knows the first entry with a name. -/
theorem lookup_names (plane : XPlane) {name : List Char} (hname : name ≠ []) (capacity : Nat) :
    (ofPlane plane capacity).statMetadataByName.lookup name =
      (plane.statMetadata.find? fun entry ↦ entry.2.name = name).map Prod.fst := by
  have h : ∀ (entries : List (Int × XStatMetadata)) (names : List (List Char × Int)),
      (entries.foldl (fun names entry ↦
        if entry.2.name ≠ [] then emplace entry.2.name entry.1 names else names) names).lookup
          name =
        (names.lookup name).or ((entries.find? fun entry ↦ entry.2.name = name).map Prod.fst) := by
    intro entries
    induction entries with
    | nil => exact fun names ↦ (or_none ..).symm
    | cons entry entries ih =>
      intro names
      rw [foldl_cons, ih, find?_cons]
      by_cases heq : entry.2.name = name
      · rw [if_pos (heq ▸ hname), lookup_emplace, if_pos heq.symm, decide_eq_true heq,
          Option.or_assoc, some_or, map_some]
      · rw [decide_eq_false heq]
        split
        next => rw [lookup_emplace, if_neg (Ne.symm heq), or_none]
        next => rfl
  exact h plane.statMetadata []

end XPlaneBuilder

/-- An entry of a map is found under its key. -/
theorem lookup_of_mem {V : Type} {entries : List (Int × V)} (h : (entries.map Prod.fst).Nodup)
    {entry : Int × V} (hentry : entry ∈ entries) : entries.lookup entry.1 = some entry.2 := by
  rw [lookup_eq_some_iff]
  obtain ⟨front, back, rfl⟩ := append_of_mem hentry
  refine ⟨front, back, rfl, fun p hp ↦ bne_iff_ne.mpr fun heq ↦ ?_⟩
  rw [map_append, map_cons, nodup_middle] at h
  exact (nodup_cons.mp h).1 (heq ▸ mem_append_left _ (mem_map_of_mem hp))

theorem mem_of_lookup {V : Type} {entries : List (Int × V)} {key : Int} {value : V}
    (h : entries.lookup key = some value) : (key, value) ∈ entries := by
  obtain ⟨front, back, rfl, -⟩ := lookup_eq_some_iff.mp h
  exact mem_append_right _ mem_cons_self

end Hisab.Profiler
