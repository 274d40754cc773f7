import Hisab.Base.ExtentMap
import Hisab.Base.RangeSum
import Hisab.Memory.CudaCachingAllocator

/-!
# The invariant of the caching allocator

`WellFormed l s` relates the blocks on the heap to the containers that hold them. Between
two container updates one block may be in none of them: `l : Limbo` says which and why,
and `Limbo.none` is the invariant of the states between operations. The abstract history
of a block is the small protocol `BlockPhase`, which every ghost history must follow.
-/

namespace Hisab.Memory
open Hisab.Base ExtentMap RangeSum Option CacheBlock

/-- The block an operation is holding outside every container. -/
inductive Limbo where
  /-- Every block is in its container. -/
  | none
  /-- Out of its pool or new, with no free neighbour. -/
  | taken (b : BlockId)
  /-- Cut to size, possibly beside its own free remainder. -/
  | carved (b : BlockId)
  /-- Being freed; `owed` is its size before any merge, still to be added to the cache. -/
  | freeing (b : BlockId) (owed : Nat)
  deriving DecidableEq

namespace Limbo

/-- The block in limbo. -/
def block : Limbo → Option BlockId
  | none => Option.none
  | taken b => some b
  | carved b => some b
  | freeing b _ => some b

/-- The block that may have a free neighbour although it is idle. -/
def exempt : Limbo → Option BlockId
  | carved b => some b
  | freeing b _ => some b
  | _ => Option.none

/-- The idle block that is not part of the cache. -/
def uncounted : Limbo → Option BlockId
  | taken b => some b
  | carved b => some b
  | _ => Option.none

/-- Bytes of the cache not yet in the counter. -/
def owed : Limbo → Nat
  | freeing _ n => n
  | _ => 0

@[simp] theorem views_none : none.block = Option.none ∧ none.exempt = Option.none ∧
    none.uncounted = Option.none ∧ none.owed = 0 := by
  simp [block, exempt, uncounted, owed]

@[simp] theorem views_taken (b : BlockId) : (taken b).block = some b ∧
    (taken b).exempt = Option.none ∧ (taken b).uncounted = some b ∧
    (taken b).owed = 0 := by
  simp [block, exempt, uncounted, owed]

@[simp] theorem views_carved (b : BlockId) : (carved b).block = some b ∧
    (carved b).exempt = some b ∧ (carved b).uncounted = some b ∧
    (carved b).owed = 0 := by
  simp [block, exempt, uncounted, owed]

@[simp] theorem views_freeing (b : BlockId) (n : Nat) : (freeing b n).block = some b ∧
    (freeing b n).exempt = some b ∧ (freeing b n).uncounted = Option.none ∧
    (freeing b n).owed = n := by
  simp [block, exempt, uncounted, owed]

end Limbo

/-! ### Abstract life of a block -/

/-- Where a block is in its life; `freeing n` waits for `n` events. -/
inductive BlockPhase where
  | absent
  | out
  | freeing (events : Nat)
  | pooled
  deriving DecidableEq, Repr

/-- The protocol of one block: only a pooled block is handed out, merged into a neighbour
or released, and a freed block is pooled once, when none of its events is outstanding. -/
def BlockPhase.next (b : BlockId) : BlockPhase → BlockAction → Option BlockPhase
  | p, .created c => if c = b then (if p = .absent then some .out else none) else some p
  | p, .handedOut c => if c = b then (if p = .pooled then some .out else none) else some p
  | p, .freed c => if c = b then (if p = .out then some (.freeing 0) else none) else some p
  | p, .queued c =>
    if c = b then
      match p with
      | .freeing n => some (.freeing (n + 1))
      | _ => none
    else some p
  | p, .drained c =>
    if c = b then
      match p with
      | .freeing (n + 1) => some (.freeing n)
      | _ => none
    else some p
  | p, .merged dst src =>
    if src = b then (if p = .pooled then some .absent else none)
    else if dst = b then (if p = .freeing 0 then some p else none)
    else some p
  | p, .pooled c => if c = b then (if p = .freeing 0 then some .pooled else none) else some p
  | p, .remainder c => if c = b then (if p = .out then some .pooled else none) else some p
  | p, .released c => if c = b then (if p = .pooled then some .absent else none) else some p

/-- The phase a block is in after a history, latest action first; `none` if the history
breaks the protocol. -/
def BlockPhase.after (b : BlockId) : List BlockAction → Option BlockPhase
  | [] => some .absent
  | a :: history => (BlockPhase.after b history).bind (fun p ↦ BlockPhase.next b p a)

/-! ### Views of the state -/

/-- Address range and links of a block; its stream and pool are the tag neighbours share. -/
def CacheBlock.extent (b : CacheBlock) : Extent (Stream × PoolKind) :=
  { start := b.ptr, size := b.size, prev := b.prev, next := b.next, base := b.segmentBase
    tag := (b.stream, b.pool) }

/-- A block without its links. -/
def CacheBlock.unlinked (b : CacheBlock) : CacheBlock := { b with prev := none, next := none }

/-- Neither live nor waiting on an event. -/
def CacheBlock.Idle (b : CacheBlock) : Prop := b.allocated = false ∧ b.eventCount = 0

instance (b : CacheBlock) : Decidable b.Idle := inferInstanceAs (Decidable (_ ∧ _))

namespace Impl

def extents (s : Impl) : Extents (Stream × PoolKind) := fun b ↦ (s.heap b).map CacheBlock.extent

def regions (s : Impl) : Regions := fun base ↦ (s.driverSegments.lookup base).map RawSegment.size

/-- All entries of `cuda_events_`. -/
def queueEntries (s : Impl) : List (Event × BlockId) := s.cudaEvents.flatMap Prod.snd

/-- The blocks named by the entries of `cuda_events_`, with repetitions. -/
def queuedBlocks (s : Impl) : List BlockId := s.queueEntries.map Prod.snd

/-- Every event handle, in a queue or ready for reuse. -/
def eventHandles (s : Impl) : List Event := s.queueEntries.map Prod.fst ++ s.eventPool

/-- In its pool, or just taken out of it. -/
def Mergeable (s : Impl) (l : Limbo) (b : BlockId) : Prop :=
  ∃ B, s.heap b = some B ∧ B.Idle ∧ l.exempt ≠ some b

/-- Bytes of a block that is in a pool or on its way there. -/
def cachedBytes (l : Limbo) (b : BlockId) (B : CacheBlock) : Nat :=
  if B.Idle ∧ l.uncounted ≠ some b then B.size else 0

/-- Bytes of a block handed out to the program. -/
def allocatedBytes (_ : BlockId) (B : CacheBlock) : Nat := if B.allocated then B.size else 0

/-- Bytes of a block. -/
def sizeBytes (_ : BlockId) (B : CacheBlock) : Nat := B.size

/-- The phase of the protocol that the state shows for a block. -/
def phaseOf (s : Impl) (l : Limbo) (b : BlockId) : BlockPhase :=
  match s.heap b with
  | none => .absent
  | some B =>
    if B.allocated then .out
    else if B.eventCount ≠ 0 then .freeing B.eventCount.toNat
    else if l.uncounted = some b then .out
    else if l.block = some b then .freeing 0
    else .pooled

/-- The sum of the segment sizes in `driver_segments_`. -/
def segmentBytes (s : Impl) : Nat := (s.driverSegments.entries.map (fun e ↦ e.2.size)).sum

/-! ### The invariant -/

/-- Block `b` is where its flags and counters say. -/
structure PlacedAt (l : Limbo) (s : Impl) (b : Nat) : Prop where
  fresh : ∀ B, s.heap b = some B → b < s.nextBlock
  pool_iff : ∀ k, b ∈ s.pools k ↔ ∃ B, s.heap b = some B ∧ B.pool = k ∧ B.Idle ∧ l.block ≠ some b
  allocated_iff : ∀ p, s.allocatedBlocks.lookup p = some b ↔
    ∃ B, s.heap b = some B ∧ B.allocated = true ∧ B.ptr = p
  no_uses : ∀ B, s.heap b = some B → B.allocated = false → B.streamUses = []
  allocated_events : ∀ B, s.heap b = some B → B.allocated = true → B.eventCount = 0
  limbo_idle : l.block = some b → ∃ B, s.heap b = some B ∧ B.Idle
  count : ∀ B, s.heap b = some B → B.eventCount = s.queuedBlocks.count b
  queued_live : b ∈ s.queuedBlocks → ∃ B, s.heap b = some B
  lifecycle : BlockPhase.after b s.history = some (s.phaseOf l b)

/-- Every block is in its place, once, and so is every event handle. -/
structure Placed (l : Limbo) (s : Impl) : Prop where
  at_block : ∀ b, s.PlacedAt l b
  pool_nodup : ∀ k, (s.pools k).Nodup
  handles : s.eventHandles.Perm (List.range s.nextEvent)

/-- The byte counters are the sums they stand for. -/
structure Accounted (l : Limbo) (s : Impl) : Prop where
  cached : s.bytesCached + l.owed = RangeSum.total s.heap (cachedBytes l) s.nextBlock
  allocated : s.stats.bytesAllocated = RangeSum.total s.heap allocatedBytes s.nextBlock
  reserved : s.stats.bytesReserved = RangeSum.total s.heap sizeBytes s.nextBlock
  segments : s.segmentBytes = s.stats.bytesReserved
  no_underflow : s.underflow = false

/-- Layout of the segments, places of the blocks, no two free neighbours, and counters. -/
structure WellFormed (l : Limbo) (s : Impl) : Prop where
  layout : Partitioned s.extents s.regions
  segment : ∀ base r, s.driverSegments.lookup base = some r →
    r.ptr = base ∧ 0 < base ∧ base + r.size ≤ SizeT.modulus
  placed : s.Placed l
  coalesced : ∀ b B n, s.heap b = some B → B.next = some n → ¬ (s.Mergeable l b ∧ s.Mergeable l n)
  accounted : s.Accounted l

/-! ### First consequences -/

variable {s : Impl} {l : Limbo} {b : BlockId} {B : CacheBlock} {s' : Impl}

theorem deref_of (h : s.heap b = some B) : s.deref b = B := by rw [deref, h, getD_some]

theorem extents_of (h : s.heap b = some B) : s.extents b = some B.extent := by
  rw [extents, h, map_some]

theorem exists_of_extents {E : Extent (Stream × PoolKind)} (h : s.extents b = some E) :
    ∃ B, s.heap b = some B ∧ B.extent = E := by
  simpa [extents] using h

/-- The state without the fields the invariant does not read. -/
def core (s : Impl) : Impl :=
  { s with
    maxCachedBytes := 0
    allowedMemoryMaximum := 0
    peakBytesCached := 0
    registrationCounterGlobal := 0
    submitted := fun _ ↦ 0
    recorded := fun _ ↦ (0, 0)
    stats := { bytesAllocated := s.stats.bytesAllocated, bytesReserved := s.stats.bytesReserved } }

private theorem placedAt_core : s.core.PlacedAt l b ↔ s.PlacedAt l b := by
  constructor
  · intro h
    exact ⟨h.fresh, h.pool_iff, h.allocated_iff, h.no_uses, h.allocated_events, h.limbo_idle,
      h.count, h.queued_live, h.lifecycle⟩
  · intro h
    exact ⟨h.fresh, h.pool_iff, h.allocated_iff, h.no_uses, h.allocated_events, h.limbo_idle,
      h.count, h.queued_live, h.lifecycle⟩

theorem wellFormed_core : s.core.WellFormed l ↔ s.WellFormed l := by
  constructor
  · intro h
    have hp := h.placed
    have ha := h.accounted
    exact ⟨h.layout, h.segment,
      ⟨fun b ↦ placedAt_core.mp (hp.at_block b), hp.pool_nodup, hp.handles⟩, h.coalesced,
      ⟨ha.cached, ha.allocated, ha.reserved, ha.segments, ha.no_underflow⟩⟩
  · intro h
    have hp := h.placed
    have ha := h.accounted
    exact ⟨h.layout, h.segment,
      ⟨fun b ↦ placedAt_core.mpr (hp.at_block b), hp.pool_nodup, hp.handles⟩, h.coalesced,
      ⟨ha.cached, ha.allocated, ha.reserved, ha.segments, ha.no_underflow⟩⟩

section Layout

variable (hl : Partitioned s.extents s.regions)
  (hs : ∀ base r, s.driverSegments.lookup base = some r →
    r.ptr = base ∧ 0 < base ∧ base + r.size ≤ SizeT.modulus)
include hl hs

private theorem bounds_of_layout (hb : s.heap b = some B) :
    0 < B.ptr ∧ B.ptr + B.size ≤ SizeT.modulus := by
  obtain ⟨r, hr, hlo, hhi⟩ := hl.inside b B.extent (extents_of hb)
  obtain ⟨raw, hraw, rfl⟩ := map_eq_some_iff.mp hr
  have hseg := hs _ _ hraw
  simp only [extent] at hlo hhi hseg
  omega

/-- The address space holds all blocks. -/
theorem total_lt_of_layout : RangeSum.total s.heap sizeBytes s.nextBlock < SizeT.modulus := by
  have hle : total s.heap sizeBytes s.nextBlock ≤ SizeT.modulus - 1 := by
    apply Tiling.sum_length_le _ (fun b ↦ ((s.heap b).map (fun B ↦ B.ptr - 1)).getD 0)
    · intro b _
      cases hb : s.heap b with
      | none => simp [weight_none hb]
      | some B =>
        have := bounds_of_layout hl hs hb
        simp only [weight_of hb, sizeBytes, map_some, getD_some]
        omega
    · intro a _ b _ hab
      cases ha : s.heap a with
      | none => simp [weight_none ha]
      | some A =>
        cases hb : s.heap b with
        | none => simp [weight_none hb]
        | some B =>
          have hd := hl.disjoint a A.extent b B.extent (extents_of ha) (extents_of hb) hab
          have := bounds_of_layout hl hs ha
          have := bounds_of_layout hl hs hb
          simp only [weight_of ha, weight_of hb, sizeBytes, map_some, getD_some]
          simp only [extent] at hd
          omega
  have : 0 < SizeT.modulus := by decide
  omega

end Layout

namespace WellFormed

/-- Statistics, caps and the device's clock do not matter. -/
theorem congr {s' : Impl} (h : s.WellFormed l) (he : s'.core = s.core) : s'.WellFormed l := by
  rw [← wellFormed_core, he, wellFormed_core]
  exact h

theorem pos (h : s.WellFormed l) (hb : s.heap b = some B) : 0 < B.size :=
  h.layout.pos b B.extent (extents_of hb)

/-- Blocks that start at one address are the same. -/
theorem ptr_inj (h : s.WellFormed l) {a : BlockId} {A : CacheBlock} (ha : s.heap a = some A)
    (hb : s.heap b = some B) (he : A.ptr = B.ptr) : a = b :=
  h.layout.start_inj (extents_of ha) (extents_of hb) he

/-- A block lies in the address space, above `nullptr`. -/
theorem bounds (h : s.WellFormed l) (hb : s.heap b = some B) :
    0 < B.ptr ∧ B.ptr + B.size ≤ SizeT.modulus := bounds_of_layout h.layout h.segment hb

theorem reserved_lt (h : s.WellFormed l) : s.stats.bytesReserved < SizeT.modulus := by
  rw [h.accounted.reserved]
  exact total_lt_of_layout h.layout h.segment

theorem cached_le (h : s.WellFormed l) : s.bytesCached + l.owed ≤ s.stats.bytesReserved := by
  rw [h.accounted.cached, h.accounted.reserved]
  apply total_le
  intro b B _
  unfold cachedBytes sizeBytes
  split <;> omega

theorem allocated_le (h : s.WellFormed l) : s.stats.bytesAllocated ≤ s.stats.bytesReserved := by
  rw [h.accounted.allocated, h.accounted.reserved]
  apply total_le
  intro b B _
  unfold allocatedBytes sizeBytes
  split <;> omega

end WellFormed
theorem WellFormed.lt (h : s.WellFormed l) {b : Nat} (hb : s.heap b = some B) :
    b < s.nextBlock := (h.placed.at_block b).fresh B hb

theorem WellFormed.nextBlock_none (h : s.WellFormed l) : s.heap s.nextBlock = none := by
  cases hf : s.heap s.nextBlock with
  | none => rfl
  | some F => exact absurd (h.lt hf) (Nat.lt_irrefl _)

/-- The block in limbo is live and idle. -/
theorem WellFormed.idle (h : s.WellFormed l) (hl : l.block = some b) (hb : s.heap b = some B) :
    B.Idle := by
  obtain ⟨B', hB', hi⟩ := (h.placed.at_block b).limbo_idle hl
  rw [hb] at hB'
  cases hB'
  exact hi

/-- Blocks that are live or wait for events are the same up to links. -/
def KeepsBusy (s s' : Impl) : Prop :=
  ∀ c C, s.heap c = some C → ¬ C.Idle → (s'.heap c).map CacheBlock.unlinked = some C.unlinked

theorem KeepsBusy.refl (s : Impl) : s.KeepsBusy s := by
  intro c C hC _
  rw [hC, map_some]

theorem KeepsBusy.trans {s t r : Impl} (h : s.KeepsBusy t) (k : t.KeepsBusy r) : s.KeepsBusy r := by
  intro c C hC hi
  obtain ⟨X, hX, he⟩ := map_eq_some_iff.mp (h c C hC hi)
  have hXi : ¬ X.Idle := by
    intro hx
    have h₁ := congrArg allocated he
    have h₂ := congrArg eventCount he
    exact hi ⟨h₁.symm.trans hx.1, h₂.symm.trans hx.2⟩
  rw [k c X hX hXi, he]

/-- What an operation may do to live blocks and to queue entries: a live block stays, and
so does an entry, with its event and the place of its block, unless the event is `done`. -/
structure Evolves (done : Event → Prop) (s s' : Impl) : Prop where
  live : ∀ c C, s.heap c = some C → C.allocated = true →
    (s'.heap c).map CacheBlock.unlinked = some C.unlinked
  waiting : ∀ b B e, s.heap b = some B → (e, b) ∈ s.queueEntries → done e ∨
    ((e, b) ∈ s'.queueEntries ∧ s'.recorded e = s.recorded e ∧
      ∃ B', s'.heap b = some B' ∧ B'.ptr = B.ptr ∧ B'.size = B.size)
  submitted : s'.submitted = s.submitted

namespace Evolves

variable {done : Event → Prop}

theorem refl (s : Impl) : Evolves done s s :=
  ⟨fun c C hC _ ↦ by rw [hC, map_some], fun _ B _ hB he ↦ .inr ⟨he, rfl, B, hB, rfl, rfl⟩, rfl⟩

theorem trans {s t r : Impl} (h : Evolves done s t) (k : Evolves done t r) : Evolves done s r := by
  refine ⟨fun c C hC hal ↦ ?_, fun b B e hB he ↦ ?_, k.submitted.trans h.submitted⟩
  · obtain ⟨X, hX, hu⟩ := map_eq_some_iff.mp (h.live c C hC hal)
    rw [k.live c X hX ((congrArg allocated hu).trans hal), hu]
  · rcases h.waiting b B e hB he with hd | ⟨he', hr, X, hX, hp, hs⟩
    · exact .inl hd
    · rcases k.waiting b X e hX he' with hd | ⟨he'', hr', Y, hY, hp', hs'⟩
      · exact .inl hd
      · exact .inr ⟨he'', hr'.trans hr, Y, hY, hp'.trans hp, hs'.trans hs⟩

theorem mono {done' : Event → Prop} {s t : Impl} (h : Evolves done s t)
    (hd : ∀ e, done e → done' e) : Evolves done' s t :=
  ⟨h.live, fun b B e hB he ↦ (h.waiting b B e hB he).imp_left (hd e), h.submitted⟩

end Evolves

/-- The event queues, the events, the clock of the device and the table of live allocations
are the same. -/
structure SameEvents (s s' : Impl) : Prop where
  allocations : s'.allocatedBlocks = s.allocatedBlocks
  queues : s'.cudaEvents = s.cudaEvents
  recorded : s'.recorded = s.recorded
  submitted : s'.submitted = s.submitted

theorem SameEvents.trans {s t r : Impl} (h : SameEvents s t) (k : SameEvents t r) :
    SameEvents s r :=
  ⟨k.allocations.trans h.allocations, k.queues.trans h.queues, k.recorded.trans h.recorded, k.submitted.trans h.submitted⟩

/-! ### One block -/

theorem phaseOf_of (h : s.heap b = some B) : s.phaseOf l b = if B.allocated then .out
    else if B.eventCount ≠ 0 then .freeing B.eventCount.toNat
    else if l.uncounted = some b then .out
    else if l.block = some b then .freeing 0
    else .pooled := by
  rw [phaseOf, h]

namespace PlacedAt

/-- The places of a live block. -/
theorem of_some {b : Nat} (hb : s.heap b = some B) (fresh : b < s.nextBlock)
    (pool : ∀ k, b ∈ s.pools k ↔ B.pool = k ∧ B.Idle ∧ l.block ≠ some b)
    (live : ∀ p, s.allocatedBlocks.lookup p = some b ↔ B.allocated = true ∧ B.ptr = p)
    (uses : B.allocated = false → B.streamUses = [])
    (events : B.allocated = true → B.eventCount = 0) (idle : l.block = some b → B.Idle)
    (count : B.eventCount = s.queuedBlocks.count b)
    (life : BlockPhase.after b s.history = some (s.phaseOf l b)) : s.PlacedAt l b := by
  have only {X : CacheBlock} (hX : s.heap b = some X) : X = B := by
    rw [hb] at hX
    cases hX
    rfl
  exact ⟨fun _ _ ↦ fresh, fun k ↦ by simp [pool, hb], fun p ↦ by simp [live, hb],
    fun _ hX ↦ only hX ▸ uses, fun _ hX ↦ only hX ▸ events, fun hl ↦ ⟨B, hb, idle hl⟩,
    fun _ hX ↦ only hX ▸ count, fun _ ↦ ⟨B, hb⟩, life⟩

/-- A block that does not exist is nowhere. -/
theorem of_none {b : Nat} (hb : s.heap b = none) (pool : ∀ k, b ∉ s.pools k)
    (live : ∀ p, s.allocatedBlocks.lookup p ≠ some b) (limbo : l.block ≠ some b)
    (queue : b ∉ s.queuedBlocks) (life : BlockPhase.after b s.history = some .absent) :
    s.PlacedAt l b := by
  constructor
  case pool_iff => simp [pool, hb]
  case allocated_iff => simp [live, hb]
  case limbo_idle => exact fun hl ↦ absurd hl limbo
  case queued_live => exact fun hq ↦ absurd hq queue
  case lifecycle => rw [life, phaseOf, hb]
  all_goals simp [hb]

variable {b : Nat}

theorem pool (h : s.PlacedAt l b) (hb : s.heap b = some B) (k : PoolKind) :
    b ∈ s.pools k ↔ B.pool = k ∧ B.Idle ∧ l.block ≠ some b := by
  rw [h.pool_iff]
  simp [hb]

theorem live (h : s.PlacedAt l b) (hb : s.heap b = some B) (p : Nat) :
    s.allocatedBlocks.lookup p = some b ↔ B.allocated = true ∧ B.ptr = p := by
  rw [h.allocated_iff]
  simp [hb]

theorem not_queued (h : s.PlacedAt l b) (hb : s.heap b = none) : b ∉ s.queuedBlocks := by
  intro hm
  obtain ⟨B, hB⟩ := h.queued_live hm
  rw [hb] at hB
  cases hB

end PlacedAt

/-- The block of an entry waits: it is counted, and not live. -/
theorem WellFormed.waiting (h : s.WellFormed l) {e : Event} (he : (e, b) ∈ s.queueEntries)
    (hb : s.heap b = some B) : 0 < B.eventCount ∧ B.allocated = false := by
  have hm : b ∈ s.queuedBlocks := List.mem_map_of_mem he
  have hc := (h.placed.at_block b).count B hb
  have := List.count_pos_iff.mpr hm
  have hpos : 0 < B.eventCount := by omega
  refine ⟨hpos, ?_⟩
  cases hal : B.allocated with
  | false => rfl
  | true =>
    have := (h.placed.at_block b).allocated_events B hb hal
    omega

theorem WellFormed.not_idle (h : s.WellFormed l) {e : Event} (he : (e, b) ∈ s.queueEntries)
    (hb : s.heap b = some B) : ¬ B.Idle := fun hi ↦ by
  have := (h.waiting he hb).1
  rw [hi.2] at this
  exact absurd this (Int.lt_irrefl 0)

/-- A step that keeps busy blocks and the events lets everything stay. -/
theorem Evolves.of_keepsBusy {done : Event → Prop} (h : s.WellFormed l) (hk : s.KeepsBusy s')
    (hq : s'.cudaEvents = s.cudaEvents) (hr : s'.recorded = s.recorded)
    (hs : s'.submitted = s.submitted) : Evolves done s s' := by
  refine ⟨fun c C hC hal ↦ hk c C hC (fun hi ↦ by rw [hi.1] at hal; cases hal),
    fun b B e hB hm ↦ .inr ⟨?_, by rw [hr], ?_⟩, hs⟩
  · rw [queueEntries, hq]
    exact hm
  · obtain ⟨X, hX, hu⟩ := map_eq_some_iff.mp (hk b B hB (h.not_idle hm hB))
    exact ⟨X, hX, (congrArg ptr hu :), (congrArg size hu :)⟩

/-! ### Frame -/

/-- Nothing but links of block `c` changes between two states. -/
structure Unaffected (l l' : Limbo) (s s' : Impl) (c : Nat) : Prop where
  heap : (s'.heap c).map CacheBlock.unlinked = (s.heap c).map CacheBlock.unlinked
  next : s.nextBlock ≤ s'.nextBlock
  pools : ∀ k, c ∈ s'.pools k ↔ c ∈ s.pools k
  live : ∀ p, s'.allocatedBlocks.lookup p = some c ↔ s.allocatedBlocks.lookup p = some c
  count : s'.queuedBlocks.count c = s.queuedBlocks.count c
  history : BlockPhase.after c s'.history = BlockPhase.after c s.history
  before : l.block ≠ some c
  after : l'.block ≠ some c

namespace Unaffected

variable {s' : Impl} {l' : Limbo} {c : Nat}

theorem heap_cases (u : Unaffected l l' s s' c) : (s.heap c = none ∧ s'.heap c = none) ∨
    ∃ B p n, s.heap c = some B ∧ s'.heap c = some { B with prev := p, next := n } := by
  have he := u.heap
  cases hB : s.heap c with
  | none => exact .inl ⟨rfl, by simpa [hB] using he⟩
  | some B =>
    rw [hB] at he
    obtain ⟨X, hX, hu⟩ := map_eq_some_iff.mp he
    refine .inr ⟨B, X.prev, X.next, rfl, ?_⟩
    cases X
    simp_all [unlinked]

theorem placedAt (u : Unaffected l l' s s' c) (h : s.PlacedAt l c) : s'.PlacedAt l' c := by
  have hmem : c ∈ s'.queuedBlocks ↔ c ∈ s.queuedBlocks := by
    rw [← List.count_pos_iff, ← List.count_pos_iff, u.count]
  have hl := u.before
  have hl' := u.after
  rcases u.heap_cases with ⟨hB, hX⟩ | ⟨B, p, n, hB, hX⟩
  · constructor
    case pool_iff =>
      intro k
      rw [u.pools, h.pool_iff]
      simp [hB, hX]
    case allocated_iff =>
      intro p
      rw [u.live, h.allocated_iff]
      simp [hB, hX]
    case limbo_idle => exact fun hc ↦ absurd hc hl'
    case queued_live =>
      intro hm
      obtain ⟨B, hB'⟩ := h.queued_live (hmem.mp hm)
      rw [hB] at hB'
      cases hB'
    case lifecycle =>
      rw [u.history, h.lifecycle]
      simp [phaseOf, hB, hX]
    all_goals
      intro X hX'
      rw [hX] at hX'
      cases hX'
  · have ofX {X : CacheBlock} (hX' : s'.heap c = some X) : X = { B with prev := p, next := n } := by
      rw [hX] at hX'
      cases hX'
      rfl
    constructor
    case fresh => exact fun _ _ ↦ Nat.lt_of_lt_of_le (h.fresh B hB) u.next
    case pool_iff =>
      intro k
      rw [u.pools, h.pool_iff]
      simp [hB, hX, hl, hl', CacheBlock.Idle]
    case allocated_iff =>
      intro p
      rw [u.live, h.allocated_iff]
      simp [hB, hX]
    case no_uses =>
      intro X hX' hal
      cases ofX hX'
      exact h.no_uses B hB hal
    case allocated_events =>
      intro X hX' hal
      cases ofX hX'
      exact h.allocated_events B hB hal
    case limbo_idle => exact fun hc ↦ absurd hc hl'
    case count =>
      intro X hX'
      cases ofX hX'
      rw [u.count]
      exact h.count B hB
    case queued_live => exact fun _ ↦ ⟨_, hX⟩
    case lifecycle =>
      have huncounted {m : Limbo} (hm : m.block ≠ some c) : m.uncounted ≠ some c := by
        cases m <;> simp_all
      rw [u.history, h.lifecycle]
      simp [phaseOf, hB, hX, hl, hl', huncounted hl, huncounted hl']

theorem trans {r : Impl} {l'' : Limbo} (u : Unaffected l l' s s' c)
    (v : Unaffected l' l'' s' r c) : Unaffected l l'' s r c :=
  ⟨v.heap.trans u.heap, u.next.trans v.next, fun k ↦ (v.pools k).trans (u.pools k),
    fun p ↦ (v.live p).trans (u.live p), v.count.trans u.count, v.history.trans u.history,
    u.before, v.after⟩

theorem mergeable (u : Unaffected l l' s s' c) (h : s'.Mergeable l' c) : s.Mergeable l c := by
  obtain ⟨X, hX, hi, _⟩ := h
  have hl := u.before
  rcases u.heap_cases with ⟨_, hX'⟩ | ⟨B, p, n, hB, hX'⟩
  · rw [hX'] at hX
    cases hX
  · rw [hX'] at hX
    cases hX
    exact ⟨B, hB, hi, by cases l <;> simp_all⟩

private theorem core_iff : Unaffected l l' s.core s'.core c ↔ Unaffected l l' s s' c :=
  ⟨fun u ↦ ⟨u.heap, u.next, u.pools, u.live, u.count, u.history, u.before, u.after⟩,
    fun u ↦ ⟨u.heap, u.next, u.pools, u.live, u.count, u.history, u.before, u.after⟩⟩

/-- Statistics do not matter. -/
theorem congr {t t' : Impl} (u : Unaffected l l' s s' c) (hs : t.core = s.core)
    (hs' : t'.core = s'.core) : Unaffected l l' t t' c := by
  rw [← core_iff, hs, hs', core_iff]
  exact u

private theorem weight_eq (u : Unaffected l l' s s' c) {f g : Nat → CacheBlock → Nat}
    (hfg : ∀ B p n, g c { B with prev := p, next := n } = f c B) :
    RangeSum.weight s'.heap g c = RangeSum.weight s.heap f c := by
  rcases u.heap_cases with ⟨hB, hX⟩ | ⟨B, p, n, hB, hX⟩
  · rw [weight_none hB, weight_none hX]
  · rw [weight_of hB, weight_of hX, hfg]

theorem cachedBytes (u : Unaffected l l' s s' c) :
    RangeSum.weight s'.heap (cachedBytes l') c = RangeSum.weight s.heap (cachedBytes l) c := by
  have huncounted {m : Limbo} (hm : m.block ≠ some c) : m.uncounted ≠ some c := by
    cases m <;> simp_all
  apply u.weight_eq
  simp [Impl.cachedBytes, CacheBlock.Idle, huncounted u.before, huncounted u.after]

theorem allocatedBytes (u : Unaffected l l' s s' c) :
    RangeSum.weight s'.heap allocatedBytes c = RangeSum.weight s.heap allocatedBytes c :=
  u.weight_eq (fun _ _ _ ↦ rfl)

theorem sizeBytes (u : Unaffected l l' s s' c) :
    RangeSum.weight s'.heap sizeBytes c = RangeSum.weight s.heap sizeBytes c :=
  u.weight_eq (fun _ _ _ ↦ rfl)

end Unaffected

/-- A step that affects only idle blocks keeps the others. -/
theorem KeepsBusy.of_unaffected {s s' : Impl} (l l' : Limbo)
    (h : ∀ c C, s.heap c = some C → ¬ C.Idle → Unaffected l l' s s' c) : s.KeepsBusy s' := by
  intro c C hC hi
  rw [(h c C hC hi).heap, hC, map_some]

/-- All blocks but one are unaffected. -/
theorem Placed.change {l' : Limbo} (h : s.Placed l) (hu : ∀ c, c ≠ b → Unaffected l l' s s' c)
    (hb : s'.PlacedAt l' b) (hnd : ∀ k, (s'.pools k).Nodup)
    (hh : s'.eventHandles.Perm (List.range s'.nextEvent)) : s'.Placed l' := by
  refine ⟨fun c ↦ ?_, hnd, hh⟩
  by_cases hc : c = b
  · exact hc ▸ hb
  · exact (hu c hc).placedAt (h.at_block c)

/-- All blocks but two are unaffected. -/
theorem Placed.change_two {l' : Limbo} {d : BlockId} (h : s.Placed l)
    (hu : ∀ c, c ≠ b → c ≠ d → Unaffected l l' s s' c) (hb : s'.PlacedAt l' b)
    (hd : s'.PlacedAt l' d) (hnd : ∀ k, (s'.pools k).Nodup)
    (hh : s'.eventHandles.Perm (List.range s'.nextEvent)) : s'.Placed l' := by
  refine ⟨fun c ↦ ?_, hnd, hh⟩
  by_cases hc : c = b
  · exact hc ▸ hb
  · by_cases hcd : c = d
    · exact hcd ▸ hd
    · exact (hu c hc hcd).placedAt (h.at_block c)

/-- A new identity adds nothing to the totals of the old state. -/
private theorem total_next {n : Nat} (hn : n = s.nextBlock ∨
    (n = s.nextBlock + 1 ∧ s.heap s.nextBlock = none)) (f : Nat → CacheBlock → Nat) :
    RangeSum.total s.heap f n = RangeSum.total s.heap f s.nextBlock := by
  rcases hn with he | ⟨he, hnone⟩
  · rw [he]
  · rw [he, total_succ, weight_none hnone, Nat.add_zero]

/-- The counters follow the one block that changes, which may be new or go. -/
theorem Accounted.change {l' : Limbo} {b : Nat} (h : s.Accounted l)
    (hu : ∀ c, c ≠ b → Unaffected l l' s s' c) (hb : b < s'.nextBlock)
    (hn : s'.nextBlock = s.nextBlock ∨ (s'.nextBlock = s.nextBlock + 1 ∧ s.heap s.nextBlock = none))
    (hc : s'.bytesCached + l'.owed + RangeSum.weight s.heap (cachedBytes l) b = s.bytesCached + l.owed + RangeSum.weight s'.heap (cachedBytes l') b)
    (ha : s'.stats.bytesAllocated + RangeSum.weight s.heap allocatedBytes b = s.stats.bytesAllocated + RangeSum.weight s'.heap allocatedBytes b)
    (hr : s'.stats.bytesReserved + RangeSum.weight s.heap sizeBytes b = s.stats.bytesReserved + RangeSum.weight s'.heap sizeBytes b)
    (hseg : s'.segmentBytes = s'.stats.bytesReserved) (huf : s'.underflow = false) :
    s'.Accounted l' := by
  have hc' := total_off hb (fun c hc ↦ (hu c hc).cachedBytes)
  have ha' := total_off hb (fun c hc ↦ (hu c hc).allocatedBytes)
  have hr' := total_off hb (fun c hc ↦ (hu c hc).sizeBytes)
  rw [total_next hn] at hc' ha' hr'
  have := h.cached
  have := h.allocated
  have := h.reserved
  refine ⟨?_, ?_, ?_, hseg, huf⟩ <;> omega

/-- The counters follow the two blocks that change, one of which may be new. -/
theorem Accounted.change_two {l' : Limbo} {b d : Nat} (h : s.Accounted l)
    (hu : ∀ c, c ≠ b → c ≠ d → Unaffected l l' s s' c) (hbd : b ≠ d) (hb : b < s'.nextBlock)
    (hd : d < s'.nextBlock)
    (hn : s'.nextBlock = s.nextBlock ∨ (s'.nextBlock = s.nextBlock + 1 ∧ s.heap s.nextBlock = none))
    (hc : s'.bytesCached + l'.owed + (RangeSum.weight s.heap (cachedBytes l) b + RangeSum.weight s.heap (cachedBytes l) d) = s.bytesCached + l.owed + (RangeSum.weight s'.heap (cachedBytes l') b + RangeSum.weight s'.heap (cachedBytes l') d))
    (ha : s'.stats.bytesAllocated + (RangeSum.weight s.heap allocatedBytes b + RangeSum.weight s.heap allocatedBytes d) = s.stats.bytesAllocated + (RangeSum.weight s'.heap allocatedBytes b + RangeSum.weight s'.heap allocatedBytes d))
    (hr : s'.stats.bytesReserved + (RangeSum.weight s.heap sizeBytes b + RangeSum.weight s.heap sizeBytes d) = s.stats.bytesReserved + (RangeSum.weight s'.heap sizeBytes b + RangeSum.weight s'.heap sizeBytes d))
    (hseg : s'.segmentBytes = s'.stats.bytesReserved) (huf : s'.underflow = false) :
    s'.Accounted l' := by
  have hc' := total_off_two hb hd hbd (fun c h₁ h₂ ↦ (hu c h₁ h₂).cachedBytes)
  have ha' := total_off_two hb hd hbd (fun c h₁ h₂ ↦ (hu c h₁ h₂).allocatedBytes)
  have hr' := total_off_two hb hd hbd (fun c h₁ h₂ ↦ (hu c h₁ h₂).sizeBytes)
  rw [total_next hn] at hc' ha' hr'
  have := h.cached
  have := h.allocated
  have := h.reserved
  refine ⟨?_, ?_, ?_, hseg, huf⟩ <;> omega

end Impl
end Hisab.Memory
