import Hisab.Memory.DrainFrames
import Hisab.Memory.EventErrors
import Hisab.Memory.FreeRelations

/-!
# Peak statistics

`peak_bytes_allocated` is bumped when a block is handed out, `peak_bytes_reserved` when a segment
is booked and `peak_bytes_cached` when a block is freed, each before the same call may give memory
back to the driver. The high-water marks kept beside the allocator are therefore those of the
counters at the end of each step and at these moments within it. The remainder of a new segment
enters the cache without a bump of its peak.
-/

namespace Hisab.Memory
open Hisab.Base ExtentMap CachingConfig Nat Impl

/-- The three counters with a peak, or their peaks. -/
@[ext]
structure Levels where
  allocated : Nat
  reserved : Nat
  cached : Nat
  deriving DecidableEq, Repr

namespace Impl

/-- `bytes_allocated`, `bytes_reserved` and `bytes_cached` of `stats`,
`cuda_caching_allocator.cpp:742–763`. -/
def levels (s : Impl) : Levels := ⟨s.stats.bytesAllocated, s.stats.bytesReserved, s.bytesCached⟩

/-- `peak_bytes_allocated`, `peak_bytes_reserved` and `peak_bytes_cached` of `stats`. -/
def peaks (s : Impl) : Levels :=
  ⟨s.stats.peakBytesAllocated, s.stats.peakBytesReserved, s.peakBytesCached⟩

variable {s t r : Impl} {b : BlockId} {B : CacheBlock} {k : PoolKind} {d : DriverAnswers}
  {fresh : Prop} {request : SegmentRequest} {reply : Reply}

/-! ### Moments within a call -/

/-- `bytes_cached` in an `allocate`, after draining and after the wait of a flush. -/
def allocateHighs (d : DriverAnswers) (s : Impl) (size : Nat) (stream : Stream) : List Nat :=
  if size = 0 then []
  else
    match s.processEventsLocked d with
    | (.error _, s) => [s.bytesCached]
    | (.ok (), s) =>
      let request := segmentRequest size stream
      match s.getFreeBlockLocked request.pool stream request.rounded with
      | (some _, _) => [s.bytesCached]
      | (none, t) =>
        let t := { t with stats := { t.stats with cacheMisses := SizeT.add t.stats.cacheMisses 1 } }
        if t.reservedWouldExceedLocked request.allocSize then
          [s.bytesCached, (t.synchronizeAndFreeEventsLocked d).2.bytesCached]
        else [s.bytesCached]

/-- `bytes_cached` in an `allocate` that flushes because the driver is out of memory. -/
def resumeHighs (d : DriverAnswers) (s : Impl) (request : SegmentRequest) : MallocAnswer → List Nat
  | .failed err =>
    if (err ≠ .success ∧ err ≠ .memoryAllocation) ∨ request.isRetry then []
    else [(s.synchronizeAndFreeEventsLocked d).2.bytesCached]
  | _ => []

/-- `bytes_cached` in a `deallocate`, after draining and after the free. -/
def deallocateHighs (d : DriverAnswers) (s : Impl) (ptr : Nat) (hint : Stream) : List Nat :=
  if ptr = 0 then []
  else
    match s.processEventsLocked d with
    | (.error _, s) => [s.bytesCached]
    | (.ok (), s) =>
      match s.allocatedBlocks.lookup ptr with
      | none => [s.bytesCached]
      | some block =>
        if (s.deref block).allocated then
          let t := s.beginFree ptr block hint
          if (t.deref block).streamUses.isEmpty then
            [s.bytesCached, (t.freeBlockLocked block).bytesCached]
          else [s.bytesCached, (t.insertEventsLocked d block).2.bytesCached]
        else [s.bytesCached]

/-- The counters fall or stay and the peaks stay. -/
structure Falls (s t : Impl) : Prop where
  peaks : t.peaks = s.peaks
  allocated : t.stats.bytesAllocated ≤ s.stats.bytesAllocated
  reserved : t.stats.bytesReserved ≤ s.stats.bytesReserved
  cached : t.bytesCached ≤ s.bytesCached

/-- Blocks are freed: `bytes_cached` and its peak stay or grow together. -/
structure Fills (s t : Impl) : Prop where
  stats : t.stats.bytesAllocated = s.stats.bytesAllocated ∧
    t.stats.peakBytesAllocated = s.stats.peakBytesAllocated ∧
    t.stats.bytesReserved = s.stats.bytesReserved ∧
    t.stats.peakBytesReserved = s.stats.peakBytesReserved
  cached : (t.bytesCached = s.bytesCached ∧ t.peakBytesCached = s.peakBytesCached) ∨
    (s.bytesCached ≤ t.bytesCached ∧ t.peakBytesCached = max s.peakBytesCached t.bytesCached)

theorem Falls.of_same (hl : t.levels = s.levels) (hp : t.peaks = s.peaks) : Falls s t :=
  ⟨hp, le_of_eq (congrArg Levels.allocated hl), le_of_eq (congrArg Levels.reserved hl),
    le_of_eq (congrArg Levels.cached hl)⟩

theorem Falls.refl (s : Impl) : Falls s s := .of_same rfl rfl

theorem Falls.trans (h : Falls s t) (k : Falls t r) : Falls s r :=
  ⟨k.peaks.trans h.peaks, le_trans k.allocated h.allocated,
    le_trans k.reserved h.reserved, le_trans k.cached h.cached⟩

theorem Fills.of_same (hs : t.stats.bytesAllocated = s.stats.bytesAllocated ∧
    t.stats.peakBytesAllocated = s.stats.peakBytesAllocated ∧
    t.stats.bytesReserved = s.stats.bytesReserved ∧
    t.stats.peakBytesReserved = s.stats.peakBytesReserved)
    (hc : t.bytesCached = s.bytesCached ∧ t.peakBytesCached = s.peakBytesCached) : Fills s t :=
  ⟨hs, .inl hc⟩

theorem Fills.trans (h : Fills s t) (k : Fills t r) : Fills s r := by
  obtain ⟨⟨h₁, h₂, h₃, h₄⟩, hc⟩ := h
  obtain ⟨⟨k₁, k₂, k₃, k₄⟩, kc⟩ := k
  refine ⟨⟨k₁.trans h₁, k₂.trans h₂, k₃.trans h₃, k₄.trans h₄⟩, ?_⟩
  rcases hc with ⟨hc, hp⟩ | ⟨hc, hp⟩
  · rw [hc, hp] at kc
    exact kc
  · rcases kc with ⟨kc, kp⟩ | ⟨kc, kp⟩
    · exact .inr ⟨by omega, by omega⟩
    · exact .inr ⟨by omega, by omega⟩

/-- From a state whose counters are within their peaks the peaks become the largest value of the
counters at the end, at the booking of a segment and in `highs`. -/
structure Tracks (s r : Impl) (booked : Nat) (highs : List Nat) (fresh : Prop) : Prop where
  allocated : s.stats.bytesAllocated ≤ s.stats.peakBytesAllocated →
    r.stats.peakBytesAllocated = max s.stats.peakBytesAllocated r.stats.bytesAllocated
  reserved : s.stats.bytesReserved ≤ s.stats.peakBytesReserved → r.stats.peakBytesReserved = max (max s.stats.peakBytesReserved booked) r.stats.bytesReserved
  cached : ¬fresh → s.bytesCached ≤ s.peakBytesCached →
    r.peakBytesCached = max (highs.foldl max s.peakBytesCached) r.bytesCached

namespace Tracks

variable {booked : Nat} {highs : List Nat}

end Tracks

/-! ### Handing out -/

end Impl

/-! ### High-water marks of a run -/

namespace Machine

variable {m m' : Machine} {op : Operation} {reply : Reply}

/-- `bytes_reserved` when the step books a segment. -/
def booked (m : Machine) : Operation → Nat
  | .resume t _ =>
    match m.threads t with
    | .fromDriver request (.segment raw) => (m.impl.registerSegment request raw).stats.bytesReserved
    | _ => 0
  | _ => 0

/-- `bytes_cached` at the moments of the step when blocks have been freed. -/
def highs (m : Machine) : Operation → List Nat
  | .allocate _ size stream d => m.impl.allocateHighs d size stream
  | .resume t d =>
    match m.threads t with
    | .fromDriver request answer => m.impl.resumeHighs d request answer
    | _ => []
  | .deallocate ptr hint d => m.impl.deallocateHighs d ptr hint
  | .emptyCache d => [(m.impl.synchronizeAndFreeEventsLocked d).2.bytesCached]
  | _ => []

end Machine

namespace Machine

variable {m m' : Machine} {op : Operation} {reply : Reply}

end Machine

/-- The largest values of the counters at the ends of the steps since the last reset. -/
def Levels.after (k : Levels) (op : Operation) (m' : Machine) : Levels :=
  match op with
  | .resetPeakStats => m'.impl.levels
  | _ => ⟨max k.allocated m'.impl.levels.allocated, max k.reserved m'.impl.levels.reserved,
      max k.cached m'.impl.levels.cached⟩

end Hisab.Memory
