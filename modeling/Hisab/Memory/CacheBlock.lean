import Hisab.Base.KeyedList
import Hisab.Base.MachineIntegers
import Mathlib.Data.List.AList

/-!
# State of the CUDA/HIP caching allocator

Data members of `cuda_caching_allocator::Impl` in
`Library/Memory/gpu/cuda_caching_allocator.cpp`, together with the C++ heap its raw
`cache_block*` pointers lead into and the event handles of the CUDA runtime. Two ghost
fields, read by no operation, record whether an unsigned subtraction wrapped and what has
happened to each block. The history ring is disabled unless asked for, changes nothing
else and is left out. A device address is a `Nat`; `0` is `nullptr`.
-/

namespace Hisab.Memory
open Hisab.Base Function Nat

/-- A `cudaStream_t`; `0` is `nullptr`, the default stream. -/
abbrev Stream := Nat
/-- A `cudaEvent_t`. -/
abbrev Event := Nat
/-- Identity of a `cache_block` object. -/
abbrev BlockId := Nat

/-- A `block_pool*`: `small_blocks_` or `large_blocks_`. -/
inductive PoolKind where
  | small
  | large
  deriving DecidableEq, Repr

/-- `raw_segment`, `cuda_caching_allocator.cpp:143–153`. -/
structure RawSegment where
  ptr : Nat
  size : Nat
  vm : Bool := false
  deriving DecidableEq, Repr, Inhabited

/-- `cache_block`, `cuda_caching_allocator.cpp:339–365`. -/
structure CacheBlock where
  ptr : Nat
  size : Nat
  requestedSize : Nat := 0
  stream : Stream
  pool : PoolKind
  allocated : Bool := false
  prev : Option BlockId := none
  next : Option BlockId := none
  eventCount : Int := 0
  streamUses : List Stream := []
  segmentBase : Nat := ptr
  vmBacked : Bool := false
  registrationCounter : Int := -1
  deriving DecidableEq, Repr

instance : Inhabited CacheBlock := ⟨{ ptr := 0, size := 0, stream := 0, pool := .small }⟩

/-- `cache_block::is_split`. -/
def CacheBlock.isSplit (b : CacheBlock) : Bool := b.prev.isSome || b.next.isSome

/-- `cache_block_comparator`, `cuda_caching_allocator.cpp:367–385`. -/
def cacheBlockComparator (a b : CacheBlock) : Bool :=
  if a.stream ≠ b.stream then decide (a.stream < b.stream)
  else if a.size ≠ b.size then decide (a.size < b.size)
  else if a.registrationCounter ≠ b.registrationCounter then
    decide (a.registrationCounter < b.registrationCounter)
  else decide (a.ptr < b.ptr)

theorem cacheBlockComparator_irrefl (a : CacheBlock) : cacheBlockComparator a a = false := by
  simp [cacheBlockComparator]

/-- Blocks the comparator does not separate start at the same address. -/
theorem ptr_eq_of_equiv {a b : CacheBlock} (hab : cacheBlockComparator a b = false)
    (hba : cacheBlockComparator b a = false) : a.ptr = b.ptr := by
  unfold cacheBlockComparator at hab hba
  grind

/-- `std::set<cudaStream_t>::insert`. -/
def insertStream (stream : Stream) (streams : List Stream) : List Stream :=
  OrderedSet.insert (fun a b ↦ decide (a < b)) stream streams

theorem mem_insertStream {st stream : Stream} {streams : List Stream} :
    st ∈ insertStream stream streams ↔ st = stream ∨ st ∈ streams := by
  refine OrderedSet.mem_insert (fun c hc ↦ ?_)
  simp only [OrderedSet.equiv, Bool.and_eq_true, Bool.not_eq_true', decide_eq_false_iff_not] at hc
  exact le_antisymm (not_lt.mp hc.1) (not_lt.mp hc.2)

/-- Counters of `unified_cache_stats` that the operations update; all are `size_t`. -/
structure UnifiedCacheStats where
  cacheHits : Nat := 0
  cacheMisses : Nat := 0
  driverAllocations : Nat := 0
  driverFrees : Nat := 0
  cacheEvictions : Nat := 0
  peakBytesCached : Nat := 0
  successfulAllocations : Nat := 0
  successfulFrees : Nat := 0
  bytesAllocated : Nat := 0
  peakBytesAllocated : Nat := 0
  bytesReserved : Nat := 0
  peakBytesReserved : Nat := 0
  numAllocRetries : Nat := 0
  numOoms : Nat := 0
  numSyncAllStreams : Nat := 0
  deriving DecidableEq, Repr

/-- What can happen to a block between its creation and its deletion. -/
inductive BlockAction where
  | created (b : BlockId)
  | handedOut (b : BlockId)
  | freed (b : BlockId)
  | queued (b : BlockId)
  | drained (b : BlockId)
  | merged (dst src : BlockId)
  | pooled (b : BlockId)
  | remainder (b : BlockId)
  | released (b : BlockId)
  deriving DecidableEq, Repr

/-- One queue of `cuda_events_`: the events recorded on a stream, oldest first. -/
abbrev EventQueue := List (Event × BlockId)

/-- The allocator's members, the heap of `cache_block` objects and the runtime's events.
`cuda_events_` is an `unordered_map`; its list is one of the orders iteration may take. -/
structure Impl where
  maxCachedBytes : Nat := SizeT.max
  allowedMemoryMaximum : Nat := SizeT.max
  bytesCached : Nat := 0
  peakBytesCached : Nat := 0
  pools : PoolKind → List BlockId := fun _ ↦ []
  allocatedBlocks : AList (fun _ : Nat ↦ BlockId) := ∅
  cudaEvents : List (Stream × EventQueue) := []
  eventPool : List Event := []
  driverSegments : AList (fun _ : Nat ↦ RawSegment) := ∅
  registrationCounterGlobal : Int := 0
  stats : UnifiedCacheStats := {}
  /-- Live `cache_block` objects. -/
  heap : BlockId → Option CacheBlock := fun _ ↦ none
  /-- Identity of the next object `new cache_block` returns. -/
  nextBlock : Nat := 0
  /-- The next handle `cudaEventCreateWithFlags` returns. -/
  nextEvent : Nat := 0
  /-- Work submitted so far to each stream by the program. -/
  submitted : Stream → Nat := fun _ ↦ 0
  /-- Stream and amount of its work that each event was last recorded behind. -/
  recorded : Event → Stream × Nat := fun _ ↦ (0, 0)
  /-- Ghost: some `size_t` subtraction of a byte counter wrapped. -/
  underflow : Bool := false
  /-- Ghost: what happened to the blocks, latest first. -/
  history : List BlockAction := []

namespace Impl

/-- `*b`. Every pointer the operations follow leads to a live object in reachable states. -/
def deref (s : Impl) (b : BlockId) : CacheBlock := (s.heap b).getD default

/-- Assign to fields of `*b`. -/
def modify (s : Impl) (b : BlockId) (f : CacheBlock → CacheBlock) : Impl :=
  { s with heap := update s.heap b ((s.heap b).map f) }

/-- Assign through a pointer that may be null. -/
def modify? (s : Impl) (b : Option BlockId) (f : CacheBlock → CacheBlock) : Impl :=
  match b with
  | none => s
  | some b => s.modify b f

/-- `new cache_block`; its identity is `s.nextBlock`. -/
def newBlock (s : Impl) (b : CacheBlock) : Impl :=
  { s with
    heap := update s.heap s.nextBlock (some b)
    nextBlock := s.nextBlock + 1
    history := .created s.nextBlock :: s.history }

/-- `delete b`. -/
def deleteBlock (s : Impl) (b : BlockId) : Impl := { s with heap := update s.heap b none }

/-- Ghost history entry. -/
def log (s : Impl) (a : BlockAction) : Impl := { s with history := a :: s.history }

/-- The order of the pool sets. -/
def blockLt (s : Impl) (a b : BlockId) : Bool := cacheBlockComparator (s.deref a) (s.deref b)

/-- `pool.blocks.insert(b)`. -/
def poolInsert (s : Impl) (pool : PoolKind) (b : BlockId) : Impl :=
  { s with pools := update s.pools pool (OrderedSet.insert s.blockLt b (s.pools pool)) }

/-- `pool.blocks.erase(b)` by key. -/
def poolErase (s : Impl) (pool : PoolKind) (b : BlockId) : Impl :=
  { s with pools := update s.pools pool (OrderedSet.erase s.blockLt b (s.pools pool)) }

/-- `bytes_cached_ += n`. -/
def addBytesCached (s : Impl) (n : Nat) : Impl :=
  { s with bytesCached := SizeT.add s.bytesCached n }

/-- `bytes_cached_ -= n`. -/
def subBytesCached (s : Impl) (n : Nat) : Impl :=
  { s with
    bytesCached := SizeT.sub s.bytesCached n
    underflow := s.underflow || decide (s.bytesCached < n) }

/-- `stats_.bytes_allocated -= n`. -/
def subBytesAllocated (s : Impl) (n : Nat) : Impl :=
  { s with
    stats := { s.stats with bytesAllocated := SizeT.sub s.stats.bytesAllocated n }
    underflow := s.underflow || decide (s.stats.bytesAllocated < n) }

/-- `stats_.bytes_reserved -= n`. -/
def subBytesReserved (s : Impl) (n : Nat) : Impl :=
  { s with
    stats := { s.stats with bytesReserved := SizeT.sub s.stats.bytesReserved n }
    underflow := s.underflow || decide (s.stats.bytesReserved < n) }

end Impl
end Hisab.Memory

/-!
## Size classes of the caching allocators

`Library/Memory/gpu/caching_allocator_config.h`. Requests are rounded to 512-byte
multiples; the segment asked from the driver depends on the rounded size. The arithmetic
is that of `size_t`, so both roundings wrap near its upper end.
-/

namespace Hisab.Memory.CachingConfig
open Hisab.Base

def kMinBlockSize : Nat := 512
/-- 1 MiB. -/
def kSmallSize : Nat := 1048576
/-- 2 MiB. -/
def kSmallBuffer : Nat := 2097152
/-- 10 MiB. -/
def kMinLargeAlloc : Nat := 10485760
/-- 20 MiB. -/
def kLargeBuffer : Nat := 20971520
/-- 2 MiB. -/
def kRoundLarge : Nat := 2097152

/-- `round_request_size`, `caching_allocator_config.h:41–48`. -/
def roundRequestSize (size : Nat) : Nat :=
  if size < kMinBlockSize then kMinBlockSize
  else SizeT.mul kMinBlockSize (SizeT.sub (SizeT.add size kMinBlockSize) 1 / kMinBlockSize)

/-- `segment_size_for`, `caching_allocator_config.h:50–61`. -/
def segmentSizeFor (size : Nat) : Nat :=
  if size ≤ kSmallSize then kSmallBuffer
  else if size < kMinLargeAlloc then kLargeBuffer
  else SizeT.mul kRoundLarge (SizeT.sub (SizeT.add size kRoundLarge) 1 / kRoundLarge)

/-- Neither rounding of the request leaves the `size_t` range. -/
def RoundingFits (size : Nat) : Prop :=
  size + kMinBlockSize < SizeT.modulus ∧ roundRequestSize size + kRoundLarge < SizeT.modulus

instance (size : Nat) : Decidable (RoundingFits size) := inferInstanceAs (Decidable (_ ∧ _))

private theorem roundUp_bounds {n k : Nat} (hk : 0 < k) :
    n ≤ k * ((n + k - 1) / k) ∧ k * ((n + k - 1) / k) < n + k := by
  have hd := Nat.div_add_mod (n + k - 1) k
  have hm := Nat.mod_lt (n + k - 1) hk
  omega

/-- A rounding in range is the mathematical one. -/
private theorem roundUp_eq {n k : Nat} (hk : 0 < k) (h : n + k ≤ SizeT.modulus) :
    SizeT.mul k (SizeT.sub (SizeT.add n k) 1 / k) = k * ((n + k - 1) / k) := by
  have hd := Nat.mul_div_le (n + k - 1) k
  have hsub : SizeT.sub (SizeT.add n k) 1 = n + k - 1 := by
    rcases lt_or_eq_of_le h with hlt | heq
    · rw [SizeT.add_eq hlt, SizeT.sub_eq (by omega) hlt]
    · -- the sum wraps to zero, and the subtraction wraps back
      rw [SizeT.add, heq]
      rfl
  rw [hsub, SizeT.mul_eq (by omega)]

variable {size : Nat}

theorem le_roundRequestSize (h : size + kMinBlockSize ≤ SizeT.modulus) :
    size ≤ roundRequestSize size := by
  unfold roundRequestSize
  split
  · omega
  · rw [roundUp_eq (by decide) h]
    exact (roundUp_bounds (by decide)).1

theorem kMinBlockSize_le_roundRequestSize (h : size + kMinBlockSize ≤ SizeT.modulus) :
    kMinBlockSize ≤ roundRequestSize size := by
  by_cases hs : size < kMinBlockSize
  · simp [roundRequestSize, hs]
  · have := le_roundRequestSize h
    omega

/-- The segment asked from the driver holds the rounded request. -/
theorem le_segmentSizeFor (h : size + kRoundLarge ≤ SizeT.modulus) :
    size ≤ segmentSizeFor size := by
  unfold segmentSizeFor
  split
  · next hs => exact le_trans hs (by decide)
  · split
    · next hl => exact le_trans (le_of_lt hl) (by decide)
    · rw [roundUp_eq (by decide) h]
      exact (roundUp_bounds (by decide)).1

theorem RoundingFits.le_round (h : RoundingFits size) :
    size ≤ roundRequestSize size := le_roundRequestSize (le_of_lt h.1)

theorem RoundingFits.round_pos (h : RoundingFits size) : 0 < roundRequestSize size :=
  lt_of_lt_of_le (by decide) (kMinBlockSize_le_roundRequestSize (le_of_lt h.1))

theorem RoundingFits.le_segment (h : RoundingFits size) :
    roundRequestSize size ≤ segmentSizeFor (roundRequestSize size) :=
  le_segmentSizeFor (le_of_lt h.2)

end Hisab.Memory.CachingConfig
