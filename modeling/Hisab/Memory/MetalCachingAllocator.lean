import Hisab.Memory.CudaAllocatorMachine

/-!
# The Metal caching allocator

The member functions of `metal_caching_allocator::Impl` in
`Library/Memory/gpu/metal/metal_caching_allocator.mm`, as state transformers. The answer of
`make_heap_buffer` is a parameter, so `allocate` stops where it asks for a segment and is
continued by `resumeAllocate`; `heaps_` only decides which heap backs a buffer and is left
out. There are no streams, no events and no table of segments. `Reply`, `SegmentRequest`
and the counters are those of the CUDA allocator.
-/

namespace Hisab.Memory
open Hisab.Base CachingConfig Function

/-- An `MTLBuffer`; messages to `nil` answer zero. -/
structure MetalBuffer where
  contents : Nat := 0
  length : Nat := 0
  deriving DecidableEq, Repr, Inhabited

/-- `cache_block`, `metal_caching_allocator.mm:72–100`. -/
structure MetalBlock where
  ptr : Nat
  size : Nat
  requestedSize : Nat := 0
  stream : Stream
  pool : PoolKind
  buffer : MetalBuffer
  allocated : Bool := false
  prev : Option BlockId := none
  next : Option BlockId := none
  registrationCounter : Int := -1
  deriving DecidableEq, Repr

instance : Inhabited MetalBlock :=
  ⟨{ ptr := 0, size := 0, stream := 0, pool := .small, buffer := {} }⟩

namespace MetalBlock

/-- `cache_block::is_split`. -/
def isSplit (b : MetalBlock) : Bool := b.prev.isSome || b.next.isSome

/-- `cache_block_comparator`, `metal_caching_allocator.mm:102–120`. -/
def comparator (a b : MetalBlock) : Bool :=
  if a.stream ≠ b.stream then decide (a.stream < b.stream)
  else if a.size ≠ b.size then decide (a.size < b.size)
  else if a.registrationCounter ≠ b.registrationCounter then
    decide (a.registrationCounter < b.registrationCounter)
  else decide (a.ptr < b.ptr)

end MetalBlock

/-- The allocator's members and the heap of its blocks; the ghost history is that of the
CUDA allocator. -/
structure MetalImpl where
  maxCachedBytes : Nat := SizeT.max
  allowedMemoryMaximum : Nat := SizeT.max
  bytesCached : Nat := 0
  peakBytesCached : Nat := 0
  pools : PoolKind → List BlockId := fun _ ↦ []
  allocatedBlocks : AList (fun _ : Nat ↦ BlockId) := ∅
  registrationCounterGlobal : Int := 0
  stats : UnifiedCacheStats := {}
  heap : BlockId → Option MetalBlock := fun _ ↦ none
  nextBlock : Nat := 0
  history : List BlockAction := []

namespace MetalImpl

/-! ### Memory and containers -/

def deref (s : MetalImpl) (b : BlockId) : MetalBlock := (s.heap b).getD default

def modify (s : MetalImpl) (b : BlockId) (f : MetalBlock → MetalBlock) : MetalImpl :=
  { s with heap := update s.heap b ((s.heap b).map f) }

def modify? (s : MetalImpl) (b : Option BlockId) (f : MetalBlock → MetalBlock) : MetalImpl :=
  match b with
  | none => s
  | some b => s.modify b f

def newBlock (s : MetalImpl) (b : MetalBlock) : MetalImpl :=
  { s with
    heap := update s.heap s.nextBlock (some b)
    nextBlock := s.nextBlock + 1
    history := .created s.nextBlock :: s.history }

def deleteBlock (s : MetalImpl) (b : BlockId) : MetalImpl := { s with heap := update s.heap b none }

def log (s : MetalImpl) (a : BlockAction) : MetalImpl := { s with history := a :: s.history }

def blockLt (s : MetalImpl) (a b : BlockId) : Bool := (s.deref a).comparator (s.deref b)

def poolInsert (s : MetalImpl) (pool : PoolKind) (b : BlockId) : MetalImpl :=
  { s with pools := update s.pools pool (OrderedSet.insert s.blockLt b (s.pools pool)) }

def poolErase (s : MetalImpl) (pool : PoolKind) (b : BlockId) : MetalImpl :=
  { s with pools := update s.pools pool (OrderedSet.erase s.blockLt b (s.pools pool)) }

def addBytesCached (s : MetalImpl) (n : Nat) : MetalImpl :=
  { s with bytesCached := SizeT.add s.bytesCached n }

def subBytesCached (s : MetalImpl) (n : Nat) : MetalImpl :=
  { s with bytesCached := SizeT.sub s.bytesCached n }

/-! ### Blocks -/

/-- `reserved_would_exceed_locked`. -/
def reservedWouldExceedLocked (s : MetalImpl) (allocSize : Nat) : Bool :=
  decide (s.allowedMemoryMaximum < SizeT.add s.stats.bytesReserved allocSize)

/-- `get_free_block_locked`, `metal_caching_allocator.mm:503–515`. -/
def getFreeBlockLocked (s : MetalImpl) (pool : PoolKind) (stream : Stream) (size : Nat) :
    Option BlockId × MetalImpl :=
  let key : MetalBlock := { ptr := 0, size, stream, pool, buffer := {} }
  match OrderedSet.lowerBound (fun b ↦ (s.deref b).comparator key) (s.pools pool) with
  | none => (none, s)
  | some b =>
    if (s.deref b).stream ≠ stream then (none, s)
    else
      let s := { s with pools := update s.pools pool ((s.pools pool).erase b) }
      (some b, (s.subBytesCached (s.deref b).size).log (.handedOut b))

/-- `should_split`, `metal_caching_allocator.mm:599–607`. -/
def shouldSplit (s : MetalImpl) (b : BlockId) (size : Nat) : Bool :=
  let remaining := SizeT.sub (s.deref b).size size
  match (s.deref b).pool with
  | .small => decide (kMinBlockSize ≤ remaining)
  | .large => decide (kSmallSize < remaining)

/-- The split in `alloc_found_block_locked`, `metal_caching_allocator.mm:611–629`. -/
def splitBlock (s : MetalImpl) (remaining : BlockId) (rounded : Nat) : MetalImpl :=
  let r := s.deref remaining
  let block := s.nextBlock
  let s := s.newBlock
    { ptr := r.ptr, size := rounded, stream := r.stream, pool := r.pool, buffer := r.buffer
      registrationCounter := r.registrationCounter, prev := r.prev, next := some remaining }
  let s := s.modify? r.prev (fun p ↦ { p with next := some block })
  let s := s.modify remaining (fun r ↦
    { r with prev := some block, ptr := r.ptr + rounded, size := SizeT.sub r.size rounded })
  let s := (s.poolInsert r.pool remaining).log (.remainder remaining)
  s.addBytesCached (s.deref remaining).size

/-- `bump_peak_locked` on `peak_bytes_allocated`. -/
def bumpPeakAllocated (s : MetalImpl) : MetalImpl :=
  { s with stats := { s.stats with
      peakBytesAllocated := max s.stats.peakBytesAllocated s.stats.bytesAllocated } }

/-- `bump_peak_locked` on `peak_bytes_reserved`. -/
def bumpPeakReserved (s : MetalImpl) : MetalImpl :=
  { s with stats := { s.stats with
      peakBytesReserved := max s.stats.peakBytesReserved s.stats.bytesReserved } }

/-- The rest of `alloc_found_block_locked`, `metal_caching_allocator.mm:631–641`. -/
def publishBlock (s : MetalImpl) (block : BlockId) (origSize : Nat) : MetalImpl :=
  let s := s.modify block (fun b ↦ { b with allocated := true, requestedSize := origSize })
  let b := s.deref block
  { s with
    allocatedBlocks :=
      if b.ptr ∈ s.allocatedBlocks then s.allocatedBlocks
      else s.allocatedBlocks.insert b.ptr block
    stats := { s.stats with
      successfulAllocations := SizeT.add s.stats.successfulAllocations 1
      bytesAllocated := SizeT.add s.stats.bytesAllocated b.size } }.bumpPeakAllocated

/-- `alloc_found_block_locked`, `metal_caching_allocator.mm:609–642`. -/
def allocFoundBlockLocked (s : MetalImpl) (block : BlockId) (rounded origSize : Nat) :
    Nat × MetalImpl :=
  if s.shouldSplit block rounded then
    let front := s.nextBlock
    let s := (s.splitBlock block rounded).publishBlock front origSize
    ((s.deref front).ptr, s)
  else
    let s := s.publishBlock block origSize
    ((s.deref block).ptr, s)

/-- `try_merge_locked`, `metal_caching_allocator.mm:656–682`. -/
def tryMergeLocked (s : MetalImpl) (dst : BlockId) (src? : Option BlockId) : MetalImpl :=
  match src? with
  | none => s
  | some src =>
    let b := s.deref src
    if b.allocated then s
    else
      let s :=
        if (s.deref dst).prev = some src then
          (s.modify dst (fun d ↦ { d with ptr := b.ptr, prev := b.prev })).modify? b.prev
            (fun p ↦ { p with next := some dst })
        else
          (s.modify dst (fun d ↦ { d with next := b.next })).modify? b.next
            (fun n ↦ { n with prev := some dst })
      let s := s.modify dst (fun d ↦ { d with size := SizeT.add d.size b.size })
      let s := s.poolErase (s.deref dst).pool src
      (s.deleteBlock src).log (.merged dst src)

/-- `free_block_locked`, `metal_caching_allocator.mm:644–654`. -/
def freeBlockLocked (s : MetalImpl) (block : BlockId) : MetalImpl :=
  let freedSize := (s.deref block).size
  let s := s.tryMergeLocked block (s.deref block).prev
  let s := s.tryMergeLocked block (s.deref block).next
  let s := (s.poolInsert (s.deref block).pool block).log (.pooled block)
  let s := s.addBytesCached freedSize
  { s with peakBytesCached := max s.peakBytesCached s.bytesCached }

/-- `release_segment_locked`, `metal_caching_allocator.mm:684–693`; the last reference to
the buffer goes with the block. -/
def releaseSegmentLocked (s : MetalImpl) (block : BlockId) : MetalImpl :=
  let s := { s with stats := { s.stats with
    driverFrees := SizeT.add s.stats.driverFrees 1
    cacheEvictions := SizeT.add s.stats.cacheEvictions 1
    bytesReserved := SizeT.sub s.stats.bytesReserved (s.deref block).size } }
  (s.deleteBlock block).log (.released block)

/-- One iteration of `release_pool_blocks_locked`. -/
def releasePoolBlock (s : MetalImpl) (pool : PoolKind) (block : BlockId) : MetalImpl :=
  if (s.deref block).isSplit then s
  else ((s.subBytesCached (s.deref block).size).poolErase pool block).releaseSegmentLocked block

/-- `release_pool_blocks_locked`, `metal_caching_allocator.mm:695–709`. -/
def releasePoolBlocksLocked (s : MetalImpl) (pool : PoolKind) : MetalImpl :=
  (s.pools pool).foldl (fun s b ↦ s.releasePoolBlock pool b) s

/-- `release_cached_blocks_locked`, `metal_caching_allocator.mm:711–715`. -/
def releaseCachedBlocksLocked (s : MetalImpl) : MetalImpl :=
  (s.releasePoolBlocksLocked .small).releasePoolBlocksLocked .large

/-- The largest block of `l` that is not split, the first one among equals. -/
def largestReleasable (s : MetalImpl) (l : List BlockId) : Option BlockId :=
  l.foldl (fun victim b ↦
    if (s.deref b).isSplit then victim
    else match victim with
      | none => some b
      | some v => if (s.deref v).size < (s.deref b).size then some b else victim) none

/-- The loop of `trim_cache_locked`; each iteration takes one block out of the pools. -/
def trimLoop : Nat → MetalImpl → MetalImpl
  | 0, s => s
  | n + 1, s =>
    if s.maxCachedBytes < s.bytesCached then
      match s.largestReleasable (s.pools .small ++ s.pools .large) with
      | none => s
      | some v =>
        trimLoop n (((s.subBytesCached (s.deref v).size).poolErase (s.deref v).pool
          v).releaseSegmentLocked v)
    else s

/-- `trim_cache_locked`, `metal_caching_allocator.mm:717–744`. -/
def trimCacheLocked (s : MetalImpl) : MetalImpl :=
  if s.maxCachedBytes = SizeT.max then s
  else trimLoop ((s.pools .small).length + (s.pools .large).length) s

/-! ### Public operations -/

/-- `alloc_segment_locked` up to the call of `make_heap_buffer`,
`metal_caching_allocator.mm:563–581`. -/
def beginSegment (s : MetalImpl) (request : SegmentRequest) : Reply × MetalImpl :=
  (.unlocked request, if request.isRetry then
      { s with stats := { s.stats with
          numAllocRetries := SizeT.add s.stats.numAllocRetries 1 } }
    else s)

/-- `alloc_segment_locked` with the buffer, `metal_caching_allocator.mm:587–596`; the new
block is `s.nextBlock`. -/
def registerSegment (s : MetalImpl) (request : SegmentRequest) (buffer : MetalBuffer) : MetalImpl :=
  let counter := s.registrationCounterGlobal + 1
  let s := s.newBlock
    { ptr := buffer.contents, size := request.allocSize, stream := request.stream
      pool := request.pool, buffer, registrationCounter := counter }
  { s with
    registrationCounterGlobal := counter
    stats := { s.stats with
      driverAllocations := SizeT.add s.stats.driverAllocations 1
      bytesReserved := SizeT.add s.stats.bytesReserved request.allocSize } }.bumpPeakReserved

/-- `fail_oom_locked`. -/
def failOomLocked (s : MetalImpl) : Reply × MetalImpl :=
  (.threw .badAlloc, { s with stats := { s.stats with numOoms := SizeT.add s.stats.numOoms 1 } })

/-- The end of `allocate`, `metal_caching_allocator.mm:196–198`. -/
def finishAllocate (s : MetalImpl) (block : BlockId) (rounded size : Nat) : Reply × MetalImpl :=
  let r := s.allocFoundBlockLocked block rounded size
  (.returned r.1, r.2.trimCacheLocked)

/-- The cache-miss branch of `allocate` up to the first segment it asks for,
`metal_caching_allocator.mm:175–184`. -/
def missCache (s : MetalImpl) (request : SegmentRequest) : Reply × MetalImpl :=
  let s := { s with stats := { s.stats with cacheMisses := SizeT.add s.stats.cacheMisses 1 } }
  if s.reservedWouldExceedLocked request.allocSize then
    let s := s.releaseCachedBlocksLocked
    if s.reservedWouldExceedLocked request.allocSize then s.failOomLocked
    else s.beginSegment request
  else s.beginSegment request

/-- What `allocate` asks of `alloc_segment_locked`; the pool is that of the default stream. -/
def segmentRequest (size : Nat) : SegmentRequest :=
  let rounded := roundRequestSize size
  { size, rounded, stream := 0
    pool := if rounded ≤ kSmallSize then .small else .large
    allocSize := segmentSizeFor rounded
    isRetry := false }

/-- `allocate`, `metal_caching_allocator.mm:152–184`, until it returns, throws or asks for a
segment. -/
def allocate (s : MetalImpl) (size : Nat) : Reply × MetalImpl :=
  if size = 0 then (.threw (.check "metal_caching_allocator cannot allocate zero bytes"), s)
  else
    let request := segmentRequest size
    match s.getFreeBlockLocked request.pool request.stream request.rounded with
    | (some block, s) =>
      { s with stats := { s.stats with
          cacheHits := SizeT.add s.stats.cacheHits 1 } }.finishAllocate
        block request.rounded size
    | (none, s) => s.missCache request

/-- `allocate` once `make_heap_buffer` has answered, `metal_caching_allocator.mm:184–198`;
`none` is `nil`. -/
def resumeAllocate (s : MetalImpl) (request : SegmentRequest) :
    Option MetalBuffer → Reply × MetalImpl
  | some buffer =>
    (s.registerSegment request buffer).finishAllocate s.nextBlock request.rounded request.size
  | none =>
    if request.isRetry then s.failOomLocked
    else s.releaseCachedBlocksLocked.beginSegment { request with isRetry := true }

/-- `deallocate` from where the block has been found, `metal_caching_allocator.mm:218–228`. -/
def deallocateBlock (s : MetalImpl) (ptr : Nat) (block : BlockId) : Reply × MetalImpl :=
  let s := { s with allocatedBlocks := s.allocatedBlocks.erase ptr }
  let s := (s.modify block (fun b ↦ { b with allocated := false })).log (.freed block)
  let s := { s with stats := { s.stats with
    successfulFrees := SizeT.add s.stats.successfulFrees 1
    bytesAllocated := SizeT.sub s.stats.bytesAllocated (s.deref block).size } }
  (.done, (s.freeBlockLocked block).trimCacheLocked)

/-- `deallocate`, `metal_caching_allocator.mm:201–229`. -/
def deallocate (s : MetalImpl) (ptr : Nat) : Reply × MetalImpl :=
  if ptr = 0 then (.done, s)
  else
    match s.allocatedBlocks.lookup ptr with
    | none => (.threw (.check "metal_caching_allocator does not own the provided pointer"), s)
    | some block =>
      if (s.deref block).allocated then s.deallocateBlock ptr block
      else (.threw (.check "metal_caching_allocator detected a double free"), s)

/-- `empty_cache`. -/
def emptyCache (s : MetalImpl) : Reply × MetalImpl := (.done, s.releaseCachedBlocksLocked)

/-- `set_max_cached_bytes`. -/
def setMaxCachedBytes (s : MetalImpl) (bytes : Nat) : MetalImpl :=
  { s with maxCachedBytes := bytes }.trimCacheLocked

/-- `reset_peak_stats`, `metal_caching_allocator.mm:289–298`. -/
def resetPeakStats (s : MetalImpl) : MetalImpl :=
  { s with
    peakBytesCached := s.bytesCached
    stats := { s.stats with
      peakBytesCached := s.bytesCached
      peakBytesAllocated := s.stats.bytesAllocated
      peakBytesReserved := s.stats.bytesReserved } }

end MetalImpl
end Hisab.Memory
