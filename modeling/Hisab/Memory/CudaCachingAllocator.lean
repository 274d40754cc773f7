import Hisab.Memory.CacheBlock

/-!
# Operations of the CUDA/HIP caching allocator

The member functions of `cuda_caching_allocator::Impl` in
`Library/Memory/gpu/cuda_caching_allocator.cpp`, as state transformers. The CUDA runtime
answers through `DriverAnswers`; a function that can throw returns the state it leaves
behind beside its result. `allocate` stops where it drops the lock across the driver call
and is continued by `resumeAllocate`. No free-memory callback is registered, so
`trigger_free_memory_callbacks_locked` returns false without effect.
-/

namespace Hisab.Memory
open Hisab.Base CachingConfig

/-- A `cudaError_t`. -/
inductive CudaError where
  | success
  | memoryAllocation
  | notReady
  | other (code : Nat)
  deriving DecidableEq, Repr

/-- What leaves an operation by exception. -/
inductive Exn where
  | runtimeError (what : String) (result : CudaError)
  | badAlloc
  | check (message : String)
  deriving DecidableEq, Repr

/-- What `DeviceGuard` meets when it makes the allocator's device current. -/
inductive GuardAnswer where
  | entered
  | getDevice (result : CudaError)
  | setDevice (result : CudaError)
  deriving DecidableEq, Repr

/-- Answers of the CUDA runtime to one operation. The guards are those of the three
functions that construct a `DeviceGuard`; each event is queried or synchronized at most
once in an operation, and at most one event is created and recorded for a stream. -/
structure DriverAnswers where
  processGuard : GuardAnswer := .entered
  synchronizeGuard : GuardAnswer := .entered
  insertGuard : GuardAnswer := .entered
  query : Event → CudaError := fun _ ↦ .notReady
  synchronize : Event → CudaError := fun _ ↦ .success
  create : Stream → CudaError := fun _ ↦ .success
  record : Stream → CudaError := fun _ ↦ .success

/-- A result, or the exception thrown, with the state left behind. -/
abbrev Outcome (α : Type) := Except Exn α × Impl

/-- `throw_on_cuda_error`, `cuda_caching_allocator.cpp:43–51`. -/
def throwOnCudaError (result : CudaError) (what : String) : Except Exn Unit :=
  if result = .success then .ok () else .error (.runtimeError what result)

/-- The constructor `DeviceGuard(int)`, `cuda_caching_allocator.cpp:67–81`. -/
def deviceGuard : GuardAnswer → Except Exn Unit
  | .entered => .ok ()
  | .getDevice result => throwOnCudaError result "cudaGetDevice"
  | .setDevice result => throwOnCudaError result "cudaSetDevice"

namespace Impl

/-- `bump_peak_locked` on `peak_bytes_reserved`. -/
def bumpPeakReserved (s : Impl) : Impl :=
  { s with stats := { s.stats with
      peakBytesReserved := max s.stats.peakBytesReserved s.stats.bytesReserved } }

/-- `bump_peak_locked` on `peak_bytes_allocated`. -/
def bumpPeakAllocated (s : Impl) : Impl :=
  { s with stats := { s.stats with
      peakBytesAllocated := max s.stats.peakBytesAllocated s.stats.bytesAllocated } }

/-- `reserved_would_exceed_locked`, `cuda_caching_allocator.cpp:629–633`. -/
def reservedWouldExceedLocked (s : Impl) (allocSize : Nat) : Bool :=
  decide (s.allowedMemoryMaximum < SizeT.add s.stats.bytesReserved allocSize)

/-- `get_free_block_locked`, `cuda_caching_allocator.cpp:780–794`. -/
def getFreeBlockLocked (s : Impl) (pool : PoolKind) (stream : Stream) (size : Nat) :
    Option BlockId × Impl :=
  let key : CacheBlock := { ptr := 0, size, stream, pool }
  match OrderedSet.lowerBound (fun b ↦ cacheBlockComparator (s.deref b) key) (s.pools pool) with
  | none => (none, s)
  | some b =>
    if (s.deref b).stream ≠ stream then (none, s)
    else
      let s := { s with pools := Function.update s.pools pool ((s.pools pool).erase b) }
      (some b, (s.subBytesCached (s.deref b).size).log (.handedOut b))

/-- `should_split`, `cuda_caching_allocator.cpp:837–847`. -/
def shouldSplit (s : Impl) (b : BlockId) (size : Nat) : Bool :=
  let remaining := SizeT.sub (s.deref b).size size
  match (s.deref b).pool with
  | .small => decide (kMinBlockSize ≤ remaining)
  | .large => decide (kSmallSize < remaining)

/-- The split in `alloc_found_block_locked`, `cuda_caching_allocator.cpp:851–869`: the low
`rounded` bytes become a new block, the remainder goes back to its pool. -/
def splitBlock (s : Impl) (remaining : BlockId) (rounded : Nat) : Impl :=
  let r := s.deref remaining
  let block := s.nextBlock
  let s := s.newBlock
    { ptr := r.ptr, size := rounded, stream := r.stream, pool := r.pool
      registrationCounter := r.registrationCounter, segmentBase := r.segmentBase
      vmBacked := r.vmBacked, prev := r.prev, next := some remaining }
  let s := s.modify? r.prev (fun p ↦ { p with next := some block })
  let s := s.modify remaining (fun r ↦
    { r with prev := some block, ptr := r.ptr + rounded, size := SizeT.sub r.size rounded })
  let s := (s.poolInsert r.pool remaining).log (.remainder remaining)
  s.addBytesCached (s.deref remaining).size

/-- The rest of `alloc_found_block_locked`, `cuda_caching_allocator.cpp:871–882`. -/
def publishBlock (s : Impl) (block : BlockId) (origSize : Nat) : Impl :=
  let s := s.modify block (fun b ↦ { b with allocated := true, requestedSize := origSize })
  let b := s.deref block
  { s with
    allocatedBlocks :=
      if b.ptr ∈ s.allocatedBlocks then s.allocatedBlocks
      else s.allocatedBlocks.insert b.ptr block
    stats := { s.stats with
      successfulAllocations := SizeT.add s.stats.successfulAllocations 1
      bytesAllocated := SizeT.add s.stats.bytesAllocated b.size } }.bumpPeakAllocated

/-- `alloc_found_block_locked`, `cuda_caching_allocator.cpp:849–883`. -/
def allocFoundBlockLocked (s : Impl) (block : BlockId) (rounded origSize : Nat) : Nat × Impl :=
  if s.shouldSplit block rounded then
    let front := s.nextBlock
    let s := (s.splitBlock block rounded).publishBlock front origSize
    ((s.deref front).ptr, s)
  else
    let s := s.publishBlock block origSize
    ((s.deref block).ptr, s)

/-- `try_merge_locked`, `cuda_caching_allocator.cpp:900–926`. -/
def tryMergeLocked (s : Impl) (dst : BlockId) (src? : Option BlockId) : Impl :=
  match src? with
  | none => s
  | some src =>
    let b := s.deref src
    if b.allocated || decide (0 < b.eventCount) || !b.streamUses.isEmpty then s
    else
      let s :=
        if (s.deref dst).prev = some src then
          (s.modify dst (fun d ↦ { d with ptr := b.ptr, prev := b.prev })).modify? b.prev
            (fun p ↦ { p with next := some dst })
        else
          (s.modify dst (fun d ↦ { d with next := b.next })).modify? b.next
            (fun n ↦ { n with prev := some dst })
      let s := s.modify dst (fun d ↦ { d with size := SizeT.add d.size b.size })
      let s := s.poolErase (s.deref dst).pool src
      (s.deleteBlock src).log (.merged dst src)

/-- `free_block_locked`, `cuda_caching_allocator.cpp:885–898`. -/
def freeBlockLocked (s : Impl) (block : BlockId) : Impl :=
  let freedSize := (s.deref block).size
  let s := s.tryMergeLocked block (s.deref block).prev
  let s := s.tryMergeLocked block (s.deref block).next
  let s := (s.poolInsert (s.deref block).pool block).log (.pooled block)
  let s := s.addBytesCached freedSize
  { s with peakBytesCached := max s.peakBytesCached s.bytesCached }

/-- `release_segment_locked`, `cuda_caching_allocator.cpp:1039–1063`. The segment is given
back to the driver last; nothing here depends on which `raw_segment` that is. -/
def releaseSegmentLocked (s : Impl) (block : BlockId) : Impl :=
  let b := s.deref block
  let base := if b.segmentBase ≠ 0 then b.segmentBase else b.ptr
  let s := { s with
    driverSegments := s.driverSegments.erase base
    stats := { s.stats with
      driverFrees := SizeT.add s.stats.driverFrees 1
      cacheEvictions := SizeT.add s.stats.cacheEvictions 1 } }
  ((s.subBytesReserved b.size).deleteBlock block).log (.released block)

/-- One iteration of `release_pool_blocks_locked`. -/
def releasePoolBlock (s : Impl) (pool : PoolKind) (block : BlockId) : Impl :=
  if (s.deref block).isSplit then s
  else ((s.subBytesCached (s.deref block).size).poolErase pool block).releaseSegmentLocked block

/-- `release_pool_blocks_locked`, `cuda_caching_allocator.cpp:1065–1081`. The iterator moves
on before its block is erased, so the blocks visited are those present at the start. -/
def releasePoolBlocksLocked (s : Impl) (pool : PoolKind) : Impl :=
  (s.pools pool).foldl (fun s b ↦ s.releasePoolBlock pool b) s

/-- The largest block of `l` that is not split, the first one among equals. -/
def largestReleasable (s : Impl) (l : List BlockId) : Option BlockId :=
  l.foldl (fun victim b ↦
    if (s.deref b).isSplit then victim
    else match victim with
      | none => some b
      | some v => if (s.deref v).size < (s.deref b).size then some b else victim) none

/-- The loop of `trim_cache_locked`; each iteration takes one block out of the pools. -/
def trimLoop : Nat → Impl → Impl
  | 0, s => s
  | n + 1, s =>
    if s.maxCachedBytes < s.bytesCached then
      match s.largestReleasable (s.pools .small ++ s.pools .large) with
      | none => s
      | some v =>
        trimLoop n (((s.subBytesCached (s.deref v).size).poolErase (s.deref v).pool
          v).releaseSegmentLocked v)
    else s

/-- `trim_cache_locked`, `cuda_caching_allocator.cpp:1090–1119`. -/
def trimCacheLocked (s : Impl) : Impl :=
  if s.maxCachedBytes = SizeT.max then s
  else trimLoop ((s.pools .small).length + (s.pools .large).length) s

/-! ### Event queues -/

/-- `cuda_events_[stream].emplace_back(event, block)`. -/
def emplaceEvent (stream : Stream) (entry : Event × BlockId) :
    List (Stream × EventQueue) → List (Stream × EventQueue)
  | [] => [(stream, [entry])]
  | (st, q) :: rest =>
    if st = stream then (st, q ++ [entry]) :: rest
    else (st, q) :: emplaceEvent stream entry rest

/-- `acquire_event_locked`, `cuda_caching_allocator.cpp:957–969`, for the event of `stream`. -/
def acquireEventLocked (d : DriverAnswers) (s : Impl) (stream : Stream) : Outcome Event :=
  match s.eventPool.getLast? with
  | some event => (.ok event, { s with eventPool := s.eventPool.dropLast })
  | none =>
    match throwOnCudaError (d.create stream) "cudaEventCreateWithFlags" with
    | .error e => (.error e, s)
    | .ok () => (.ok s.nextEvent, { s with nextEvent := s.nextEvent + 1 })

/-- One iteration of the loop in `insert_events_locked`. -/
def insertEvent (d : DriverAnswers) (s : Impl) (block : BlockId) (stream : Stream) : Outcome Unit :=
  match s.acquireEventLocked d stream with
  | (.error e, s) => (.error e, s)
  | (.ok event, s) =>
    match throwOnCudaError (d.record stream) "cudaEventRecord" with
    | .error e => (.error e, s)
    | .ok () =>
      let s := { s with
        recorded := Function.update s.recorded event (stream, s.submitted stream)
        cudaEvents := emplaceEvent stream (event, block) s.cudaEvents }
      (.ok (), (s.modify block (fun b ↦ { b with eventCount := b.eventCount + 1 })).log
        (.queued block))

def insertEventsLoop (d : DriverAnswers) (block : BlockId) : List Stream → Impl → Outcome Unit
  | [], s => (.ok (), s)
  | stream :: rest, s =>
    match s.insertEvent d block stream with
    | (.error e, s) => (.error e, s)
    | (.ok (), s) => insertEventsLoop d block rest s

/-- `insert_events_locked`, `cuda_caching_allocator.cpp:928–955`. -/
def insertEventsLocked (d : DriverAnswers) (s : Impl) (block : BlockId) : Outcome Unit :=
  match deviceGuard d.insertGuard with
  | .error e => (.error e, s)
  | .ok () =>
    let streams := (s.deref block).streamUses
    let s := s.modify block (fun b ↦ { b with streamUses := [] })
    match insertEventsLoop d block streams s with
    | (.ok (), s) => (.ok (), s)
    | (.error e, s) =>
      -- The handler: with nothing recorded the block goes back to its pool at once.
      if (s.deref block).eventCount = 0 then (.error e, s.freeBlockLocked block)
      else (.error e, s)

/-- `recycle_event_locked`, then the block's count, and the block itself after its last
event. -/
def retireEvent (s : Impl) (event : Event) (block : BlockId) : Impl :=
  let s := { s with eventPool := s.eventPool ++ [event] }
  let s := (s.modify block (fun b ↦ { b with eventCount := b.eventCount - 1 })).log (.drained block)
  if (s.deref block).eventCount = 0 then s.freeBlockLocked block else s

/-- The inner loop of `process_events_locked` on the queue of `stream`; `done` and `rest`
are the queues around it, and the state always holds what is left of the queue. -/
def drainQueue (d : DriverAnswers) (done : List (Stream × EventQueue)) (stream : Stream)
    (rest : List (Stream × EventQueue)) : EventQueue → Impl → Outcome EventQueue
  | [], s => (.ok [], s)
  | (event, block) :: q, s =>
    match d.query event with
    | .success =>
      drainQueue d done stream rest q
        ({ s with cudaEvents := done ++ (stream, q) :: rest }.retireEvent event block)
    | .notReady => (.ok ((event, block) :: q), s)
    | err => (.error (.runtimeError "cudaEventQuery" err), s)

/-- The outer loop of `process_events_locked`; an emptied queue is erased from the map. -/
def processQueues (d : DriverAnswers) (done : List (Stream × EventQueue)) :
    List (Stream × EventQueue) → Impl → Outcome Unit
  | [], s => (.ok (), s)
  | (stream, q) :: rest, s =>
    match drainQueue d done stream rest q s with
    | (.error e, s) => (.error e, s)
    | (.ok [], s) => processQueues d done rest { s with cudaEvents := done ++ rest }
    | (.ok (entry :: q), s) => processQueues d (done ++ [(stream, entry :: q)]) rest s

/-- `process_events_locked`, `cuda_caching_allocator.cpp:973–1017`. -/
def processEventsLocked (d : DriverAnswers) (s : Impl) : Outcome Unit :=
  match deviceGuard d.processGuard with
  | .error e => (.error e, s)
  | .ok () => processQueues d [] s.cudaEvents s

/-- The inner loop of `synchronize_and_free_events_locked`: the entries stay in the queue
until the whole queue is erased. -/
def synchronizeQueue (d : DriverAnswers) : EventQueue → Impl → Outcome Unit
  | [], s => (.ok (), s)
  | (event, block) :: q, s =>
    match throwOnCudaError (d.synchronize event) "cudaEventSynchronize" with
    | .error e => (.error e, s)
    | .ok () => synchronizeQueue d q (s.retireEvent event block)

def synchronizeQueues (d : DriverAnswers) : List (Stream × EventQueue) → Impl → Outcome Unit
  | [], s => (.ok (), s)
  | (_, q) :: rest, s =>
    match synchronizeQueue d q s with
    | (.error e, s) => (.error e, s)
    | (.ok (), s) => synchronizeQueues d rest { s with cudaEvents := rest }

/-- `synchronize_and_free_events_locked`, `cuda_caching_allocator.cpp:1019–1037`. -/
def synchronizeAndFreeEventsLocked (d : DriverAnswers) (s : Impl) : Outcome Unit :=
  let s := { s with stats := { s.stats with
    numSyncAllStreams := SizeT.add s.stats.numSyncAllStreams 1 } }
  match deviceGuard d.synchronizeGuard with
  | .error e => (.error e, s)
  | .ok () => synchronizeQueues d s.cudaEvents s

/-- `release_cached_blocks_locked`, `cuda_caching_allocator.cpp:1083–1088`. -/
def releaseCachedBlocksLocked (d : DriverAnswers) (s : Impl) : Outcome Unit :=
  match s.synchronizeAndFreeEventsLocked d with
  | (.error e, s) => (.error e, s)
  | (.ok (), s) => (.ok (), (s.releasePoolBlocksLocked .small).releasePoolBlocksLocked .large)

end Impl
end Hisab.Memory
