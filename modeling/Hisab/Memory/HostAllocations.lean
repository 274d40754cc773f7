import Hisab.Memory.FreeMemoryCallbacks

/-!
# Host allocations inside `allocate`

On its way `allocate` allocates host memory: for metadata, for the nodes of its containers, for
the trace. Each of these may throw `std::bad_alloc`. Here are its functions once more, with the
number of host allocations that succeed before one fails; the function ends there and leaves the
state as it is at that point. If none fails they are the functions of the model.
-/

namespace Hisab.Memory
open Hisab.Base CachingConfig

/-- Where `allocate` allocates host memory, in the order of the call. -/
inductive HostSite where
  /-- `event_pool_.push_back`, the pool's `insert` and the trace while draining. -/
  | recycle | pool | freedTrace
  /-- The same while waiting for all events. -/
  | flushRecycle | flushPool | flushFreedTrace
  /-- The trace of a segment given back. -/
  | releaseTrace
  /-- The trace of the failure. -/
  | oomTrace
  /-- `make_unique<cache_block>` before the driver call. -/
  | metadata
  /-- `driver_segments_.emplace` and the trace after it. -/
  | driverSegments | segmentTrace
  /-- `new cache_block` and the pool's `insert` in the split. -/
  | front | remainder
  /-- `allocated_blocks_.emplace` and the trace after it. -/
  | allocatedBlocks | allocTrace
  deriving DecidableEq, Repr

/-- What leaves `allocate`: an exception of the model or `std::bad_alloc` from a host allocation. -/
inductive Fault where
  | exn (e : Exn)
  | host (site : HostSite)
  deriving DecidableEq, Repr

/-- A result with the number of host allocations left, or what was thrown, with the state left
behind. -/
abbrev HostOutcome (α : Type) := Except Fault (α × Nat) × Impl

namespace Impl

/-! ### Draining -/

/-- `free_block_locked` up to the insertion into the pool. -/
def mergeNeighbours (s : Impl) (block : BlockId) : Impl :=
  let s := s.tryMergeLocked block (s.deref block).prev
  s.tryMergeLocked block (s.deref block).next

/-- `free_block_locked`; the trace comes last. -/
def hostFreeBlockLocked (poolSite traceSite : HostSite) (s : Impl) (block : BlockId) :
    Nat → HostOutcome Unit
  | 0 => (.error (.host poolSite), s.mergeNeighbours block)
  | 1 => (.error (.host traceSite), s.freeBlockLocked block)
  | k + 2 => (.ok ((), k), s.freeBlockLocked block)

/-- What follows `recycle_event_locked`. -/
def hostRetireEvent (poolSite traceSite : HostSite) (s : Impl) (event : Event) (block : BlockId)
    (k : Nat) : HostOutcome Unit :=
  let s := { s with eventPool := s.eventPool ++ [event] }
  let s := (s.modify block (fun b ↦ { b with eventCount := b.eventCount - 1 })).log (.drained block)
  if (s.deref block).eventCount = 0 then s.hostFreeBlockLocked poolSite traceSite block k
  else (.ok ((), k), s)

def hostDrainQueue (d : DriverAnswers) (done : List (Stream × EventQueue)) (stream : Stream)
    (rest : List (Stream × EventQueue)) : EventQueue → Nat → Impl → HostOutcome EventQueue
  | [], k, s => (.ok ([], k), s)
  | (event, block) :: q, k, s =>
    match d.query event with
    | .success =>
      match k with
      | 0 => (.error (.host .recycle), s)
      | k + 1 =>
        match hostRetireEvent .pool .freedTrace
          { s with cudaEvents := done ++ (stream, q) :: rest } event block k with
        | (.error f, s) => (.error f, s)
        | (.ok ((), k), s) => hostDrainQueue d done stream rest q k s
    | .notReady => (.ok ((event, block) :: q, k), s)
    | err => (.error (.exn (.runtimeError "cudaEventQuery" err)), s)

def hostProcessQueues (d : DriverAnswers) (done : List (Stream × EventQueue)) :
    List (Stream × EventQueue) → Nat → Impl → HostOutcome Unit
  | [], k, s => (.ok ((), k), s)
  | (stream, q) :: rest, k, s =>
    match hostDrainQueue d done stream rest q k s with
    | (.error f, s) => (.error f, s)
    | (.ok ([], k), s) => hostProcessQueues d done rest k { s with cudaEvents := done ++ rest }
    | (.ok (entry :: q, k), s) => hostProcessQueues d (done ++ [(stream, entry :: q)]) rest k s

/-- `process_events_locked`, `cuda_caching_allocator.cpp:973–1017`. -/
def hostProcessEventsLocked (d : DriverAnswers) (s : Impl) (k : Nat) : HostOutcome Unit :=
  match deviceGuard d.processGuard with
  | .error e => (.error (.exn e), s)
  | .ok () => hostProcessQueues d [] s.cudaEvents k s

/-! ### Flushing and trimming -/

def hostSynchronizeQueue (d : DriverAnswers) : EventQueue → Nat → Impl → HostOutcome Unit
  | [], k, s => (.ok ((), k), s)
  | (event, block) :: q, k, s =>
    match throwOnCudaError (d.synchronize event) "cudaEventSynchronize" with
    | .error e => (.error (.exn e), s)
    | .ok () =>
      match k with
      | 0 => (.error (.host .flushRecycle), s)
      | k + 1 =>
        match hostRetireEvent .flushPool .flushFreedTrace s event block k with
        | (.error f, s) => (.error f, s)
        | (.ok ((), k), s) => hostSynchronizeQueue d q k s

def hostSynchronizeQueues (d : DriverAnswers) :
    List (Stream × EventQueue) → Nat → Impl → HostOutcome Unit
  | [], k, s => (.ok ((), k), s)
  | (_, q) :: rest, k, s =>
    match hostSynchronizeQueue d q k s with
    | (.error f, s) => (.error f, s)
    | (.ok ((), k), s) => hostSynchronizeQueues d rest k { s with cudaEvents := rest }

/-- `synchronize_and_free_events_locked`, `cuda_caching_allocator.cpp:1019–1037`. -/
def hostSynchronizeAndFreeEventsLocked (d : DriverAnswers) (s : Impl) (k : Nat) :
    HostOutcome Unit :=
  let s := { s with stats := { s.stats with
    numSyncAllStreams := SizeT.add s.stats.numSyncAllStreams 1 } }
  match deviceGuard d.synchronizeGuard with
  | .error e => (.error (.exn e), s)
  | .ok () => hostSynchronizeQueues d s.cudaEvents k s

/-- `release_segment_locked` up to the trace; the block and the segment go after it. -/
def unlistSegment (s : Impl) (block : BlockId) : Impl :=
  let b := s.deref block
  let base := if b.segmentBase ≠ 0 then b.segmentBase else b.ptr
  let s := { s with
    driverSegments := s.driverSegments.erase base
    stats := { s.stats with
      driverFrees := SizeT.add s.stats.driverFrees 1
      cacheEvictions := SizeT.add s.stats.cacheEvictions 1 } }
  s.subBytesReserved b.size

/-- A block leaves its pool and its segment is given back,
`cuda_caching_allocator.cpp:1039–1063`. -/
def hostReleaseBlock (s : Impl) (pool : PoolKind) (block : BlockId) : Nat → HostOutcome Unit
  | 0 => (.error (.host .releaseTrace),
      ((s.subBytesCached (s.deref block).size).poolErase pool block).unlistSegment block)
  | k + 1 => (.ok ((), k),
      ((s.subBytesCached (s.deref block).size).poolErase pool block).releaseSegmentLocked block)

/-- The loop of `release_pool_blocks_locked`. -/
def hostReleasePool (pool : PoolKind) : List BlockId → Nat → Impl → HostOutcome Unit
  | [], k, s => (.ok ((), k), s)
  | block :: rest, k, s =>
    if (s.deref block).isSplit then hostReleasePool pool rest k s
    else
      match s.hostReleaseBlock pool block k with
      | (.error f, s) => (.error f, s)
      | (.ok ((), k), s) => hostReleasePool pool rest k s

/-- `release_cached_blocks_locked`, `cuda_caching_allocator.cpp:1083–1088`. -/
def hostReleaseCachedBlocksLocked (d : DriverAnswers) (s : Impl) (k : Nat) : HostOutcome Unit :=
  match s.hostSynchronizeAndFreeEventsLocked d k with
  | (.error f, s) => (.error f, s)
  | (.ok ((), k), s) =>
    match hostReleasePool .small (s.pools .small) k s with
    | (.error f, s) => (.error f, s)
    | (.ok ((), k), s) => hostReleasePool .large (s.pools .large) k s

/-- The loop of `trim_cache_locked`. -/
def hostTrimLoop : Nat → Nat → Impl → HostOutcome Unit
  | 0, k, s => (.ok ((), k), s)
  | n + 1, k, s =>
    if s.maxCachedBytes < s.bytesCached then
      match s.largestReleasable (s.pools .small ++ s.pools .large) with
      | none => (.ok ((), k), s)
      | some v =>
        match s.hostReleaseBlock (s.deref v).pool v k with
        | (.error f, s) => (.error f, s)
        | (.ok ((), k), s) => hostTrimLoop n k s
    else (.ok ((), k), s)

/-- `trim_cache_locked`, `cuda_caching_allocator.cpp:1090–1119`. -/
def hostTrimCacheLocked (s : Impl) (k : Nat) : HostOutcome Unit :=
  if s.maxCachedBytes = SizeT.max then (.ok ((), k), s)
  else hostTrimLoop ((s.pools .small).length + (s.pools .large).length) k s

/-! ### Handing out -/

/-- The split in `alloc_found_block_locked` up to the insertion of the remainder. -/
def splitOff (s : Impl) (remaining : BlockId) (rounded : Nat) : Impl :=
  let r := s.deref remaining
  let block := s.nextBlock
  let s := s.newBlock
    { ptr := r.ptr, size := rounded, stream := r.stream, pool := r.pool
      registrationCounter := r.registrationCounter, segmentBase := r.segmentBase
      vmBacked := r.vmBacked, prev := r.prev, next := some remaining }
  let s := s.modify? r.prev (fun p ↦ { p with next := some block })
  s.modify remaining (fun r ↦
    { r with prev := some block, ptr := r.ptr + rounded, size := SizeT.sub r.size rounded })

/-- The rest of `alloc_found_block_locked`, `cuda_caching_allocator.cpp:871–882`. -/
def hostPublishBlock (s : Impl) (block : BlockId) (origSize : Nat) : Nat → HostOutcome Nat
  | 0 => (.error (.host .allocatedBlocks),
      s.modify block (fun b ↦ { b with allocated := true, requestedSize := origSize }))
  | 1 => (.error (.host .allocTrace), s.publishBlock block origSize)
  | k + 2 =>
    let s := s.publishBlock block origSize
    (.ok ((s.deref block).ptr, k), s)

/-- `alloc_found_block_locked`, `cuda_caching_allocator.cpp:849–883`. -/
def hostAllocFoundBlockLocked (s : Impl) (block : BlockId) (rounded origSize k : Nat) :
    HostOutcome Nat :=
  if s.shouldSplit block rounded then
    match k with
    | 0 => (.error (.host .front), s)
    | 1 => (.error (.host .remainder), s.splitOff block rounded)
    | k + 2 => (s.splitBlock block rounded).hostPublishBlock s.nextBlock origSize k
  else s.hostPublishBlock block origSize k

/-- The end of `allocate`, `cuda_caching_allocator.cpp:475–478`. -/
def hostFinishAllocate (s : Impl) (block : BlockId) (rounded size k : Nat) : HostOutcome Reply :=
  match s.hostAllocFoundBlockLocked block rounded size k with
  | (.error f, s) => (.error f, s)
  | (.ok (ptr, k), s) =>
    match s.hostTrimCacheLocked k with
    | (.error f, s) => (.error f, s)
    | (.ok ((), k), s) => (.ok (.returned ptr, k), s)

/-! ### The call -/

/-- `fail_oom_locked`. -/
def hostFailOomLocked (s : Impl) : Nat → HostOutcome Reply
  | 0 => (.error (.host .oomTrace), s.failOomLocked.2)
  | _ + 1 => (.error (.exn .badAlloc), s.failOomLocked.2)

/-- `alloc_segment_unlocked` up to where it drops the lock,
`cuda_caching_allocator.cpp:796–811`. -/
def hostDropLock (s : Impl) (request : SegmentRequest) : Nat → HostOutcome Reply
  | 0 => (.error (.host .metadata), (s.dropLock request).2)
  | k + 1 => (.ok (.unlocked request, k), (s.dropLock request).2)

/-- The cache-miss branch of `allocate`, `cuda_caching_allocator.cpp:444–457`. -/
def hostMissCache (d : DriverAnswers) (s : Impl) (request : SegmentRequest) (k : Nat) :
    HostOutcome Reply :=
  let s := { s with stats := { s.stats with cacheMisses := SizeT.add s.stats.cacheMisses 1 } }
  if s.reservedWouldExceedLocked request.allocSize then
    match s.hostReleaseCachedBlocksLocked d k with
    | (.error f, s) => (.error f, s)
    | (.ok ((), k), s) =>
      if s.reservedWouldExceedLocked request.allocSize then s.hostFailOomLocked k
      else s.hostDropLock request k
  else s.hostDropLock request k

/-- `allocate` from a search of the pool, `cuda_caching_allocator.cpp:432–457`; without
`search` the pool is passed over. -/
def hostRetryCache (d : DriverAnswers) (s : Impl) (search : Bool) (size : Nat)
    (stream : Stream) (k : Nat) : HostOutcome Reply :=
  let request := segmentRequest size stream
  if search then
    match s.getFreeBlockLocked request.pool stream request.rounded with
    | (some block, s) => s.countHit.hostFinishAllocate block request.rounded size k
    | (none, s) => s.hostMissCache d request k
  else s.hostMissCache d request k

/-- `allocate`, `cuda_caching_allocator.cpp:424–457`. -/
def hostAllocate (d : DriverAnswers) (s : Impl) (size : Nat) (stream : Stream) (k : Nat) :
    HostOutcome Reply :=
  if size = 0 then (.error (.exn (.check "cuda_caching_allocator cannot allocate zero bytes")), s)
  else
    match s.hostProcessEventsLocked d k with
    | (.error f, s) => (.error f, s)
    | (.ok ((), k), s) => s.hostRetryCache d true size stream k

/-- `alloc_segment_unlocked` up to the trace; the new block is gone when it throws. -/
def bookSegment (s : Impl) (raw : RawSegment) : Impl :=
  { s with
    registrationCounterGlobal := s.registrationCounterGlobal + 1
    driverSegments :=
      if raw.ptr ∈ s.driverSegments then s.driverSegments
      else s.driverSegments.insert raw.ptr raw
    stats := { s.stats with
      driverAllocations := SizeT.add s.stats.driverAllocations 1
      bytesReserved := SizeT.add s.stats.bytesReserved raw.size } }.bumpPeakReserved

/-- `allocate` once the driver has answered, `cuda_caching_allocator.cpp:457–478` and
`812–835`. -/
def hostResumeAllocate (d : DriverAnswers) (s : Impl) (request : SegmentRequest) :
    MallocAnswer → Nat → HostOutcome Reply
  | .segment _, 0 => (.error (.host .driverSegments),
      { s with registrationCounterGlobal := s.registrationCounterGlobal + 1 })
  | .segment raw, 1 => (.error (.host .segmentTrace), s.bookSegment raw)
  | .segment raw, k + 2 =>
    (s.registerSegment request raw).hostFinishAllocate s.nextBlock request.rounded request.size k
  | .failed err, k =>
    if err ≠ .success ∧ err ≠ .memoryAllocation then
      (.error (.exn (.runtimeError "cudaMalloc" err)), s)
    else if request.isRetry then s.hostFailOomLocked k
    else
      match s.hostReleaseCachedBlocksLocked d k with
      | (.error f, s) => (.error f, s)
      | (.ok ((), k), s) => s.hostDropLock { request with isRetry := true } k
  | .guard answer, k =>
    match deviceGuard answer with
    | .error e => (.error (.exn e), s)
    | .ok () => (.ok (.unlocked request, k), s)

/-! ### Without a failure -/

/-- If no host allocation fails the outcome is that of the model. -/
def Agrees {α : Type} (h : HostOutcome α) (o : Outcome α) : Prop :=
  (∀ a k r, h = (.ok (a, k), r) → o = (.ok a, r)) ∧
    ∀ e r, h = (.error (.exn e), r) → o = (.error e, r)

/-- The same for a call. -/
def AgreesReply (h : HostOutcome Reply) (o : Reply × Impl) : Prop :=
  (∀ a k r, h = (.ok (a, k), r) → o = (a, r)) ∧ ∀ e r, h = (.error (.exn e), r) → o = (.threw e, r)

variable {s r : Impl} {d : DriverAnswers} {α : Type}

theorem agrees_ok (a : α) (k : Nat) (s : Impl) : Agrees (.ok (a, k), s) (.ok a, s) := by
  constructor
  · rintro _ _ _ ⟨⟩
    rfl
  · rintro _ _ ⟨⟩

theorem agrees_exn (e : Exn) (s : Impl) : Agrees (α := α) (.error (.exn e), s) (.error e, s) := by
  constructor
  · rintro _ _ _ ⟨⟩
  · rintro _ _ ⟨⟩
    rfl

theorem agrees_host (site : HostSite) (s : Impl) (o : Outcome α) :
    Agrees (.error (.host site), s) o := by
  constructor
  · rintro _ _ _ ⟨⟩
  · rintro _ _ ⟨⟩

theorem agreesReply_host (site : HostSite) (s : Impl) (o : Reply × Impl) :
    AgreesReply (.error (.host site), s) o := by
  constructor
  · rintro _ _ _ ⟨⟩
  · rintro _ _ ⟨⟩

theorem hostRetireEvent_agrees (poolSite traceSite : HostSite) (s : Impl) (event : Event)
    (block : BlockId) (k : Nat) :
    Agrees (s.hostRetireEvent poolSite traceSite event block k) (.ok (), s.retireEvent event block) := by
  unfold hostRetireEvent retireEvent
  dsimp only
  split
  · match k with
    | 0 | 1 => exact agrees_host ..
    | k + 2 => exact agrees_ok ..
  · exact agrees_ok ..

theorem hostDrainQueue_agrees (done : List (Stream × EventQueue)) (stream : Stream)
    (rest : List (Stream × EventQueue)) (q : EventQueue) (k : Nat) (s : Impl) :
    Agrees (hostDrainQueue d done stream rest q k s) (drainQueue d done stream rest q s) := by
  induction q generalizing k s with
  | nil => exact agrees_ok ..
  | cons entry q ih =>
    obtain ⟨event, block⟩ := entry
    unfold hostDrainQueue drainQueue
    cases d.query event with
    | success =>
      cases k with
      | zero => exact agrees_host ..
      | succ k =>
        dsimp only
        have h := hostRetireEvent_agrees .pool .freedTrace
          { s with cudaEvents := done ++ (stream, q) :: rest } event block k
        rcases hr : hostRetireEvent .pool .freedTrace
          { s with cudaEvents := done ++ (stream, q) :: rest } event block k with
            ⟨(e | site) | ⟨u, k'⟩, t⟩
        · cases h.2 e t hr
        · exact agrees_host ..
        · cases h.1 u k' t hr
          exact ih k' _
    | notReady => exact agrees_ok ..
    | memoryAllocation | other code => exact agrees_exn ..

theorem hostProcessQueues_agrees (done queues : List (Stream × EventQueue)) (k : Nat) (s : Impl) :
    Agrees (hostProcessQueues d done queues k s) (processQueues d done queues s) := by
  induction queues generalizing done k s with
  | nil => exact agrees_ok ..
  | cons queue rest ih =>
    obtain ⟨stream, q⟩ := queue
    have h := hostDrainQueue_agrees (d := d) done stream rest q k s
    unfold hostProcessQueues processQueues
    rcases hr : hostDrainQueue d done stream rest q k s with ⟨(e | site) | ⟨q', k'⟩, t⟩
    · rw [h.2 e t hr]
      exact agrees_exn ..
    · exact agrees_host ..
    · rw [h.1 q' k' t hr]
      cases q' with
      | nil | cons entry q' => exact ih ..

theorem hostProcessEventsLocked_agrees (s : Impl) (k : Nat) :
    Agrees (s.hostProcessEventsLocked d k) (s.processEventsLocked d) := by
  unfold hostProcessEventsLocked processEventsLocked
  cases deviceGuard d.processGuard with
  | error e => exact agrees_exn ..
  | ok u => exact hostProcessQueues_agrees ..

theorem hostSynchronizeQueue_agrees (q : EventQueue) (k : Nat) (s : Impl) :
    Agrees (hostSynchronizeQueue d q k s) (synchronizeQueue d q s) := by
  induction q generalizing k s with
  | nil => exact agrees_ok ..
  | cons entry q ih =>
    obtain ⟨event, block⟩ := entry
    unfold hostSynchronizeQueue synchronizeQueue
    cases throwOnCudaError (d.synchronize event) "cudaEventSynchronize" with
    | error e => exact agrees_exn ..
    | ok u =>
      cases k with
      | zero => exact agrees_host ..
      | succ k =>
        dsimp only
        have h := hostRetireEvent_agrees .flushPool .flushFreedTrace s event block k
        rcases hr : s.hostRetireEvent .flushPool .flushFreedTrace event block k with
          ⟨(e | site) | ⟨u, k'⟩, t⟩
        · cases h.2 e t hr
        · exact agrees_host ..
        · cases h.1 u k' t hr
          exact ih k' _

theorem hostSynchronizeQueues_agrees (queues : List (Stream × EventQueue)) (k : Nat) (s : Impl) :
    Agrees (hostSynchronizeQueues d queues k s) (synchronizeQueues d queues s) := by
  induction queues generalizing k s with
  | nil => exact agrees_ok ..
  | cons queue rest ih =>
    obtain ⟨stream, q⟩ := queue
    have h := hostSynchronizeQueue_agrees (d := d) q k s
    unfold hostSynchronizeQueues synchronizeQueues
    rcases hr : hostSynchronizeQueue d q k s with ⟨(e | site) | ⟨u, k'⟩, t⟩
    · rw [h.2 e t hr]
      exact agrees_exn ..
    · exact agrees_host ..
    · rw [h.1 u k' t hr]
      exact ih ..

theorem hostSynchronizeAndFreeEventsLocked_agrees (s : Impl) (k : Nat) :
    Agrees (s.hostSynchronizeAndFreeEventsLocked d k) (s.synchronizeAndFreeEventsLocked d) := by
  unfold hostSynchronizeAndFreeEventsLocked synchronizeAndFreeEventsLocked
  cases deviceGuard d.synchronizeGuard with
  | error e => exact agrees_exn ..
  | ok u => exact hostSynchronizeQueues_agrees ..

theorem hostReleasePool_agrees (pool : PoolKind) (l : List BlockId) (k : Nat) (s : Impl) :
    Agrees (hostReleasePool pool l k s)
      (.ok (), l.foldl (fun s b ↦ s.releasePoolBlock pool b) s) := by
  induction l generalizing k s with
  | nil => exact agrees_ok ..
  | cons b l ih =>
    unfold hostReleasePool
    rw [List.foldl_cons, releasePoolBlock]
    by_cases hs : (s.deref b).isSplit = true
    · rw [if_pos hs, if_pos hs]
      exact ih k s
    · rw [if_neg hs, if_neg hs]
      cases k with
      | zero => exact agrees_host ..
      | succ k => exact ih k _

theorem hostReleaseCachedBlocksLocked_agrees (s : Impl) (k : Nat) :
    Agrees (s.hostReleaseCachedBlocksLocked d k) (s.releaseCachedBlocksLocked d) := by
  have h := hostSynchronizeAndFreeEventsLocked_agrees (d := d) s k
  unfold hostReleaseCachedBlocksLocked releaseCachedBlocksLocked
  rcases hr : s.hostSynchronizeAndFreeEventsLocked d k with ⟨(e | site) | ⟨u, k'⟩, t⟩
  · rw [h.2 e t hr]
    exact agrees_exn ..
  · exact agrees_host ..
  · rw [h.1 u k' t hr]
    dsimp only
    have hsmall := hostReleasePool_agrees .small (t.pools .small) k' t
    rcases hp : hostReleasePool .small (t.pools .small) k' t with ⟨(e | site) | ⟨u', k''⟩, t'⟩
    · cases hsmall.2 e t' hp
    · exact agrees_host ..
    · cases hsmall.1 u' k'' t' hp
      exact hostReleasePool_agrees ..

theorem hostTrimLoop_agrees (n k : Nat) (s : Impl) :
    Agrees (hostTrimLoop n k s) (.ok (), trimLoop n s) := by
  induction n generalizing k s with
  | zero => exact agrees_ok ..
  | succ n ih =>
    unfold hostTrimLoop trimLoop
    by_cases hs : s.maxCachedBytes < s.bytesCached
    · rw [if_pos hs, if_pos hs]
      cases s.largestReleasable (s.pools .small ++ s.pools .large) with
      | none => exact agrees_ok ..
      | some v =>
        cases k with
        | zero => exact agrees_host ..
        | succ k => exact ih k _
    · rw [if_neg hs, if_neg hs]
      exact agrees_ok ..

theorem hostTrimCacheLocked_agrees (s : Impl) (k : Nat) :
    Agrees (s.hostTrimCacheLocked k) (.ok (), s.trimCacheLocked) := by
  unfold hostTrimCacheLocked trimCacheLocked
  split
  · exact agrees_ok ..
  · exact hostTrimLoop_agrees ..

theorem hostPublishBlock_agrees (s : Impl) (block : BlockId) (size k : Nat) :
    Agrees (s.hostPublishBlock block size k)
      (.ok ((s.publishBlock block size).deref block).ptr, s.publishBlock block size) := by
  match k with
  | 0 | 1 => exact agrees_host ..
  | k + 2 => exact agrees_ok ..

theorem hostAllocFoundBlockLocked_agrees (s : Impl) (block : BlockId) (rounded size k : Nat) :
    Agrees (s.hostAllocFoundBlockLocked block rounded size k)
      (.ok (s.allocFoundBlockLocked block rounded size).1,
        (s.allocFoundBlockLocked block rounded size).2) := by
  unfold hostAllocFoundBlockLocked allocFoundBlockLocked
  by_cases hs : s.shouldSplit block rounded = true
  · rw [if_pos hs, if_pos hs]
    match k with
    | 0 | 1 => exact agrees_host ..
    | k + 2 => exact hostPublishBlock_agrees ..
  · rw [if_neg hs, if_neg hs]
    exact hostPublishBlock_agrees ..

theorem hostFinishAllocate_agrees (s : Impl) (block : BlockId) (rounded size k : Nat) :
    AgreesReply (s.hostFinishAllocate block rounded size k)
      (s.finishAllocate block rounded size) := by
  have h := hostAllocFoundBlockLocked_agrees s block rounded size k
  unfold hostFinishAllocate finishAllocate
  rcases hr : s.hostAllocFoundBlockLocked block rounded size k with ⟨(e | site) | ⟨p, k'⟩, t⟩
  · cases h.2 e t hr
  · exact agreesReply_host ..
  · cases h.1 p k' t hr
    dsimp only
    have htrim := hostTrimCacheLocked_agrees (s.allocFoundBlockLocked block rounded size).2 k'
    rcases ht : (s.allocFoundBlockLocked block rounded size).2.hostTrimCacheLocked k' with
      ⟨(e | site) | ⟨u, k''⟩, t'⟩
    · cases htrim.2 e t' ht
    · exact agreesReply_host ..
    · cases htrim.1 u k'' t' ht
      constructor
      · rintro _ _ _ ⟨⟩
        rfl
      · rintro _ _ ⟨⟩

theorem agreesReply_ok (reply : Reply) (k : Nat) (s : Impl) :
    AgreesReply (.ok (reply, k), s) (reply, s) := by
  constructor
  · rintro _ _ _ ⟨⟩
    rfl
  · rintro _ _ ⟨⟩

theorem agreesReply_exn (e : Exn) (s : Impl) : AgreesReply (.error (.exn e), s) (.threw e, s) := by
  constructor
  · rintro _ _ _ ⟨⟩
  · rintro _ _ ⟨⟩
    rfl

theorem hostFailOomLocked_agrees (s : Impl) (k : Nat) :
    AgreesReply (s.hostFailOomLocked k) s.failOomLocked := by
  cases k with
  | zero => exact agreesReply_host ..
  | succ k => exact agreesReply_exn ..

theorem hostDropLock_agrees (s : Impl) (request : SegmentRequest) (k : Nat) :
    AgreesReply (s.hostDropLock request k) (s.dropLock request) := by
  cases k with
  | zero => exact agreesReply_host ..
  | succ k => exact agreesReply_ok ..

theorem hostMissCache_agrees (s : Impl) (request : SegmentRequest) (k : Nat) :
    AgreesReply (s.hostMissCache d request k) (s.missCache d request) := by
  unfold hostMissCache missCache
  generalize ({ s with stats := { s.stats with
    cacheMisses := SizeT.add s.stats.cacheMisses 1 } } : Impl) = t
  by_cases hexceeds : t.reservedWouldExceedLocked request.allocSize = true
  · rw [if_pos hexceeds, if_pos hexceeds]
    have h := hostReleaseCachedBlocksLocked_agrees (d := d) t k
    rcases hr : t.hostReleaseCachedBlocksLocked d k with ⟨(e | site) | ⟨u, k'⟩, t'⟩
    · rw [h.2 e t' hr]
      exact agreesReply_exn ..
    · exact agreesReply_host ..
    · rw [h.1 u k' t' hr]
      dsimp only
      split
      · exact hostFailOomLocked_agrees ..
      · exact hostDropLock_agrees ..
  · rw [if_neg hexceeds, if_neg hexceeds]
    exact hostDropLock_agrees ..

theorem hostRetryCache_agrees (s : Impl) (search : Bool) (size : Nat) (stream : Stream) (k : Nat) :
    AgreesReply (s.hostRetryCache d search size stream k) (s.retryCache d search size stream) := by
  unfold hostRetryCache retryCache
  dsimp only
  cases search with
  | false =>
    rw [if_neg Bool.false_ne_true, if_neg Bool.false_ne_true]
    exact hostMissCache_agrees ..
  | true =>
    rw [if_pos rfl]
    rcases s.getFreeBlockLocked (segmentRequest size stream).pool stream
      (segmentRequest size stream).rounded with ⟨_ | b, t⟩
    · exact hostMissCache_agrees ..
    · exact hostFinishAllocate_agrees ..

/-- `allocate` is that of the model as long as no host allocation fails. -/
theorem hostAllocate_agrees (s : Impl) (size : Nat) (stream : Stream) (k : Nat) :
    AgreesReply (s.hostAllocate d size stream k) (s.allocate d size stream) := by
  unfold hostAllocate allocate
  by_cases hsize : size = 0
  · rw [if_pos hsize, if_pos hsize]
    exact agreesReply_exn ..
  · rw [if_neg hsize, if_neg hsize]
    have h := hostProcessEventsLocked_agrees (d := d) s k
    rcases hr : s.hostProcessEventsLocked d k with ⟨(e | site) | ⟨u, k'⟩, t⟩
    · rw [h.2 e t hr]
      exact agreesReply_exn ..
    · exact agreesReply_host ..
    · rw [h.1 u k' t hr]
      exact hostRetryCache_agrees t true size stream k'

/-- And so is the rest of it once the driver has answered. -/
theorem hostResumeAllocate_agrees (s : Impl) (request : SegmentRequest) (answer : MallocAnswer)
    (k : Nat) :
    AgreesReply (s.hostResumeAllocate d request answer k) (s.resumeAllocate d request answer) := by
  cases answer with
  | segment raw =>
    match k with
    | 0 | 1 => exact agreesReply_host ..
    | k + 2 => exact hostFinishAllocate_agrees ..
  | failed err =>
    unfold hostResumeAllocate resumeAllocate
    dsimp only
    by_cases herr : err ≠ .success ∧ err ≠ .memoryAllocation
    · rw [if_pos herr, if_pos herr]
      exact agreesReply_exn ..
    · rw [if_neg herr]
      split
      · exact hostFailOomLocked_agrees ..
      · have h := hostReleaseCachedBlocksLocked_agrees (d := d) s k
        rcases hr : s.hostReleaseCachedBlocksLocked d k with ⟨(e | site) | ⟨u, k'⟩, t⟩
        · rw [h.2 e t hr]
          exact agreesReply_exn ..
        · exact agreesReply_host ..
        · rw [h.1 u k' t hr]
          exact hostDropLock_agrees ..
  | guard answer =>
    unfold hostResumeAllocate resumeAllocate
    dsimp only
    cases deviceGuard answer with
    | error e => exact agreesReply_exn ..
    | ok u => exact agreesReply_ok ..

end Impl
end Hisab.Memory
