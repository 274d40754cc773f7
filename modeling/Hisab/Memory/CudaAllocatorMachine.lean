import Hisab.Memory.CudaCachingAllocator
import Hisab.Base.TransitionSystem

/-!
# The CUDA/HIP caching allocator as a transition system

The public operations of `cuda_caching_allocator::Impl`, each an atomic step because it
holds `mutex_` throughout, except `allocate`, which drops the lock across the driver call:
there it is three steps, and steps of other threads may come between them.
-/

namespace Hisab.Memory
open Hisab.Base CachingConfig Function

/-- What `allocate` keeps in its frame across the driver call. -/
structure SegmentRequest where
  size : Nat
  rounded : Nat
  stream : Stream
  pool : PoolKind
  allocSize : Nat
  isRetry : Bool
  deriving DecidableEq, Repr

/-- Outcome of `malloc_segment`; its own `DeviceGuard` may throw. -/
inductive MallocAnswer where
  | segment (raw : RawSegment)
  | failed (err : CudaError)
  | guard (answer : GuardAnswer)
  deriving DecidableEq, Repr

/-- What a call has done when a step of it ends. -/
inductive Reply where
  | returned (ptr : Nat)
  | unlocked (request : SegmentRequest)
  | threw (e : Exn)
  | done
  deriving DecidableEq, Repr

namespace Impl

/-- `alloc_segment_unlocked` up to where it drops the lock,
`cuda_caching_allocator.cpp:796–811`. -/
def dropLock (s : Impl) (request : SegmentRequest) : Reply × Impl :=
  (.unlocked request, if request.isRetry then
      { s with stats := { s.stats with
          numAllocRetries := SizeT.add s.stats.numAllocRetries 1 } }
    else s)

/-- `alloc_segment_unlocked` after a successful driver call,
`cuda_caching_allocator.cpp:822–834`; the new block is `s.nextBlock`. -/
def registerSegment (s : Impl) (request : SegmentRequest) (raw : RawSegment) : Impl :=
  let counter := s.registrationCounterGlobal + 1
  let s := s.newBlock
    { ptr := raw.ptr, size := raw.size, stream := request.stream, pool := request.pool
      segmentBase := raw.ptr, vmBacked := raw.vm, registrationCounter := counter }
  { s with
    registrationCounterGlobal := counter
    driverSegments :=
      if raw.ptr ∈ s.driverSegments then s.driverSegments
      else s.driverSegments.insert raw.ptr raw
    stats := { s.stats with
      driverAllocations := SizeT.add s.stats.driverAllocations 1
      bytesReserved := SizeT.add s.stats.bytesReserved raw.size } }.bumpPeakReserved

/-- `fail_oom_locked`. -/
def failOomLocked (s : Impl) : Reply × Impl :=
  (.threw .badAlloc, { s with stats := { s.stats with numOoms := SizeT.add s.stats.numOoms 1 } })

/-- The end of `allocate`, `cuda_caching_allocator.cpp:475–478`. -/
def finishAllocate (s : Impl) (block : BlockId) (rounded size : Nat) : Reply × Impl :=
  let r := s.allocFoundBlockLocked block rounded size
  (.returned r.1, r.2.trimCacheLocked)

/-- The cache-miss branch of `allocate` up to the driver call,
`cuda_caching_allocator.cpp:444–457`. -/
def missCache (d : DriverAnswers) (s : Impl) (request : SegmentRequest) : Reply × Impl :=
  let s := { s with stats := { s.stats with cacheMisses := SizeT.add s.stats.cacheMisses 1 } }
  if s.reservedWouldExceedLocked request.allocSize then
    match s.releaseCachedBlocksLocked d with
    | (.error e, s) => (.threw e, s)
    | (.ok (), s) =>
      if s.reservedWouldExceedLocked request.allocSize then s.failOomLocked
      else s.dropLock request
  else s.dropLock request

/-- The request `allocate` makes of the driver when the cache has no block. -/
def segmentRequest (size : Nat) (stream : Stream) : SegmentRequest :=
  let rounded := roundRequestSize size
  { size, rounded, stream
    pool := if rounded ≤ kSmallSize then .small else .large
    allocSize := segmentSizeFor rounded
    isRetry := false }

/-- `allocate`, `cuda_caching_allocator.cpp:424–457`, until it returns, throws or drops the
lock. -/
def allocate (d : DriverAnswers) (s : Impl) (size : Nat) (stream : Stream) : Reply × Impl :=
  if size = 0 then (.threw (.check "cuda_caching_allocator cannot allocate zero bytes"), s)
  else
    match s.processEventsLocked d with
    | (.error e, s) => (.threw e, s)
    | (.ok (), s) =>
      let request := segmentRequest size stream
      match s.getFreeBlockLocked request.pool stream request.rounded with
      | (some block, s) =>
        { s with stats := { s.stats with
            cacheHits := SizeT.add s.stats.cacheHits 1 } }.finishAllocate
          block request.rounded size
      | (none, s) => s.missCache d request

/-- `allocate` once the driver has answered, `cuda_caching_allocator.cpp:457–478` and
`812–835`. The lock is taken again except when the guard of `malloc_segment` threw. -/
def resumeAllocate (d : DriverAnswers) (s : Impl) (request : SegmentRequest) :
    MallocAnswer → Reply × Impl
  | .segment raw =>
    (s.registerSegment request raw).finishAllocate s.nextBlock request.rounded request.size
  | .failed err =>
    if err ≠ .success ∧ err ≠ .memoryAllocation then (.threw (.runtimeError "cudaMalloc" err), s)
    else if request.isRetry then s.failOomLocked
    else
      match s.releaseCachedBlocksLocked d with
      | (.error e, s) => (.threw e, s)
      | (.ok (), s) => s.dropLock { request with isRetry := true }
  | .guard answer =>
    match deviceGuard answer with
    | .error e => (.threw e, s)
    | .ok () => (.unlocked request, s)

/-- `deallocate` from where the block has been found, `cuda_caching_allocator.cpp:496–525`. -/
def deallocateBlock (d : DriverAnswers) (s : Impl) (ptr : Nat) (block : BlockId)
    (hint : Stream) : Reply × Impl :=
  let s := { s with allocatedBlocks := s.allocatedBlocks.erase ptr }
  let s := (s.modify block (fun b ↦ { b with allocated := false })).log (.freed block)
  let s := { s with stats := { s.stats with
    successfulFrees := SizeT.add s.stats.successfulFrees 1 } }
  let s := s.subBytesAllocated (s.deref block).size
  let s :=
    if hint ≠ 0 ∧ hint ≠ (s.deref block).stream then
      s.modify block (fun b ↦ { b with streamUses := insertStream hint b.streamUses })
    else s
  if (s.deref block).streamUses.isEmpty then (.done, (s.freeBlockLocked block).trimCacheLocked)
  else
    match s.insertEventsLocked d block with
    | (.error e, s) => (.threw e, s)
    | (.ok (), s) => (.done, s.trimCacheLocked)

/-- `deallocate`, `cuda_caching_allocator.cpp:481–526`. -/
def deallocate (d : DriverAnswers) (s : Impl) (ptr : Nat) (hint : Stream) : Reply × Impl :=
  if ptr = 0 then (.done, s)
  else
    match s.processEventsLocked d with
    | (.error e, s) => (.threw e, s)
    | (.ok (), s) =>
      match s.allocatedBlocks.lookup ptr with
      | none => (.threw (.check "cuda_caching_allocator does not own the provided pointer"), s)
      | some block =>
        if (s.deref block).allocated then s.deallocateBlock d ptr block hint
        else (.threw (.check "cuda_caching_allocator detected a double free"), s)

/-- `record_stream`, `cuda_caching_allocator.cpp:540–560`. -/
def recordStream (s : Impl) (ptr : Nat) (stream : Stream) : Reply × Impl :=
  if ptr = 0 ∨ stream = 0 then (.done, s)
  else
    match s.allocatedBlocks.lookup ptr with
    | none =>
      (.threw (.check ("cuda_caching_allocator::record_stream on a pointer that is " ++
        "not a live allocation")), s)
    | some block =>
      if stream = (s.deref block).stream then (.done, s)
      else
        (.done, s.modify block (fun b ↦ { b with streamUses := insertStream stream b.streamUses }))

/-- `empty_cache`. -/
def emptyCache (d : DriverAnswers) (s : Impl) : Reply × Impl :=
  match s.releaseCachedBlocksLocked d with
  | (.error e, s) => (.threw e, s)
  | (.ok (), s) => (.done, s)

/-- `set_max_cached_bytes`. -/
def setMaxCachedBytes (s : Impl) (bytes : Nat) : Impl :=
  { s with maxCachedBytes := bytes }.trimCacheLocked

/-- `set_memory_fraction`; `allowed` is the cap its floating-point product yields. -/
def setMemoryFraction (s : Impl) (allowed : Nat) : Impl :=
  { s with allowedMemoryMaximum := allowed }

/-- `reset_peak_stats`, `cuda_caching_allocator.cpp:600–609`. -/
def resetPeakStats (s : Impl) : Impl :=
  { s with
    peakBytesCached := s.bytesCached
    stats := { s.stats with
      peakBytesCached := s.bytesCached
      peakBytesAllocated := s.stats.bytesAllocated
      peakBytesReserved := s.stats.bytesReserved } }

end Impl

/-- A thread that may call `allocate`. -/
abbrev ThreadId := Nat

/-- Where a thread's `allocate` is while the lock is dropped. -/
inductive ThreadState where
  | idle
  | inDriver (request : SegmentRequest)
  | fromDriver (request : SegmentRequest) (answer : MallocAnswer)
  deriving DecidableEq, Repr

/-- The allocator and the threads that are inside `alloc_segment_unlocked`. -/
structure Machine where
  impl : Impl := {}
  threads : ThreadId → ThreadState := fun _ ↦ .idle

/-- One atomic step of some thread, of the program using the streams, or a change of the
iteration order of `cuda_events_`. -/
inductive Operation where
  | allocate (t : ThreadId) (size : Nat) (stream : Stream) (d : DriverAnswers)
  | mallocSegment (t : ThreadId) (answer : MallocAnswer)
  | resume (t : ThreadId) (d : DriverAnswers)
  | deallocate (ptr : Nat) (hint : Stream) (d : DriverAnswers)
  | recordStream (ptr : Nat) (stream : Stream)
  | emptyCache (d : DriverAnswers)
  | setMaxCachedBytes (bytes : Nat)
  | setMemoryFraction (allowed : Nat)
  | resetPeakStats
  | submit (stream : Stream)
  | rehash (queues : List (Stream × EventQueue))

namespace Machine

/-- The thread's `allocate` has ended or waits for the driver. -/
def settle (m : Machine) (t : ThreadId) (r : Reply × Impl) : Reply × Machine :=
  (r.1,
    { impl := r.2
      threads := update m.threads t (match r.1 with
        | .unlocked request => .inDriver request
        | _ => .idle) })

/-- Effect of an operation; `none` if the thread is not where the operation starts. -/
def run (m : Machine) : Operation → Option (Reply × Machine)
  | .allocate t size stream d =>
    match m.threads t with
    | .idle => some (m.settle t (m.impl.allocate d size stream))
    | _ => none
  | .mallocSegment t answer =>
    match m.threads t with
    | .inDriver request =>
      some (.done, { m with
        threads := update m.threads t (.fromDriver request answer) })
    | _ => none
  | .resume t d =>
    match m.threads t with
    | .fromDriver request answer => some (m.settle t (m.impl.resumeAllocate d request answer))
    | _ => none
  | .deallocate ptr hint d =>
    let r := m.impl.deallocate d ptr hint
    some (r.1, { m with impl := r.2 })
  | .recordStream ptr stream =>
    let r := m.impl.recordStream ptr stream
    some (r.1, { m with impl := r.2 })
  | .emptyCache d =>
    let r := m.impl.emptyCache d
    some (r.1, { m with impl := r.2 })
  | .setMaxCachedBytes bytes => some (.done, { m with impl := m.impl.setMaxCachedBytes bytes })
  | .setMemoryFraction allowed => some (.done, { m with impl := m.impl.setMemoryFraction allowed })
  | .resetPeakStats => some (.done, { m with impl := m.impl.resetPeakStats })
  | .submit stream =>
    some (.done, { m with impl := { m.impl with
      submitted := update m.impl.submitted stream (m.impl.submitted stream + 1) } })
  | .rehash queues => some (.done, { m with impl := { m.impl with cudaEvents := queues } })

variable {m m' : Machine} {reply : Reply} {t : ThreadId} {d : DriverAnswers}

/-! ### What an operation does -/

theorem run_allocate {size : Nat} {stream : Stream}
    (hr : m.run (.allocate t size stream d) = some (reply, m')) : m.threads t = .idle ∧
      ∃ r, m.impl.allocate d size stream = (reply, r) ∧ m' = (m.settle t (reply, r)).2 := by
  unfold run at hr
  dsimp only at hr
  split at hr
  next ht =>
    cases hr
    exact ⟨ht, _, rfl, rfl⟩
  · cases hr

theorem run_mallocSegment {answer : MallocAnswer}
    (hr : m.run (.mallocSegment t answer) = some (reply, m')) :
    ∃ request, m.threads t = .inDriver request ∧ reply = .done ∧
      m' = { m with threads := update m.threads t (.fromDriver request answer) } := by
  unfold run at hr
  dsimp only at hr
  split at hr
  next request ht =>
    cases hr
    exact ⟨request, ht, rfl, rfl⟩
  · cases hr

theorem run_resume (hr : m.run (.resume t d) = some (reply, m')) :
    ∃ request answer r, m.threads t = .fromDriver request answer ∧
      m.impl.resumeAllocate d request answer = (reply, r) ∧ m' = (m.settle t (reply, r)).2 := by
  unfold run at hr
  dsimp only at hr
  split at hr
  next request answer ht =>
    cases hr
    exact ⟨request, answer, _, ht, rfl, rfl⟩
  · cases hr

theorem run_deallocate {ptr : Nat} {hint : Stream}
    (hr : m.run (.deallocate ptr hint d) = some (reply, m')) :
    ∃ r, m.impl.deallocate d ptr hint = (reply, r) ∧ m' = { m with impl := r } := by
  cases hr
  exact ⟨_, rfl, rfl⟩

theorem run_emptyCache (hr : m.run (.emptyCache d) = some (reply, m')) :
    ∃ result r, m.impl.releaseCachedBlocksLocked d = (result, r) ∧ m' = { m with impl := r } ∧
      ∀ x, result = .error x → reply = .threw x := by
  cases hr
  rcases hi : m.impl.releaseCachedBlocksLocked d with ⟨x | _, r⟩
  · refine ⟨_, r, rfl, ?_, fun y hy ↦ ?_⟩ <;> simp [Impl.emptyCache, hi]
    cases hy
    rfl
  · exact ⟨_, r, rfl, by simp [Impl.emptyCache, hi], nofun⟩

/-- `[ptr, ptr + size)` meets no segment of the driver: neither one the allocator has
recorded nor one on its way to a thread. -/
def Unmapped (m : Machine) (raw : RawSegment) : Prop :=
  (∀ base r, m.impl.driverSegments.lookup base = some r →
    raw.ptr + raw.size ≤ base ∨ base + r.size ≤ raw.ptr) ∧
  (∀ t request r, m.threads t = .fromDriver request (.segment r) →
    raw.ptr + raw.size ≤ r.ptr ∨ r.ptr + r.size ≤ raw.ptr)

/-- A region the driver may return for a request of `size` bytes. -/
structure FreshRegion (m : Machine) (size : Nat) (raw : RawSegment) : Prop where
  ptr_pos : 0 < raw.ptr
  size_le : size ≤ raw.size
  bound : raw.ptr + raw.size ≤ SizeT.modulus
  unmapped : m.Unmapped raw

/-- What the driver and the containers of the library may do. -/
def Admissible (m : Machine) : Operation → Prop
  | .mallocSegment t (.segment raw) =>
    ∀ request, m.threads t = .inDriver request → m.FreshRegion request.allocSize raw
  | .mallocSegment _ (.failed err) => err ≠ .success
  | .mallocSegment _ (.guard answer) => deviceGuard answer ≠ .ok ()
  | .rehash queues => queues.Perm m.impl.cudaEvents
  | _ => True

end Machine

/-- The allocator under every driver behaviour and every interleaving. -/
def cudaAllocator : TransitionSystem Machine (Operation × Reply) where
  init m := ∃ maxCachedBytes, m = { impl := { maxCachedBytes } }
  step m l m' := m.Admissible l.1 ∧ m.run l.1 = some (l.2, m')

/-- No call of the runtime fails. -/
structure DriverAnswers.ErrorFree (d : DriverAnswers) : Prop where
  processGuard : deviceGuard d.processGuard = .ok ()
  synchronizeGuard : deviceGuard d.synchronizeGuard = .ok ()
  insertGuard : deviceGuard d.insertGuard = .ok ()
  query : ∀ e, d.query e = .success ∨ d.query e = .notReady
  synchronize : ∀ e, d.synchronize e = .success
  create : ∀ st, d.create st = .success
  record : ∀ st, d.record st = .success

/-- The operations of an ordinary run: rounding the request does not wrap and the runtime
reports no error other than being out of memory. -/
def Operation.Ordinary : Operation → Prop
  | .allocate _ size _ d => RoundingFits size ∧ d.ErrorFree
  | .mallocSegment _ (.failed err) => err = .memoryAllocation
  | .mallocSegment _ (.guard _) => False
  | .resume _ d => d.ErrorFree
  | .deallocate _ _ d => d.ErrorFree
  | .emptyCache d => d.ErrorFree
  | _ => True

/-- The allocator in ordinary runs. -/
def ordinaryCudaAllocator : TransitionSystem Machine (Operation × Reply) :=
  cudaAllocator.restrict (fun _ l ↦ l.1.Ordinary)

end Hisab.Memory
