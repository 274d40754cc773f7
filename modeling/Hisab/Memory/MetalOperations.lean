import Hisab.Memory.AllocatorSafety
import Hisab.Memory.MetalImage

/-!
# The operations of both allocators

On the default stream, with an error-free runtime, each public operation of the Metal
allocator does to the image of a CUDA allocator what the CUDA operation does to the
original: the same outcome, the same new state, and a pointer to the same place.
-/

namespace Hisab.Memory
open Hisab.Base CachingConfig Function CacheBlock

namespace Impl

variable {μ : Buffers} {T : SegmentTable} {s t r : Impl} {b : BlockId} {B : CacheBlock}
  {κ : AList (fun _ : Nat ↦ BlockId)} {d : DriverAnswers} {request : SegmentRequest}

/-- The Metal result is the image of the CUDA result, and no block has been handed out. -/
structure Mirrored (μ : Buffers) (T : SegmentTable) (keys : AList (fun _ : Nat ↦ BlockId))
    (d : DriverAnswers) (s : Impl) (r : Reply × Impl) (r' : Reply × MetalImpl) : Prop where
  result : r' = (r.1, r.2.toMetal μ keys)
  plain : r.2.Plain T
  progress : Progress (Completes d) s r.2
  reply : (∃ request : SegmentRequest, request.Valid ∧ r.1 = .unlocked request) ∨
    r.1 = .threw .badAlloc ∨ r.1 = .done

theorem Mirrored.after {r : Reply × Impl} {r' : Reply × MetalImpl}
    (hp : Progress (Completes d) s t) (h : Mirrored μ T κ d t r r') :
    Mirrored μ T κ d s r r' :=
  ⟨h.result, h.plain, hp.trans h.progress, h.reply⟩

/-! ### Event queues without events -/

theorem processEventsLocked_plain (h : s.Plain T) (hd : d.ErrorFree) :
    s.processEventsLocked d = (.ok (), s) := by
  unfold processEventsLocked
  rw [hd.processGuard, h.queues]
  rfl

/-- A flush finds no event to wait for. -/
theorem releaseCachedBlocksLocked_toMetal (h : s.WellFormed .none) (hp : s.Plain T)
    (hd : d.ErrorFree) :
    ∃ r, s.releaseCachedBlocksLocked d = (.ok (), r) ∧ r.Plain T ∧ Progress (Completes d) s r ∧
      (s.toMetal μ κ).releaseCachedBlocksLocked = r.toMetal μ κ := by
  have hcount : ({ s with stats := { s.stats with
      numSyncAllStreams := SizeT.add s.stats.numSyncAllStreams 1 } } : Impl).Plain T :=
    hp.congr rfl rfl rfl
  obtain ⟨hr, he⟩ := releasePools_plain_toMetal hcount
  have hrelease : s.releaseCachedBlocksLocked d = (.ok (), (({ s with stats := { s.stats with
      numSyncAllStreams := SizeT.add s.stats.numSyncAllStreams 1 } } :
        Impl).releasePoolBlocksLocked .small).releasePoolBlocksLocked .large) := by
    unfold releaseCachedBlocksLocked synchronizeAndFreeEventsLocked
    rw [hd.synchronizeGuard, hp.queues]
    rfl
  obtain ⟨hprogress, _⟩ := releaseCachedBlocksLocked_progress h hrelease nofun
  exact ⟨_, hrelease, hr, hprogress, he⟩

/-! ### Asking for a segment -/

theorem dropLock_mirrored (h : s.WellFormed .none) (hp : s.Plain T) (hv : request.Valid) :
    Mirrored μ T κ d s (s.dropLock request) ((s.toMetal μ κ).beginSegment request) := by
  refine ⟨?_, ?_, dropLock_progress h request, .inl ⟨request, hv, rfl⟩⟩
  · unfold dropLock MetalImpl.beginSegment
    cases request.isRetry <;> rfl
  · unfold dropLock
    cases request.isRetry
    · exact hp
    · exact hp.congr rfl rfl rfl

theorem failOomLocked_mirrored (h : s.WellFormed .none) (hp : s.Plain T) :
    Mirrored μ T κ d s s.failOomLocked (s.toMetal μ κ).failOomLocked :=
  ⟨rfl, hp.congr rfl rfl rfl, failOomLocked_progress h, .inr (.inl rfl)⟩

theorem missCache_mirrored (h : s.WellFormed .none) (hp : s.Plain T) (hd : d.ErrorFree)
    (hv : request.Valid) :
    Mirrored μ T κ d s (s.missCache d request) ((s.toMetal μ κ).missCache request) := by
  unfold missCache MetalImpl.missCache
  dsimp only
  generalize hu : ({ s with stats := { s.stats with
    cacheMisses := SizeT.add s.stats.cacheMisses 1 } } : Impl) = u
  have hprogress : Progress (Completes d) s u := hu ▸ .of_core h rfl rfl rfl
  have hup : u.Plain T := hu ▸ hp.congr rfl rfl rfl
  have hmetal : ({ s.toMetal μ κ with stats := { (s.toMetal μ κ).stats with
      cacheMisses := SizeT.add (s.toMetal μ κ).stats.cacheMisses 1 } } : MetalImpl) =
      u.toMetal μ κ := hu ▸ rfl
  rw [hmetal, reservedWouldExceedLocked_toMetal]
  refine .after hprogress ?_
  by_cases hover : u.reservedWouldExceedLocked request.allocSize = true
  · obtain ⟨r, hr, hrp, hflush, he⟩ := releaseCachedBlocksLocked_toMetal
      hprogress.wellFormed hup hd
    rw [if_pos hover, if_pos hover, hr, he]
    dsimp only
    rw [reservedWouldExceedLocked_toMetal]
    refine .after hflush ?_
    by_cases hover' : r.reservedWouldExceedLocked request.allocSize = true
    · rw [if_pos hover', if_pos hover']
      exact failOomLocked_mirrored hflush.wellFormed hrp
    · rw [if_neg hover', if_neg hover']
      exact dropLock_mirrored hflush.wellFormed hrp hv
  · rw [if_neg hover, if_neg hover]
    exact dropLock_mirrored hprogress.wellFormed hup hv

/-! ### Handing a block out -/

/-- A block that is the same up to links is at the same place. -/
theorem place_of_unlinked (h : (s.heap b).map CacheBlock.unlinked = some B.unlinked) :
    ∃ X, s.heap b = some X ∧ X.allocated = B.allocated ∧ X.ptr = B.ptr ∧
      X.segmentBase = B.segmentBase ∧ X.registrationCounter = B.registrationCounter := by
  obtain ⟨X, hX, hu⟩ := Option.map_eq_some_iff.mp h
  exact ⟨X, hX, (congrArg allocated hu :), (congrArg ptr hu :),
    (congrArg segmentBase hu :), (congrArg registrationCounter hu :)⟩

/-- Live blocks stay where they are. -/
def KeepsLive (s r : Impl) : Prop :=
  ∀ c C, s.heap c = some C → C.allocated = true →
    (r.heap c).map CacheBlock.unlinked = some C.unlinked

/-- Both allocators hand out the block that starts where `B` does; it is `c`. A segment may
have been `gained` for it. -/
structure HandedOut (μ : Buffers) (T : SegmentTable) (keys : AList (fun _ : Nat ↦ BlockId))
    (gained : Option RawSegment) (s : Impl) (B : CacheBlock) (r : Reply × Impl)
    (r' : Reply × MetalImpl) (c : BlockId) (C : CacheBlock) : Prop where
  cuda : r.1 = .returned B.ptr
  metal : r' = (.returned (B.toMetal μ).ptr, r.2.toMetal μ (keysWith keys (B.toMetal μ).ptr c))
  plain : r.2.Plain T
  wellFormed : r.2.WellFormed .none
  kept : s.KeepsLive r.2
  segments : ∀ base raw, r.2.driverSegments.lookup base = some raw →
    s.driverSegments.lookup base = some raw ∨ (gained = some raw ∧ base = raw.ptr)
  keys : r.2.allocatedBlocks = s.allocatedBlocks.insert B.ptr c
  fresh : ∀ X, s.heap c = some X → X.allocated = false
  block : r.2.heap c = some C
  allocated : C.allocated = true
  place : C.ptr = B.ptr ∧ C.segmentBase = B.segmentBase ∧
    C.registrationCounter = B.registrationCounter

/-- What `HandedOut` asks besides the invariants. -/
private structure Publishing (μ : Buffers) (T : SegmentTable)
    (κ : AList (fun _ : Nat ↦ BlockId)) (s : Impl) (B : CacheBlock) (r : Impl)
    (r' : MetalImpl) (c : BlockId) (C : CacheBlock) : Prop where
  metal : r' = r.toMetal μ (keysWith κ (B.toMetal μ).ptr c)
  plain : r.Plain T
  keys : r.allocatedBlocks = s.allocatedBlocks.insert B.ptr c
  block : r.heap c = some C
  allocated : C.allocated = true
  place : C.ptr = B.ptr ∧ C.segmentBase = B.segmentBase ∧
    C.registrationCounter = B.registrationCounter

private theorem publishBlock_handsOut (h : s.WellFormed (.carved b)) (hp : s.Plain T)
    (hb : s.heap b = some B) (size : Nat) :
    ∃ C, Publishing μ T κ s B (s.publishBlock b size).trimCacheLocked
      (((s.publishBlock b size).toMetal μ (keysWith κ (B.toMetal μ).ptr b)).trimCacheLocked)
        b C := by
  obtain ⟨hwf, hheap, halloc, _⟩ := h.publishBlock hb size
  obtain ⟨(hprogress : Progress (fun _ ↦ False) _ _), hevents⟩ := trimCacheLocked_progress hwf
  obtain ⟨htrim, himage⟩ := trimCacheLocked_plain_toMetal (publishBlock_plain hp b size)
  have hlive : (s.publishBlock b size).heap b =
      some { B with allocated := true, requestedSize := size } := by
    rw [hheap, update_self]
  obtain ⟨C, hC, hal, hptr, hbase, hcounter⟩ :=
    place_of_unlinked (hprogress.evolves.live b _ hlive rfl)
  exact ⟨C, himage, htrim, hevents.allocations.trans halloc, hC, hal, hptr, hbase, hcounter⟩

/-- The end of `allocate`: the block is split or not on both sides, and trimmed alike. -/
theorem finishAllocate_handsOut (h : s.WellFormed (.taken b)) (hp : s.Plain T)
    (hb : s.heap b = some B) (size : Nat) {rounded : Nat} (hpos : 0 < rounded)
    (hle : rounded ≤ B.size) :
    ∃ c C, HandedOut μ T κ none s B (s.finishAllocate b rounded size)
      ((s.toMetal μ κ).finishAllocate b rounded size) c C := by
  obtain ⟨hreply, hpub⟩ := finishAllocate_publishes h hb size hpos hle
  unfold finishAllocate MetalImpl.finishAllocate allocFoundBlockLocked
    MetalImpl.allocFoundBlockLocked at *
  rw [shouldSplit_toMetal]
  by_cases hs : s.shouldSplit b rounded = true
  · rw [if_pos hs] at hreply hpub ⊢
    rw [if_pos hs]
    have hlt := h.lt_of_shouldSplit hb hle hs
    obtain ⟨hwf, hheap, _⟩ := h.splitBlock hb hpos hlt
    have hfront : (s.splitBlock b rounded).heap s.nextBlock = some (front B b rounded) := by
      rw [hheap]
      simp [splitHeap]
    have hpublished : ((s.splitBlock b rounded).publishBlock s.nextBlock size).deref s.nextBlock =
        { front B b rounded with allocated := true, requestedSize := size } := by
      obtain ⟨_, hheap', _⟩ := hwf.publishBlock hfront size
      exact deref_of (by rw [hheap', update_self])
    obtain ⟨C, hout⟩ := publishBlock_handsOut (μ := μ) (κ := κ) hwf
      (splitBlock_plain hp hb rounded) hfront size
    have hkeys : (s.splitBlock b rounded).allocatedBlocks = s.allocatedBlocks :=
      (splitBlock_sameEvents s b rounded).1.allocations
    refine ⟨s.nextBlock, C, hreply, ?_, hout.plain, hpub.wellFormed, hpub.evolves.live,
      fun _ _ hs ↦ .inl (hpub.segments _ _ hs), hkeys ▸ hout.keys, fun X hX ↦ ?_, hout.block, hout.allocated, hout.place⟩
    · dsimp only
      rw [splitBlock_toMetal hp hb, show (s.toMetal μ κ).nextBlock = s.nextBlock from rfl,
        publishBlock_toMetal hfront, deref_toMetal, hpublished, hout.metal]
      rfl
    · rw [h.nextBlock_none] at hX
      cases hX
  · rw [if_neg hs] at hreply hpub ⊢
    rw [if_neg hs]
    have hpublished : (s.publishBlock b size).deref b =
        { B with allocated := true, requestedSize := size } := by
      obtain ⟨_, hheap', _⟩ := h.carved.publishBlock hb size
      exact deref_of (by rw [hheap', update_self])
    obtain ⟨C, hout⟩ := publishBlock_handsOut (μ := μ) (κ := κ) h.carved hp hb size
    refine ⟨b, C, hreply, ?_, hout.plain, hpub.wellFormed, hpub.evolves.live,
      fun _ _ hs ↦ .inl (hpub.segments _ _ hs), hout.keys, fun X hX ↦ ?_, hout.block, hout.allocated, hout.place⟩
    · dsimp only
      rw [publishBlock_toMetal hb, deref_toMetal, hpublished, hout.metal]
      rfl
    · rw [hb] at hX
      cases hX
      exact (h.idle rfl hb).1

/-! ### Public operations -/

/-- What `allocate` does on both sides. -/
def Served (μ : Buffers) (T : SegmentTable) (keys : AList (fun _ : Nat ↦ BlockId))
    (d : DriverAnswers) (s : Impl) (r : Reply × Impl) (r' : Reply × MetalImpl) : Prop :=
  Mirrored μ T keys d s r r' ∨ ∃ B c C, HandedOut μ T keys none s B r r' c C

private def countPoolHit (s : Impl) : Impl :=
  { s with stats := { s.stats with cacheHits := SizeT.add s.stats.cacheHits 1 } }

theorem allocate_served (h : s.WellFormed .none) (hp : s.Plain T) (hd : d.ErrorFree) {size : Nat}
    (hsize : size ≠ 0) (hfit : RoundingFits size) :
    Served μ T κ d s (s.allocate d size 0) ((s.toMetal μ κ).allocate size) := by
  unfold allocate MetalImpl.allocate
  rw [if_neg hsize, if_neg hsize, processEventsLocked_plain hp hd]
  dsimp only
  have hrequest : MetalImpl.segmentRequest size = segmentRequest size 0 := rfl
  rw [hrequest, getFreeBlockLocked_toMetal hp]
  have hstream : (segmentRequest size 0).stream = 0 := rfl
  rw [hstream]
  rcases getFreeBlockLocked_cases s (segmentRequest size 0).pool 0
    (segmentRequest size 0).rounded with hg | ⟨b, hg, hm, _, hle⟩
  · rw [hg]
    exact .inl (missCache_mirrored h hp hd (segmentRequest_valid hfit 0))
  · rw [hg]
    obtain ⟨B, hB, _⟩ := h.pool_live hm
    rw [deref_of hB] at hle
    have hwf : (s.take (segmentRequest size 0).pool b).countPoolHit.WellFormed (.taken b) :=
      (h.take hm).1.congr rfl
    have hplain : (s.take (segmentRequest size 0).pool b).countPoolHit.Plain T := hp.congr rfl rfl rfl
    obtain ⟨c, C, hout⟩ := finishAllocate_handsOut hwf hplain hB
      size hfit.round_pos hle
    exact .inr ⟨B, c, C, hout.cuda, hout.metal, hout.plain, hout.wellFormed, hout.kept,
      hout.segments, hout.keys, hout.fresh, hout.block, hout.allocated, hout.place⟩

/-- A new buffer becomes the block in hand on both sides. -/
theorem registerSegment_toMetal {raw : RawSegment} (hsize : raw.size = request.allocSize) :
    (s.toMetal μ κ).registerSegment request (μ.buffer (s.registrationCounterGlobal + 1)) =
      (s.registerSegment request raw).toMetal μ κ := by
  have hblock : ({ ptr := (μ.buffer (s.registrationCounterGlobal + 1)).contents
                   size := request.allocSize, stream := request.stream, pool := request.pool
                   buffer := μ.buffer (s.registrationCounterGlobal + 1)
                   registrationCounter := s.registrationCounterGlobal + 1 } : MetalBlock) =
      (s.segmentBlock request raw).toMetal μ := by
    simp [CacheBlock.toMetal, segmentBlock, hsize]
  unfold MetalImpl.registerSegment registerSegment
  dsimp only
  rw [show (s.toMetal μ κ).registrationCounterGlobal = s.registrationCounterGlobal from rfl,
    hblock, newBlock_toMetal, ← hsize]
  rfl

/-- The driver has served the request with a segment and a buffer of its size. -/
theorem resumeAllocate_segment_handsOut {T' : SegmentTable} {raw : RawSegment}
    (h : s.WellFormed .none) (hv : request.Valid) (hptr : 0 < raw.ptr)
    (hsize : raw.size = request.allocSize) (hbound : raw.ptr + raw.size ≤ SizeT.modulus)
    (hfree : ∀ base r, s.driverSegments.lookup base = some r → raw.ptr + raw.size ≤ base ∨ base + r.size ≤ raw.ptr)
    (hp : (s.registerSegment request raw).Plain T') :
    ∃ c C, HandedOut μ T' κ (some raw) s (s.segmentBlock request raw)
      (s.resumeAllocate d request (.segment raw))
      ((s.toMetal μ κ).resumeAllocate request
        (some (μ.buffer (s.registrationCounterGlobal + 1)))) c C := by
  have hle : request.rounded ≤ raw.size := hsize ▸ hv.rounded_le
  obtain ⟨hwf, hheap, hseg, _⟩ := h.registerSegment request hptr
    (Nat.lt_of_lt_of_le hv.rounded_pos hle) hbound hfree
  obtain ⟨c, C, hout⟩ := finishAllocate_handsOut (μ := μ) (κ := κ) hwf hp hheap request.size
    hv.rounded_pos hle
  have hold {a : BlockId} {A : CacheBlock} (hA : s.heap a = some A) :
      (s.registerSegment request raw).heap a = some A := by
    have hne : a ≠ s.nextBlock := by
      rintro rfl
      rw [h.nextBlock_none] at hA
      cases hA
    change update s.heap s.nextBlock _ a = some A
    rw [update_of_ne hne, hA]
  refine ⟨c, C, hout.cuda, ?_, hout.plain, hout.wellFormed, fun a A hA ↦ hout.kept a A (hold hA),
    fun base x hx ↦ ?_, hout.keys, fun X hX ↦ hout.fresh X (hold hX), hout.block, hout.allocated,
    hout.place⟩
  · have hmetal := hout.metal
    rw [← registerSegment_toMetal hsize] at hmetal
    exact hmetal
  · rcases hout.segments base x hx with hin | ⟨hgained, _⟩
    · rw [hseg] at hin
      by_cases hb : base = raw.ptr
      · subst hb
        rw [AList.lookup_insert] at hin
        cases hin
        exact .inr ⟨rfl, rfl⟩
      · rw [AList.lookup_insert_ne hb] at hin
        exact .inl hin
    · cases hgained

/-- The driver has no memory. -/
theorem resumeAllocate_failed_mirrored (h : s.WellFormed .none) (hp : s.Plain T) (hd : d.ErrorFree)
    (hv : request.Valid) :
    Mirrored μ T κ d s (s.resumeAllocate d request (.failed .memoryAllocation))
      ((s.toMetal μ κ).resumeAllocate request none) := by
  unfold resumeAllocate MetalImpl.resumeAllocate
  by_cases hretry : request.isRetry = true
  · rw [if_pos hretry, if_pos hretry]
    exact failOomLocked_mirrored h hp
  · obtain ⟨r, hr, hrp, hflush, he⟩ := releaseCachedBlocksLocked_toMetal
      h hp hd
    rw [if_neg hretry, if_neg hretry, hr, he]
    exact .after hflush (dropLock_mirrored hflush.wellFormed hrp
      ⟨hv.rounded_pos, hv.size_le, hv.rounded_le⟩)

/-- Both allocators take back block `b`, which the Metal one knows as `q`. -/
structure HandedBack (μ : Buffers) (T : SegmentTable) (keys : AList (fun _ : Nat ↦ BlockId))
    (s : Impl) (b : BlockId) (B : CacheBlock) (q : Nat) (r : Reply × Impl)
    (r' : Reply × MetalImpl) : Prop where
  cuda : r.1 = .done
  metal : r' = (.done, r.2.toMetal μ (keys.erase q))
  plain : r.2.Plain T
  wellFormed : r.2.WellFormed .none
  kept : ∀ c C, c ≠ b → s.heap c = some C → C.allocated = true →
    (r.2.heap c).map CacheBlock.unlinked = some C.unlinked
  segments : ∀ base raw, r.2.driverSegments.lookup base = some raw →
    s.driverSegments.lookup base = some raw
  keys : r.2.allocatedBlocks = s.allocatedBlocks.erase B.ptr

/-- The Metal free of a block of `n` bytes that is no longer live. -/
private def takenBack (t : MetalImpl) (b : BlockId) (n : Nat) : MetalImpl :=
  { t.log (.freed b) with stats := { t.stats with
      successfulFrees := SizeT.add t.stats.successfulFrees 1
      bytesAllocated := SizeT.sub t.stats.bytesAllocated n } }

private theorem deallocateBlock_toMetal (q p : Nat) (b : BlockId) :
    (s.toMetal μ κ).deallocateBlock q b =
      (.done, (((s.beginFree p b 0).toMetal μ (κ.erase q)).freeBlockLocked
        b).trimCacheLocked) := by
  have hmodify := modify_toMetal (s := { s with allocatedBlocks := s.allocatedBlocks.erase p })
    (μ := μ) (κ := κ.erase q) (b := b) (f := fun b ↦ { b with allocated := false })
    (g := fun b ↦ { b with allocated := false }) (fun _ _ ↦ rfl)
  generalize ht : ({ s with allocatedBlocks := s.allocatedBlocks.erase p } : Impl).modify b
    (fun b ↦ { b with allocated := false }) = t at hmodify
  have hbegin : s.beginFree p b 0 = ({ t.log (.freed b) with stats := { t.stats with
          successfulFrees := SizeT.add t.stats.successfulFrees 1 } } : Impl).subBytesAllocated
            (t.deref b).size := by
    subst ht
    rfl
  have himage : (s.beginFree p b 0).toMetal μ (κ.erase q) =
      takenBack (t.toMetal μ (κ.erase q)) b (t.deref b).size := by
    rw [hbegin]
    rfl
  have hsize : ((t.toMetal μ (κ.erase q)).deref b).size = (t.deref b).size := by
    rw [deref_toMetal]
    rfl
  rw [himage, ← hsize, ← hmodify]
  rfl

private theorem beginFree_plain (hp : s.Plain T) (hb : s.heap b = some B) (hint : Stream)
    (huses : usesWith B hint = []) : (s.beginFree B.ptr b hint).Plain T := by
  have hlast : (s.beginFree B.ptr b hint).registrationCounterGlobal =
      s.registrationCounterGlobal := by
    unfold beginFree
    dsimp only
    split <;> rfl
  refine ⟨(beginFree_fixed s B.ptr b hint).1.trans hp.queues, hlast.trans hp.last, fun c X hX ↦ ?_⟩
  rw [beginFree_heap hb, update_apply] at hX
  split at hX
  · cases hX
    have hB := hp.block b B hb
    exact ⟨⟨hB.uses.1, huses⟩, hB.inside, hB.listed⟩
  · exact hp.block c X hX

/-- Taking a live block back, merging it with its free neighbours and trimming. -/
theorem deallocateBlock_handedBack (h : s.WellFormed .none) (hp : s.Plain T)
    (hb : s.heap b = some B) (hal : B.allocated = true) (q : Nat) :
    HandedBack μ T κ s b B q (s.deallocateBlock d B.ptr b 0)
      ((s.toMetal μ κ).deallocateBlock q b) := by
  have huses : usesWith B 0 = [] := by exact (hp.block b B hb).uses.2
  have htaken := h.beginFree hb hal 0 huses
  obtain ⟨_, _, _, hseg, hall⟩ := beginFree_fixed s B.ptr b 0
  have hX : (s.beginFree B.ptr b 0).heap b =
      some { B with allocated := false, streamUses := [] } := by
    rw [htaken.heap, update_self]
  have hcuda : s.deallocateBlock d B.ptr b 0 =
      (.done, ((s.beginFree B.ptr b 0).freeBlockLocked b).trimCacheLocked) := by
    change (if ((s.beginFree B.ptr b 0).deref b).streamUses.isEmpty then
        (Reply.done, ((s.beginFree B.ptr b 0).freeBlockLocked b).trimCacheLocked)
      else _) = _
    rw [deref_of hX, List.isEmpty_nil, if_pos rfl]
  obtain ⟨hwf, hkeep⟩ := htaken.wellFormed.freeBlockLocked
    (B := { B with allocated := false, streamUses := [] }) hX
  obtain ⟨hfree, hfreed⟩ := freeBlockLocked_plain_toMetal
    htaken.wellFormed (beginFree_plain hp hb 0 huses) hX
  obtain ⟨htrim, htrimmed⟩ := trimCacheLocked_plain_toMetal hfree
  obtain ⟨(hprogress : Progress (fun _ ↦ False) _ _), hevents⟩ := trimCacheLocked_progress hwf
  rw [hcuda, deallocateBlock_toMetal q B.ptr b, hfreed, htrimmed]
  refine ⟨rfl, rfl, htrim, hprogress.wellFormed, fun c C hc hC hCal ↦ ?_, fun base raw hr ↦ ?_, ?_⟩
  · have hC' : (s.beginFree B.ptr b 0).heap c = some C := by rw [htaken.heap, update_of_ne hc, hC]
    obtain ⟨X, hX, hu⟩ := Option.map_eq_some_iff.mp (hkeep c C hC' (fun hi ↦ by
      have := hi.1
      rw [hCal] at this
      cases this))
    exact hu ▸ hprogress.evolves.live c X hX ((congrArg allocated hu).trans hCal)
  · have := hprogress.segments base raw hr
    rwa [freeBlockLocked_driverSegments] at this
  · exact (hevents.allocations.trans (freeBlockLocked_sameEvents _ _).allocations).trans hall

theorem emptyCache_mirrored (h : s.WellFormed .none) (hp : s.Plain T) (hd : d.ErrorFree) :
    Mirrored μ T κ d s (s.emptyCache d) (s.toMetal μ κ).emptyCache := by
  obtain ⟨r, hr, hrp, hflush, he⟩ := releaseCachedBlocksLocked_toMetal
    h hp hd
  unfold emptyCache MetalImpl.emptyCache
  rw [hr, he]
  exact ⟨rfl, hrp, hflush, .inr (.inr rfl)⟩

theorem setMaxCachedBytes_mirrored (h : s.WellFormed .none) (hp : s.Plain T) (bytes : Nat) :
    Mirrored μ T κ d s (.done, s.setMaxCachedBytes bytes)
      (.done, (s.toMetal μ κ).setMaxCachedBytes bytes) := by
  have hset : Progress (Completes d) s { s with maxCachedBytes := bytes } := .of_core h rfl rfl rfl
  have hplain : ({ s with maxCachedBytes := bytes } : Impl).Plain T := hp.congr rfl rfl rfl
  obtain ⟨htrim, he⟩ := trimCacheLocked_plain_toMetal hplain
  exact ⟨congrArg (Prod.mk Reply.done) he, htrim,
    hset.trans (trimCacheLocked_progress hset.wellFormed).1, .inr (.inr rfl)⟩

theorem resetPeakStats_mirrored (h : s.WellFormed .none) (hp : s.Plain T) :
    Mirrored μ T κ d s (.done, s.resetPeakStats) (.done, (s.toMetal μ κ).resetPeakStats) :=
  ⟨rfl, hp.congr rfl rfl rfl, .of_core h rfl rfl rfl, .inr (.inr rfl)⟩

end Impl
end Hisab.Memory
