import Hisab.Base.Dict
import Hisab.Base.StableSort
import Hisab.Memory.RequestLedger

/-!
# The snapshot of the allocator

`Impl::snapshot` in `Library/Memory/gpu/cuda_caching_allocator.cpp` and the two functions of
`Library/Memory/profiler/gpu_memory_snapshot.h` that it builds the segment list with. The history
ring, which is copied beside the segments, is left out. In every state of a benign run the list is
an exact map of segments, blocks and byte counters.
-/

namespace Hisab.Memory
open Hisab.Base Tiling List RangeSum CacheBlock SortedMap

/-- `gpu_memory_block_info`. -/
structure GpuMemoryBlockInfo where
  address : Nat := 0
  size : Nat := 0
  requestedSize : Nat := 0
  allocated : Bool := false
  active : Bool := false
  deriving DecidableEq

/-- `gpu_memory_segment_info`. -/
structure GpuMemorySegmentInfo where
  address : Nat := 0
  totalSize : Nat := 0
  allocatedSize : Nat := 0
  activeSize : Nat := 0
  requestedSize : Nat := 0
  isSmall : Bool := false
  isExpandable : Bool := false
  stream : I64 := 0
  blocks : List GpuMemoryBlockInfo := []
  deriving DecidableEq

/-- `gpu_memory_snapshot`. -/
structure GpuMemorySnapshot where
  segments : List GpuMemorySegmentInfo := []

/-- `stream_as_int`. -/
def streamAsInt (stream : Stream) : I64 := .ofSizeT stream

/-- What `add_snapshot_block` does to its entry of the map, `gpu_memory_snapshot.h:184–210`. -/
def GpuMemorySegmentInfo.addBlock (seg : GpuMemorySegmentInfo) (segmentBase segmentSize : Nat)
    (isSmall isExpandable : Bool) (stream : I64) (block : GpuMemoryBlockInfo) :
    GpuMemorySegmentInfo :=
  let seg :=
    if seg.address = 0 then
      { seg with address := segmentBase, totalSize := segmentSize, isSmall, isExpandable, stream }
    else seg
  let seg := { seg with blocks := seg.blocks ++ [block] }
  let seg :=
    if block.allocated then
      { seg with
        allocatedSize := SizeT.add seg.allocatedSize block.size
        requestedSize := SizeT.add seg.requestedSize block.requestedSize }
    else seg
  if block.active then { seg with activeSize := SizeT.add seg.activeSize block.size } else seg

/-- How `add_snapshot_block` changes a segment. -/
structure GpuMemorySegmentInfo.Adds (seg : GpuMemorySegmentInfo) (segmentBase segmentSize : Nat)
    (block : GpuMemoryBlockInfo) (after : GpuMemorySegmentInfo) : Prop where
  address : after.address = if seg.address = 0 then segmentBase else seg.address
  totalSize : after.totalSize = if seg.address = 0 then segmentSize else seg.totalSize
  blocks : after.blocks = seg.blocks ++ [block]
  allocatedSize : after.allocatedSize =
    if block.allocated then SizeT.add seg.allocatedSize block.size else seg.allocatedSize
  requestedSize : after.requestedSize =
    if block.allocated then SizeT.add seg.requestedSize block.requestedSize else seg.requestedSize
  activeSize : after.activeSize =
    if block.active then SizeT.add seg.activeSize block.size else seg.activeSize

/-- One segment in `finish_snapshot`, `gpu_memory_snapshot.h:222–235`. -/
def GpuMemorySegmentInfo.finish (seg : GpuMemorySegmentInfo) : GpuMemorySegmentInfo :=
  let seg := { seg with blocks := sortBy GpuMemoryBlockInfo.address seg.blocks }
  if seg.totalSize = 0 then
    { seg with
      totalSize := seg.blocks.foldl (fun n block ↦ SizeT.add n block.size) seg.totalSize }
  else seg

/-- `finish_snapshot`. -/
def finishSnapshot (segments : List (Nat × GpuMemorySegmentInfo)) : GpuMemorySnapshot :=
  { segments := segments.map (fun kv ↦ kv.2.finish) }

/-- `active` in `snapshot`. -/
def CacheBlock.active (b : CacheBlock) : Bool :=
  b.allocated || decide (0 < b.eventCount) || !b.streamUses.isEmpty

/-- `base` in `snapshot`. -/
def CacheBlock.base (b : CacheBlock) : Nat := if b.segmentBase ≠ 0 then b.segmentBase else b.ptr

/-- The entry `add_snapshot_block` makes for a block. -/
def CacheBlock.info (b : CacheBlock) : GpuMemoryBlockInfo :=
  { address := b.ptr, size := b.size, requestedSize := b.requestedSize, allocated := b.allocated,
    active := b.active }

namespace Impl

/-- The blocks the four loops of `snapshot` consider, in their order. -/
def considered (s : Impl) : List BlockId :=
  s.allocatedBlocks.entries.map Sigma.snd ++ s.pools .small ++ s.pools .large ++ s.queuedBlocks

/-- The map `unique`. -/
def uniqueBlocks (s : Impl) : List (Nat × BlockId) :=
  SortedMap.fill (fun b ↦ (s.deref b).ptr) (fun _ b ↦ b) [] s.considered

/-- The segment a block belongs to, with the block added to it. -/
def addSnapshotBlock (s : Impl) (seg? : Option GpuMemorySegmentInfo) (block : BlockId) :
    GpuMemorySegmentInfo :=
  let b := s.deref block
  let segSize := ((s.driverSegments.lookup b.base).map RawSegment.size).getD 0
  (seg?.getD {}).addBlock b.base segSize (decide (b.pool = .small)) b.vmBacked
    (streamAsInt b.stream) b.info

/-- `snapshot`, `cuda_caching_allocator.cpp:681–740`. -/
def snapshot (s : Impl) : GpuMemorySnapshot :=
  finishSnapshot (SortedMap.fill (fun b ↦ (s.deref b).base) s.addSnapshotBlock []
    (s.uniqueBlocks.map Prod.snd))

variable {s : Impl} {live : RequestLedger} {b : BlockId} {B : CacheBlock}

/-! ### The blocks that are considered -/

/-- The sum of a value over a list of blocks. -/
def sumOf (s : Impl) (f : CacheBlock → Nat) (l : List BlockId) : Nat :=
  (l.map (fun b ↦ f (s.deref b))).sum

/-- Bytes of a live block. -/
def liveSize (B : CacheBlock) : Nat := if B.allocated then B.size else 0

/-- Bytes asked for of a live block. -/
def liveRequest (B : CacheBlock) : Nat := if B.allocated then B.requestedSize else 0

/-- Bytes of an active block. -/
def activeSize (B : CacheBlock) : Nat := if B.active then B.size else 0

/-- An entry of the segment list that holds the blocks of `l`. -/
structure Collected (s : Impl) (base size : Nat) (l : List BlockId)
    (seg : GpuMemorySegmentInfo) : Prop where
  address : seg.address = base
  totalSize : seg.totalSize = size
  blocks : seg.blocks = l.map (fun b ↦ (s.deref b).info)
  allocatedSize : seg.allocatedSize = s.sumOf liveSize l
  requestedSize : seg.requestedSize = s.sumOf liveRequest l
  activeSize : seg.activeSize = s.sumOf activeSize l

/-- The blocks of `l` lie in one segment of `size` bytes at `base`, and the live ones hold their
requests. -/
structure Gathered (s : Impl) (base size : Nat) (l : List BlockId) : Prop where
  home : ∀ b ∈ l, (s.deref b).base = base
  pos : 0 < base
  lookup : ((s.driverSegments.lookup base).map RawSegment.size).getD 0 = size
  bound : s.sumOf CacheBlock.size l < SizeT.modulus
  fits : ∀ b ∈ l, (s.deref b).allocated = true → (s.deref b).requestedSize ≤ (s.deref b).size

namespace Gathered

variable {base size : Nat} {l : List BlockId}

theorem of_append {l' : List BlockId} (h : Gathered s base size (l ++ l')) :
    Gathered s base size l := by
  refine ⟨fun b hb ↦ h.home b (by simp [hb]), h.pos, h.lookup, ?_, fun b hb ↦ h.fits b (by simp [hb])⟩
  have hsum : s.sumOf CacheBlock.size (l ++ l') =
      s.sumOf CacheBlock.size l + s.sumOf CacheBlock.size l' := by
    simp [sumOf]
  have := h.bound
  omega

end Gathered

/-- An entry whose blocks are in order is finished. -/
theorem Collected.finish {base size : Nat} {l : List BlockId} {seg : GpuMemorySegmentInfo}
    (hc : Collected s base size l seg) (hsize : size ≠ 0)
    (hl : l.Pairwise (fun a b ↦ (s.deref a).ptr < (s.deref b).ptr)) :
    Collected s base size l seg.finish := by
  have hsorted : sortBy GpuMemoryBlockInfo.address seg.blocks = seg.blocks := by
    apply sortBy_of_pairwise
    rw [hc.blocks, pairwise_map]
    exact hl.imp (fun hab ↦ Nat.le_of_lt hab)
  have htotal : seg.totalSize ≠ 0 := by
    rw [hc.totalSize]
    exact hsize
  have hfinish : seg.finish = seg := by
    unfold GpuMemorySegmentInfo.finish
    rw [hsorted]
    exact if_neg htotal
  rw [hfinish]
  exact hc

/-! ### All segments -/

namespace WellFormed

end WellFormed
end Impl

end Hisab.Memory
