import Hisab.Memory.AllocatorRuns
import Hisab.Memory.MetalCachingAllocator

/-!
# The CUDA allocator seen on Metal

`toMetal` moves every block of a CUDA allocator to the buffer that bears its segment's
number, at the same offset. On the default stream, without events, each internal function
of the Metal allocator does to the image what its CUDA counterpart does to the original.
-/

namespace Hisab.Memory
open Hisab.Base CachingConfig Function SizeT

/-- The buffer behind each segment number; no segment has number `-1`. -/
structure Buffers where
  buffer : Int → MetalBuffer
  unregistered : buffer (-1) = {}

variable {μ : Buffers}

/-- A block at the same offset of the buffer with its segment's number. -/
def CacheBlock.toMetal (μ : Buffers) (B : CacheBlock) : MetalBlock :=
  { ptr := (μ.buffer B.registrationCounter).contents + (B.ptr - B.segmentBase)
    size := B.size, requestedSize := B.requestedSize, stream := B.stream, pool := B.pool
    buffer := μ.buffer B.registrationCounter, allocated := B.allocated, prev := B.prev
    next := B.next, registrationCounter := B.registrationCounter }

theorem default_toMetal : (default : CacheBlock).toMetal μ = default := by
  change CacheBlock.toMetal μ { ptr := 0, size := 0, stream := 0, pool := .small } =
    { ptr := 0, size := 0, stream := 0, pool := .small, buffer := {} }
  simp [CacheBlock.toMetal, μ.unregistered]

/-- Blocks at the same offsets compare alike. -/
theorem comparator_toMetal {A B : CacheBlock} (hA : A.segmentBase ≤ A.ptr)
    (hB : B.segmentBase ≤ B.ptr)
    (hsame : A.registrationCounter = B.registrationCounter → A.segmentBase = B.segmentBase) :
    (A.toMetal μ).comparator (B.toMetal μ) = cacheBlockComparator A B := by
  simp only [MetalBlock.comparator, cacheBlockComparator, CacheBlock.toMetal]
  by_cases hstream : A.stream = B.stream
  · by_cases hsize : A.size = B.size
    · by_cases hc : A.registrationCounter = B.registrationCounter
      · have hlt : (μ.buffer B.registrationCounter).contents + (A.ptr - A.segmentBase) <
            (μ.buffer B.registrationCounter).contents + (B.ptr - B.segmentBase) ↔
              A.ptr < B.ptr := by
          omega
        simp [hstream, hsize, hc, hlt]
      · simp only [hc, ne_eq]
        rfl
    · simp only [hsize, ne_eq]
      rfl
  · simp only [hstream, ne_eq]
    rfl

/-- Base addresses and numbers of segments, one for one; `last` is the last number given. -/
structure SegmentTable where
  has : Nat → Int → Prop
  last : Int
  last_nonneg : 0 ≤ last
  range : ∀ base number, has base number → 0 < number ∧ number ≤ last
  same : ∀ a m b n, has a m → has b n → (m = n ↔ a = b)

/-- A block without events or uses on other streams, in a segment of the table. -/
structure CacheBlock.PlainIn (T : SegmentTable) (B : CacheBlock) : Prop where
  uses : B.eventCount = 0 ∧ B.streamUses = []
  inside : B.segmentBase ≤ B.ptr
  listed : T.has B.segmentBase B.registrationCounter

namespace Impl

/-- The allocator on Metal, with its own table of live allocations. -/
def toMetal (μ : Buffers) (keys : AList (fun _ : Nat ↦ BlockId)) (s : Impl) : MetalImpl :=
  { maxCachedBytes := s.maxCachedBytes, allowedMemoryMaximum := s.allowedMemoryMaximum
    bytesCached := s.bytesCached, peakBytesCached := s.peakBytesCached, pools := s.pools
    allocatedBlocks := keys, registrationCounterGlobal := s.registrationCounterGlobal
    stats := { s.stats with numSyncAllStreams := 0 }
    heap := fun b ↦ (s.heap b).map (CacheBlock.toMetal μ)
    nextBlock := s.nextBlock, history := s.history }

/-- No events, no uses on other streams, and every block lies in a segment of the table. -/
structure Plain (T : SegmentTable) (s : Impl) : Prop where
  queues : s.cudaEvents = []
  last : s.registrationCounterGlobal = T.last
  block : ∀ b B, s.heap b = some B → B.PlainIn T

variable {T : SegmentTable} {s t : Impl} {b : BlockId} {B : CacheBlock}
  {κ : AList (fun _ : Nat ↦ BlockId)}

theorem deref_none (h : s.heap b = none) : s.deref b = default := by rw [deref, h, Option.getD_none]

@[simp] theorem deref_toMetal (s : Impl) (b : BlockId) :
    (s.toMetal μ κ).deref b = (s.deref b).toMetal μ := by
  cases hb : s.heap b with
  | none => simp [MetalImpl.deref, toMetal, hb, deref_none hb, default_toMetal]
  | some B => simp [MetalImpl.deref, toMetal, hb, deref_of hb]

/-! ### What the updates keep -/

namespace Plain

theorem congr (h : s.Plain T) (hh : t.heap = s.heap) (hq : t.cudaEvents = s.cudaEvents)
    (hn : t.registrationCounterGlobal = s.registrationCounterGlobal) : t.Plain T :=
  ⟨hq.trans h.queues, hn.trans h.last, fun b B hB ↦ h.block b B (hh ▸ hB)⟩

theorem modify (h : s.Plain T) {f : CacheBlock → CacheBlock}
    (hf : ∀ B, s.heap b = some B → (f B).PlainIn T) : (s.modify b f).Plain T := by
  refine ⟨h.queues, h.last, fun c X hX ↦ ?_⟩
  simp only [Impl.modify, update_apply] at hX
  split at hX
  · obtain ⟨B, hB, rfl⟩ := Option.map_eq_some_iff.mp hX
    exact hf B hB
  · exact h.block c X hX

/-- Changing a link. -/
theorem modify?_link (h : s.Plain T) (p : Option BlockId) {f : CacheBlock → CacheBlock}
    (hf : ∀ B, ∃ prev next, f B = { B with prev, next }) : (s.modify? p f).Plain T := by
  cases p with
  | none => exact h
  | some p =>
    refine h.modify (fun B hB ↦ ?_)
    obtain ⟨prev, next, he⟩ := hf B
    rw [he]
    have hB := h.block p B hB
    exact ⟨hB.uses, hB.inside, hB.listed⟩

theorem deleteBlock (h : s.Plain T) (b : BlockId) : (s.deleteBlock b).Plain T := by
  refine ⟨h.queues, h.last, fun c X hX ↦ ?_⟩
  simp only [Impl.deleteBlock, update_apply] at hX
  split at hX
  · cases hX
  · exact h.block c X hX

theorem newBlock (h : s.Plain T) {X : CacheBlock} (hX : X.PlainIn T) : (s.newBlock X).Plain T := by
  refine ⟨h.queues, h.last, fun c C hC ↦ ?_⟩
  simp only [Impl.newBlock, update_apply] at hC
  split at hC
  · cases hC
    exact hX
  · exact h.block c C hC

theorem poolErase (h : s.Plain T) (k : PoolKind) (b : BlockId) : (s.poolErase k b).Plain T :=
  h.congr rfl rfl rfl

theorem log (h : s.Plain T) (a : BlockAction) : (s.log a).Plain T := h.congr rfl rfl rfl

theorem inside_deref (h : s.Plain T) (b : BlockId) : (s.deref b).segmentBase ≤ (s.deref b).ptr := by
  cases hb : s.heap b with
  | none => rw [deref_none hb]; rfl
  | some B => rw [deref_of hb]; exact (h.block b B hb).inside

/-- Blocks of one number lie in one segment; objects that do not exist count as unnumbered. -/
theorem same_deref (h : s.Plain T) (a b : BlockId)
    (he : (s.deref a).registrationCounter = (s.deref b).registrationCounter) :
    (s.deref a).segmentBase = (s.deref b).segmentBase := by
  have hdefault : (default : CacheBlock).registrationCounter = -1 := rfl
  cases ha : s.heap a with
  | none =>
    cases hb : s.heap b with
    | none => rw [deref_none ha, deref_none hb]
    | some B =>
      have := T.range _ _ (h.block b B hb).listed
      rw [deref_none ha, deref_of hb] at he
      omega
  | some A =>
    cases hb : s.heap b with
    | none =>
      have := T.range _ _ (h.block a A ha).listed
      rw [deref_of ha, deref_none hb] at he
      omega
    | some B =>
      rw [deref_of ha, deref_of hb] at he ⊢
      exact (T.same _ _ _ _ (h.block a A ha).listed (h.block b B hb).listed).mp he

/-- The order of the pools is the same on both sides. -/
theorem blockLt_toMetal (h : s.Plain T) : (s.toMetal μ κ).blockLt = s.blockLt := by
  funext a b
  simp only [MetalImpl.blockLt, deref_toMetal]
  exact comparator_toMetal (h.inside_deref a) (h.inside_deref b) (h.same_deref a b)

end Plain

/-! ### Updates of the image -/

theorem modify_toMetal {f : CacheBlock → CacheBlock} {g : MetalBlock → MetalBlock}
    (hfg : ∀ B, s.heap b = some B → g (B.toMetal μ) = (f B).toMetal μ) :
    (s.toMetal μ κ).modify b g = (s.modify b f).toMetal μ κ := by
  have hheap : update (s.toMetal μ κ).heap b (((s.toMetal μ κ).heap b).map g) =
      ((s.modify b f).toMetal μ κ).heap := by
    funext c
    by_cases hc : c = b
    · subst hc
      cases hb : s.heap c with
      | none => simp [toMetal, modify, hb]
      | some B => simp [toMetal, modify, hb, hfg B hb]
    · simp [toMetal, modify, hc]
  rw [MetalImpl.modify, hheap]
  rfl

theorem modify?_toMetal (p : Option BlockId) {f : CacheBlock → CacheBlock}
    {g : MetalBlock → MetalBlock} (hfg : ∀ B, g (B.toMetal μ) = (f B).toMetal μ) :
    (s.toMetal μ κ).modify? p g = (s.modify? p f).toMetal μ κ := by
  cases p with
  | none => rfl
  | some p => exact modify_toMetal (fun B _ ↦ hfg B)

theorem newBlock_toMetal (s : Impl) (X : CacheBlock) :
    (s.toMetal μ κ).newBlock (X.toMetal μ) = (s.newBlock X).toMetal μ κ := by
  have hheap : update (s.toMetal μ κ).heap s.nextBlock (some (X.toMetal μ)) =
      ((s.newBlock X).toMetal μ κ).heap := by
    funext c
    by_cases hc : c = s.nextBlock
    · simp [toMetal, newBlock, hc]
    · simp [toMetal, newBlock, hc]
  rw [MetalImpl.newBlock, show (s.toMetal μ κ).nextBlock = s.nextBlock from rfl, hheap]
  rfl

theorem deleteBlock_toMetal (s : Impl) (b : BlockId) :
    (s.toMetal μ κ).deleteBlock b = (s.deleteBlock b).toMetal μ κ := by
  have hheap : update (s.toMetal μ κ).heap b none = ((s.deleteBlock b).toMetal μ κ).heap := by
    funext c
    by_cases hc : c = b
    · simp [toMetal, deleteBlock, hc]
    · simp [toMetal, deleteBlock, hc]
  rw [MetalImpl.deleteBlock, hheap]
  rfl

theorem log_toMetal (s : Impl) (a : BlockAction) :
    (s.toMetal μ κ).log a = (s.log a).toMetal μ κ := rfl

theorem poolInsert_toMetal (h : s.Plain T) (k : PoolKind) (b : BlockId) :
    (s.toMetal μ κ).poolInsert k b = (s.poolInsert k b).toMetal μ κ := by
  rw [MetalImpl.poolInsert, h.blockLt_toMetal]
  rfl

theorem poolErase_toMetal (h : s.Plain T) (k : PoolKind) (b : BlockId) :
    (s.toMetal μ κ).poolErase k b = (s.poolErase k b).toMetal μ κ := by
  rw [MetalImpl.poolErase, h.blockLt_toMetal]
  rfl

theorem subBytesCached_toMetal (s : Impl) (n : Nat) :
    (s.toMetal μ κ).subBytesCached n = (s.subBytesCached n).toMetal μ κ := rfl

/-! ### Taking and splitting blocks -/

theorem reservedWouldExceedLocked_toMetal (s : Impl) (n : Nat) :
    (s.toMetal μ κ).reservedWouldExceedLocked n = s.reservedWouldExceedLocked n := rfl

theorem getFreeBlockLocked_toMetal (h : s.Plain T) (k : PoolKind) (stream : Stream) (size : Nat) :
    (s.toMetal μ κ).getFreeBlockLocked k stream size = ((s.getFreeBlockLocked k stream size).1,
        (s.getFreeBlockLocked k stream size).2.toMetal μ κ) := by
  have hkey : ({ ptr := 0, size, stream, pool := k, buffer := {} } : MetalBlock) =
      CacheBlock.toMetal μ { ptr := 0, size, stream, pool := k } := by
    simp [CacheBlock.toMetal, μ.unregistered]
  have hbefore : (fun b ↦ ((s.toMetal μ κ).deref b).comparator
      { ptr := 0, size, stream, pool := k, buffer := {} }) =
        fun b ↦ cacheBlockComparator (s.deref b) { ptr := 0, size, stream, pool := k } := by
    funext b
    rw [hkey, deref_toMetal]
    refine comparator_toMetal (h.inside_deref b) (Nat.le_refl 0) (fun he ↦ ?_)
    cases hb : s.heap b with
    | none => rw [deref_none hb]; rfl
    | some B =>
      have := T.range _ _ (h.block b B hb).listed
      rw [deref_of hb] at he
      simp only at he
      omega
  unfold MetalImpl.getFreeBlockLocked getFreeBlockLocked
  dsimp only
  rw [hbefore, show (s.toMetal μ κ).pools = s.pools from rfl]
  generalize OrderedSet.lowerBound _ (s.pools k) = found
  cases found with
  | none => rfl
  | some b =>
    have hderef := deref_toMetal (μ := μ) (κ := κ) s b
    have hsize := congrArg MetalBlock.size hderef
    by_cases hstream : (s.deref b).stream ≠ stream
    · have hstream' : ((s.toMetal μ κ).deref b).stream ≠ stream := by rwa [hderef]
      simp only [if_pos hstream, if_pos hstream']
    · have hstream' : ¬ ((s.toMetal μ κ).deref b).stream ≠ stream := by rwa [hderef]
      simp only [if_neg hstream, if_neg hstream']
      exact congrArg (fun n ↦ (some b, ({ s.toMetal μ κ with
        pools := update s.pools k ((s.pools k).erase b) }.subBytesCached n).log
          (.handedOut b))) hsize

theorem shouldSplit_toMetal (s : Impl) (b : BlockId) (n : Nat) :
    (s.toMetal μ κ).shouldSplit b n = s.shouldSplit b n := by
  unfold MetalImpl.shouldSplit shouldSplit
  rw [deref_toMetal]
  rfl

/-- The split before the remainder is back in its pool. -/
private def cutBlock (s : Impl) (b : BlockId) (n : Nat) (B : CacheBlock) : Impl :=
  (((s.newBlock (front B b n)).modify? B.prev
    (fun p ↦ { p with next := some s.nextBlock })).modify b (fun r ↦ { r with
        prev := some s.nextBlock, ptr := r.ptr + n, size := SizeT.sub r.size n }))

private theorem cutBlock_plain (h : s.Plain T) (hb : s.heap b = some B) (n : Nat) :
    (s.cutBlock b n B).Plain T := by
  have hB := h.block b B hb
  have hnew : (s.newBlock (front B b n)).Plain T := h.newBlock ⟨⟨rfl, rfl⟩, hB.inside, hB.listed⟩
  have hlink := hnew.modify?_link B.prev
    (fun P ↦ ⟨P.prev, some s.nextBlock, rfl⟩)
  refine hlink.modify (fun R hR ↦ ?_)
  have hR := hlink.block b R hR
  exact ⟨hR.uses, Nat.le_trans hR.inside (Nat.le_add_right _ _), hR.listed⟩

/-- The remainder back in its pool. -/
private def poolRest (s : Impl) (k : PoolKind) (b : BlockId) : Impl :=
  let s := (s.poolInsert k b).log (.remainder b)
  s.addBytesCached (s.deref b).size

theorem splitBlock_plain (h : s.Plain T) (hb : s.heap b = some B) (n : Nat) :
    (s.splitBlock b n).Plain T := by
  unfold splitBlock
  rw [deref_of hb]
  exact (cutBlock_plain h hb n).congr rfl rfl rfl

theorem splitBlock_toMetal (h : s.Plain T) (hb : s.heap b = some B) (n : Nat) :
    (s.toMetal μ κ).splitBlock b n = (s.splitBlock b n).toMetal μ κ := by
  have hsplit : s.splitBlock b n = (s.cutBlock b n B).poolRest B.pool b := by
    unfold splitBlock
    rw [deref_of hb]
    rfl
  have hnewPlain : (s.newBlock (front B b n)).Plain T :=
    h.newBlock ⟨⟨rfl, rfl⟩, (h.block b B hb).inside, (h.block b B hb).listed⟩
  have hlinkPlain := hnewPlain.modify?_link B.prev (fun P ↦ ⟨P.prev, some s.nextBlock, rfl⟩)
  have hcut : (((s.toMetal μ κ).newBlock ((front B b n).toMetal μ)).modify? B.prev
      (fun p ↦ { p with next := some s.nextBlock })).modify b (fun r ↦ { r with
        prev := some s.nextBlock, ptr := r.ptr + n, size := sub r.size n }) =
      (s.cutBlock b n B).toMetal μ κ := by
    rw [newBlock_toMetal, modify?_toMetal (f := fun p ↦ { p with next := some s.nextBlock }) B.prev
      (fun _ ↦ rfl)]
    refine modify_toMetal (fun R hR ↦ ?_)
    have := (hlinkPlain.block b R hR).inside
    simp only [CacheBlock.toMetal, MetalBlock.mk.injEq, and_true]
    omega
  have hpool := poolInsert_toMetal (μ := μ) (κ := κ) (cutBlock_plain h hb n) B.pool b
  unfold MetalImpl.splitBlock
  rw [deref_toMetal, deref_of hb, hsplit]
  dsimp only
  rw [show (B.toMetal μ).prev = B.prev from rfl, show (B.toMetal μ).pool = B.pool from rfl,
    show (s.toMetal μ κ).nextBlock = s.nextBlock from rfl,
    show ({ ptr := (B.toMetal μ).ptr, size := n, stream := (B.toMetal μ).stream, pool := B.pool
            buffer := (B.toMetal μ).buffer, prev := B.prev, next := some b
            registrationCounter := (B.toMetal μ).registrationCounter } : MetalBlock) =
      (front B b n).toMetal μ from rfl, hcut, hpool, log_toMetal, deref_toMetal]
  rfl

/-- The table of live allocations after `p` has been added for block `b`. -/
def keysWith (keys : AList (fun _ : Nat ↦ BlockId)) (p : Nat) (b : BlockId) :
    AList (fun _ : Nat ↦ BlockId) :=
  if p ∈ keys then keys else keys.insert p b

theorem publishBlock_plain (h : s.Plain T) (b : BlockId) (n : Nat) : (s.publishBlock b n).Plain T :=
  (h.modify (f := fun b ↦ { b with allocated := true, requestedSize := n })
    (fun R hR ↦ ⟨(h.block _ R hR).uses, (h.block _ R hR).inside, (h.block _ R hR).listed⟩)).congr
      rfl rfl rfl

theorem publishBlock_toMetal (hb : s.heap b = some B) (n : Nat) : (s.toMetal μ κ).publishBlock b n =
      (s.publishBlock b n).toMetal μ (keysWith κ (B.toMetal μ).ptr b) := by
  have hmodify := modify_toMetal (s := s) (μ := μ) (κ := κ) (b := b)
    (f := fun b ↦ { b with allocated := true, requestedSize := n })
    (g := fun b ↦ { b with allocated := true, requestedSize := n }) (fun _ _ ↦ rfl)
  have hd : (s.modify b (fun b ↦ { b with allocated := true, requestedSize := n })).deref b =
      { B with allocated := true, requestedSize := n } := by
    simp [deref, modify, hb]
  unfold MetalImpl.publishBlock publishBlock
  rw [hmodify]
  dsimp only
  rw [deref_toMetal, hd]
  rfl

/-! ### Merging -/

/-- A neighbour that shares the segment, or none. -/
def SameSegment (s : Impl) (dst : BlockId) (src? : Option BlockId) : Prop :=
  ∀ src, src? = some src → ∃ S, s.heap src = some S ∧ S.segmentBase = (s.deref dst).segmentBase ∧
    S.registrationCounter = (s.deref dst).registrationCounter

/-- The end of a merge: the size, and the absorbed block leaves. -/
private theorem absorb_plain_toMetal (h : s.Plain T) (dst src n : Nat) :
    let t := s.modify dst (fun d ↦ { d with size := add d.size n })
    let u := ((t.poolErase (t.deref dst).pool src).deleteBlock src).log (.merged dst src)
    let t' := (s.toMetal μ κ).modify dst (fun d ↦ { d with size := add d.size n })
    u.Plain T ∧ ((t'.poolErase (t'.deref dst).pool src).deleteBlock src).log (.merged dst src) =
      u.toMetal μ κ := by
  have ht : (s.modify dst (fun d ↦ { d with size := add d.size n })).Plain T :=
    h.modify (fun R hR ↦ ⟨(h.block _ R hR).uses, (h.block _ R hR).inside, (h.block _ R hR).listed⟩)
  have hmodify := modify_toMetal (s := s) (μ := μ) (κ := κ) (b := dst)
    (f := fun d ↦ { d with size := add d.size n })
    (g := fun d ↦ { d with size := add d.size n }) (fun _ _ ↦ rfl)
  intro t u t'
  refine ⟨((ht.poolErase _ src).deleteBlock src).log _, ?_⟩
  have ht' : t' = t.toMetal μ κ := hmodify
  rw [ht', deref_toMetal]
  dsimp only [CacheBlock.toMetal]
  rw [poolErase_toMetal ht, deleteBlock_toMetal, log_toMetal]

/-- Absorbing a neighbour of the same segment. -/
theorem tryMergeLocked_plain_toMetal (h : s.Plain T) (dst : BlockId) (src? : Option BlockId)
    (hseg : s.SameSegment dst src?) : (s.tryMergeLocked dst src?).Plain T ∧
      (s.toMetal μ κ).tryMergeLocked dst src? = (s.tryMergeLocked dst src?).toMetal μ κ := by
  cases src? with
  | none => exact ⟨h, rfl⟩
  | some src =>
    obtain ⟨S, hS, hbase, hcounter⟩ := hseg src rfl
    obtain ⟨hevents, huses⟩ := (h.block src S hS).uses
    have hdst {D : CacheBlock} (hD : s.heap dst = some D) : S.segmentBase = D.segmentBase ∧
        S.registrationCounter = D.registrationCounter := by
      rw [deref_of hD] at hbase hcounter
      exact ⟨hbase, hcounter⟩
    have hbusy : (S.allocated || decide (0 < S.eventCount) || !S.streamUses.isEmpty) =
        S.allocated := by
      simp [hevents, huses]
    unfold tryMergeLocked MetalImpl.tryMergeLocked
    dsimp only
    rw [deref_toMetal, deref_toMetal, deref_of hS, hbusy]
    by_cases hal : S.allocated = true
    · have hal' : (S.toMetal μ).allocated = true := hal
      rw [if_pos hal, if_pos hal']
      exact ⟨h, rfl⟩
    have hal' : ¬ (S.toMetal μ).allocated = true := hal
    rw [if_neg hal, if_neg hal']
    by_cases hside : (s.deref dst).prev = some src
    · have hside' : ((s.deref dst).toMetal μ).prev = some src := hside
      rw [if_pos hside, if_pos hside']
      have hplain : (s.modify dst (fun d ↦ { d with ptr := S.ptr, prev := S.prev })).Plain T := by
        refine h.modify (fun D hD ↦ ⟨(h.block dst D hD).uses, ?_, (h.block dst D hD).listed⟩)
        exact (hdst hD).1 ▸ (h.block src S hS).inside
      have hmetal := modify_toMetal (s := s) (μ := μ) (κ := κ) (b := dst)
        (f := fun d ↦ { d with ptr := S.ptr, prev := S.prev })
        (g := fun d ↦ { d with ptr := (S.toMetal μ).ptr, prev := S.prev }) (fun D hD ↦ by
          simp only [CacheBlock.toMetal, (hdst hD).1, (hdst hD).2])
      rw [show (S.toMetal μ).prev = S.prev from rfl, hmetal,
        modify?_toMetal (f := fun p ↦ { p with next := some dst }) S.prev (fun _ ↦ rfl)]
      exact absorb_plain_toMetal (hplain.modify?_link S.prev
        (fun P ↦ ⟨P.prev, some dst, rfl⟩)) dst src S.size
    · have hside' : ¬ ((s.deref dst).toMetal μ).prev = some src := hside
      rw [if_neg hside, if_neg hside']
      have hplain : (s.modify dst (fun d ↦ { d with next := S.next })).Plain T :=
        h.modify (fun D hD ↦ ⟨(h.block dst D hD).uses, (h.block dst D hD).inside,
          (h.block dst D hD).listed⟩)
      have hmetal := modify_toMetal (s := s) (μ := μ) (κ := κ) (b := dst)
        (f := fun d ↦ { d with next := S.next })
        (g := fun d ↦ { d with next := S.next }) (fun _ _ ↦ rfl)
      rw [show (S.toMetal μ).next = S.next from rfl, hmetal,
        modify?_toMetal (f := fun p ↦ { p with prev := some dst }) S.next (fun _ ↦ rfl)]
      exact absorb_plain_toMetal (hplain.modify?_link S.next
        (fun P ↦ ⟨some dst, P.next, rfl⟩)) dst src S.size

theorem SameSegment.prev {l : Limbo} (h : s.WellFormed l) (hp : s.Plain T) (hb : s.heap b = some B) :
    s.SameSegment b B.prev := by
  intro src hsrc
  obtain ⟨E, hE, _, _, hbase, _⟩ := h.layout.prev_extent (extents_of hb) hsrc
  obtain ⟨S, hS, rfl⟩ := exists_of_extents hE
  refine ⟨S, hS, ?_, ?_⟩ <;> rw [deref_of hb]
  · exact hbase.symm
  · exact (T.same _ _ _ _ (hp.block src S hS).listed (hp.block b B hb).listed).mpr hbase.symm

theorem SameSegment.next {l : Limbo} (h : s.WellFormed l) (hp : s.Plain T) (hb : s.heap b = some B) :
    s.SameSegment b B.next := by
  intro src hsrc
  obtain ⟨E, hE, _, _, hbase, _⟩ := h.layout.next_link b _ src (extents_of hb) hsrc
  obtain ⟨S, hS, rfl⟩ := exists_of_extents hE
  refine ⟨S, hS, ?_, ?_⟩ <;> rw [deref_of hb]
  · exact hbase
  · exact (T.same _ _ _ _ (hp.block src S hS).listed (hp.block b B hb).listed).mpr hbase

/-- Freeing a block that waits for no event. -/
theorem freeBlockLocked_plain_toMetal {owed : Nat} (h : s.WellFormed (.freeing b owed))
    (hp : s.Plain T) (hb : s.heap b = some B) : (s.freeBlockLocked b).Plain T ∧
      (s.toMetal μ κ).freeBlockLocked b = (s.freeBlockLocked b).toMetal μ κ := by
  obtain ⟨hp₁, he₁⟩ := tryMergeLocked_plain_toMetal hp b B.prev (.prev h hp hb)
  obtain ⟨D, hm, _⟩ := h.mergePrev hb
  obtain ⟨hp₂, he₂⟩ := tryMergeLocked_plain_toMetal hp₁ b D.next
    (.next hm.wellFormed hp₁ hm.heap)
  unfold freeBlockLocked MetalImpl.freeBlockLocked
  dsimp only
  rw [deref_toMetal, deref_of hb, show (B.toMetal μ).prev = B.prev from rfl, he₁, deref_toMetal,
    deref_of hm.heap, show (D.toMetal μ).next = D.next from rfl, he₂, deref_toMetal]
  refine ⟨hp₂.congr rfl rfl rfl, ?_⟩
  rw [poolInsert_toMetal hp₂]
  rfl

/-! ### Giving segments back -/

theorem releaseSegmentLocked_toMetal (s : Impl) (b : BlockId) :
    (s.toMetal μ κ).releaseSegmentLocked b = (s.releaseSegmentLocked b).toMetal μ κ := by
  unfold MetalImpl.releaseSegmentLocked releaseSegmentLocked
  rw [deref_toMetal]
  exact congrArg (fun t ↦ t.log (.released b)) (deleteBlock_toMetal (({ s with
      driverSegments := s.driverSegments.erase
        (if (s.deref b).segmentBase ≠ 0 then (s.deref b).segmentBase else (s.deref b).ptr)
      stats := { s.stats with
        driverFrees := add s.stats.driverFrees 1
        cacheEvictions := add s.stats.cacheEvictions 1 } } : Impl).subBytesReserved
          (s.deref b).size) b)

/-- A pooled block leaves with its segment. -/
private theorem release_plain_toMetal (h : s.Plain T) (k : PoolKind) (b : BlockId) (n : Nat) :
    (((s.subBytesCached n).poolErase k b).releaseSegmentLocked b).Plain T ∧
      (((s.toMetal μ κ).subBytesCached n).poolErase k b).releaseSegmentLocked b =
        (((s.subBytesCached n).poolErase k b).releaseSegmentLocked b).toMetal μ κ := by
  have hsub : (s.subBytesCached n).Plain T := h.congr rfl rfl rfl
  refine ⟨((hsub.poolErase k b).deleteBlock b).congr rfl rfl rfl, ?_⟩
  rw [subBytesCached_toMetal, poolErase_toMetal hsub, releaseSegmentLocked_toMetal]

theorem releasePoolBlocksLocked_plain_toMetal (h : s.Plain T) (k : PoolKind) :
    (s.releasePoolBlocksLocked k).Plain T ∧
      (s.toMetal μ κ).releasePoolBlocksLocked k = (s.releasePoolBlocksLocked k).toMetal μ κ := by
  have hblock (s : Impl) (h : s.Plain T) (b : BlockId) : (s.releasePoolBlock k b).Plain T ∧
      (s.toMetal μ κ).releasePoolBlock k b = (s.releasePoolBlock k b).toMetal μ κ := by
    unfold releasePoolBlock MetalImpl.releasePoolBlock
    rw [deref_toMetal]
    by_cases hs : (s.deref b).isSplit = true
    · have hs' : ((s.deref b).toMetal μ).isSplit = true := hs
      rw [if_pos hs, if_pos hs']
      exact ⟨h, rfl⟩
    · have hs' : ¬ ((s.deref b).toMetal μ).isSplit = true := hs
      rw [if_neg hs, if_neg hs']
      exact release_plain_toMetal h k b _
  unfold releasePoolBlocksLocked MetalImpl.releasePoolBlocksLocked
  rw [show (s.toMetal μ κ).pools = s.pools from rfl]
  generalize s.pools k = l
  induction l generalizing s with
  | nil => exact ⟨h, rfl⟩
  | cons b l ih =>
    obtain ⟨hp, he⟩ := hblock s h b
    rw [List.foldl_cons, List.foldl_cons, he]
    exact ih hp

theorem releasePools_plain_toMetal (h : s.Plain T) :
    ((s.releasePoolBlocksLocked .small).releasePoolBlocksLocked .large).Plain T ∧
      (s.toMetal μ κ).releaseCachedBlocksLocked =
        ((s.releasePoolBlocksLocked .small).releasePoolBlocksLocked .large).toMetal μ κ := by
  obtain ⟨hp, he⟩ := releasePoolBlocksLocked_plain_toMetal h .small
  rw [MetalImpl.releaseCachedBlocksLocked, he]
  exact releasePoolBlocksLocked_plain_toMetal hp .large

theorem largestReleasable_toMetal (s : Impl) (l : List BlockId) :
    (s.toMetal μ κ).largestReleasable l = s.largestReleasable l := by
  unfold MetalImpl.largestReleasable largestReleasable
  congr 1
  funext victim b
  rw [deref_toMetal]
  cases victim with
  | none => rfl
  | some v =>
    dsimp only
    rw [deref_toMetal]
    rfl

theorem trimLoop_plain_toMetal (n : Nat) (h : s.Plain T) : (trimLoop n s).Plain T ∧
    MetalImpl.trimLoop n (s.toMetal μ κ) = (trimLoop n s).toMetal μ κ := by
  induction n generalizing s with
  | zero => exact ⟨h, rfl⟩
  | succ n ih =>
    unfold trimLoop MetalImpl.trimLoop
    rw [largestReleasable_toMetal]
    by_cases hover : s.maxCachedBytes < s.bytesCached
    · have hover' : (s.toMetal μ κ).maxCachedBytes < (s.toMetal μ κ).bytesCached := hover
      rw [if_pos hover, if_pos hover', show (s.toMetal μ κ).pools = s.pools from rfl]
      cases s.largestReleasable (s.pools .small ++ s.pools .large) with
      | none => exact ⟨h, rfl⟩
      | some v =>
        dsimp only
        rw [deref_toMetal]
        obtain ⟨hp, he⟩ := release_plain_toMetal h (s.deref v).pool v
          (s.deref v).size
        obtain ⟨hp', he'⟩ := ih hp
        exact ⟨hp', he' ▸ congrArg (MetalImpl.trimLoop n) he⟩
    · have hover' : ¬ (s.toMetal μ κ).maxCachedBytes < (s.toMetal μ κ).bytesCached := hover
      rw [if_neg hover, if_neg hover']
      exact ⟨h, rfl⟩

theorem trimCacheLocked_plain_toMetal (h : s.Plain T) : s.trimCacheLocked.Plain T ∧
    (s.toMetal μ κ).trimCacheLocked = s.trimCacheLocked.toMetal μ κ := by
  unfold trimCacheLocked MetalImpl.trimCacheLocked
  by_cases hmax : s.maxCachedBytes = max
  · have hmax' : (s.toMetal μ κ).maxCachedBytes = max := hmax
    rw [if_pos hmax, if_pos hmax']
    exact ⟨h, rfl⟩
  · have hmax' : ¬ (s.toMetal μ κ).maxCachedBytes = max := hmax
    rw [if_neg hmax, if_neg hmax']
    exact trimLoop_plain_toMetal _ h

end Impl
end Hisab.Memory
