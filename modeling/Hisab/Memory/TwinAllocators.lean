import Hisab.Memory.MetalOperations

/-!
# Both allocators side by side

One program calls both allocators in lockstep, on the default stream. A segment allocation
succeeds on both sides or on neither, with exactly the requested size, and a call that
names memory names the same place of the same segment on both sides. `Mirror` is the
invariant: the Metal allocator is the image of the CUDA one.
-/

namespace Hisab.Memory
open Hisab.Base CachingConfig

/-! ### Statistics -/

/-- The copy of `unified_cache_stats` that `stats()` returns. -/
structure StatsCopy where
  counters : UnifiedCacheStats
  bytesCached : Nat
  cacheBlocks : Nat
  inactiveSplitBytes : Nat
  deriving DecidableEq, Repr

/-- `stats`, `cuda_caching_allocator.cpp:742–764`. -/
def Impl.statsCopy (s : Impl) : StatsCopy :=
  { counters := { s.stats with peakBytesCached := s.peakBytesCached }
    bytesCached := s.bytesCached
    cacheBlocks := SizeT.add (s.pools .small).length (s.pools .large).length
    inactiveSplitBytes := (s.pools .small ++ s.pools .large).foldl (fun n b ↦
      if (s.deref b).isSplit then SizeT.add n (s.deref b).size else n) 0 }

/-- `stats`, `metal_caching_allocator.mm:427–448`. -/
def MetalImpl.statsCopy (s : MetalImpl) : StatsCopy :=
  { counters := { s.stats with peakBytesCached := s.peakBytesCached }
    bytesCached := s.bytesCached
    cacheBlocks := SizeT.add (s.pools .small).length (s.pools .large).length
    inactiveSplitBytes := (s.pools .small ++ s.pools .large).foldl (fun n b ↦
      if (s.deref b).isSplit then SizeT.add n (s.deref b).size else n) 0 }

/-- Flushes that synchronized streams are not counted. -/
def StatsCopy.withoutSyncs (c : StatsCopy) : StatsCopy :=
  { c with counters := { c.counters with numSyncAllStreams := 0 } }

theorem Impl.statsCopy_toMetal {μ : Buffers} {keys : AList (fun _ : Nat ↦ BlockId)} (s : Impl) :
    (s.toMetal μ keys).statsCopy = s.statsCopy.withoutSyncs := by
  unfold MetalImpl.statsCopy Impl.statsCopy StatsCopy.withoutSyncs
  simp only [Impl.deref_toMetal]
  rfl

/-! ### Places -/

/-- Address `p` is `offset` bytes into the segment with this number. -/
def Impl.At (s : Impl) (p : Nat) (number : Int) (offset : Nat) : Prop :=
  ∃ b B, s.heap b = some B ∧ B.ptr ≤ p ∧ p < B.ptr + B.size ∧
    B.registrationCounter = number ∧ p = B.segmentBase + offset

@[inherit_doc Impl.At]
def MetalImpl.At (s : MetalImpl) (p : Nat) (number : Int) (offset : Nat) : Prop :=
  ∃ b B, s.heap b = some B ∧ B.ptr ≤ p ∧ p < B.ptr + B.size ∧
    B.registrationCounter = number ∧ p = B.buffer.contents + offset

/-- Segment, offset, size and liveness of a block. -/
def CacheBlock.place (B : CacheBlock) : Int × Nat × Nat × Bool :=
  (B.registrationCounter, B.ptr - B.segmentBase, B.size, B.allocated)

@[inherit_doc CacheBlock.place]
def MetalBlock.place (B : MetalBlock) : Int × Nat × Nat × Bool :=
  (B.registrationCounter, B.ptr - B.buffer.contents, B.size, B.allocated)

/-! ### Lockstep -/

/-- The allocators, each with the segment it has asked for, if any. -/
structure Twin where
  cuda : Impl := {}
  metal : MetalImpl := {}
  cudaRequest : Option SegmentRequest := none
  metalRequest : Option SegmentRequest := none

/-- One segment allocation: served at these addresses, or failed, on both sides. -/
inductive SegmentOutcome where
  | served (ptr contents : Nat) (vm : Bool)
  | failed (err : CudaError)
  deriving DecidableEq, Repr

namespace SegmentOutcome

/-- What `malloc_segment` answers. -/
def cuda (request : SegmentRequest) : SegmentOutcome → MallocAnswer
  | served ptr _ vm => .segment { ptr, size := request.allocSize, vm }
  | failed err => .failed err

/-- What `make_heap_buffer` answers. -/
def metal (request : SegmentRequest) : SegmentOutcome → Option MetalBuffer
  | served _ contents _ => some { contents, length := request.allocSize }
  | failed _ => none

end SegmentOutcome

/-- A call of the program on both sides, or the drivers' answer to both. -/
inductive TwinCall where
  | allocate (size : Nat) (d : DriverAnswers)
  | answer (outcome : SegmentOutcome) (d : DriverAnswers)
  | deallocate (p q : Nat) (d : DriverAnswers)
  | emptyCache (d : DriverAnswers)
  | setMaxCachedBytes (bytes : Nat)
  | resetPeakStats

/-- The segment a reply asks for. -/
def Reply.request : Reply → Option SegmentRequest
  | .unlocked request => some request
  | _ => none

namespace Twin

def settle (r : Reply × Impl) (r' : Reply × MetalImpl) : (Reply × Reply) × Twin :=
  ((r.1, r'.1),
    { cuda := r.2, metal := r'.2, cudaRequest := r.1.request, metalRequest := r'.1.request })

/-- Both sides of a call; an answer is for the segments both have asked for, every other
call needs both to be idle. -/
def run (w : Twin) : TwinCall → Option ((Reply × Reply) × Twin)
  | .answer outcome d =>
    match w.cudaRequest, w.metalRequest with
    | some request, some request' =>
      some (settle (w.cuda.resumeAllocate d request (outcome.cuda request))
        (w.metal.resumeAllocate request' (outcome.metal request')))
    | _, _ => none
  | .allocate size d =>
    if w.cudaRequest = none ∧ w.metalRequest = none then
      some (settle (w.cuda.allocate d size 0) (w.metal.allocate size))
    else none
  | .deallocate p q d =>
    if w.cudaRequest = none ∧ w.metalRequest = none then
      some (settle (w.cuda.deallocate d p 0) (w.metal.deallocate q))
    else none
  | .emptyCache d =>
    if w.cudaRequest = none ∧ w.metalRequest = none then
      some (settle (w.cuda.emptyCache d) w.metal.emptyCache)
    else none
  | .setMaxCachedBytes bytes =>
    if w.cudaRequest = none ∧ w.metalRequest = none then
      some (settle (.done, w.cuda.setMaxCachedBytes bytes) (.done, w.metal.setMaxCachedBytes bytes))
    else none
  | .resetPeakStats =>
    if w.cudaRequest = none ∧ w.metalRequest = none then
      some (settle (.done, w.cuda.resetPeakStats) (.done, w.metal.resetPeakStats))
    else none

/-- The same place of the same segment, or no place of any. -/
def SamePlace (w : Twin) (p q : Nat) : Prop :=
  (∃ number offset, w.cuda.At p number offset ∧ w.metal.At q number offset) ∨
    ((∀ number offset, ¬ w.cuda.At p number offset) ∧
      (∀ number offset, ¬ w.metal.At q number offset) ∧ (p = 0 ↔ q = 0))

/-- The drivers return memory that is not in use; calls name the same place. -/
def Admissible (w : Twin) : TwinCall → Prop
  | .answer (.served ptr contents _) _ =>
    (∀ request, w.cudaRequest = some request → 0 < ptr ∧ ptr + request.allocSize ≤ SizeT.modulus ∧
      ∀ base r, w.cuda.driverSegments.lookup base = some r →
        ptr + request.allocSize ≤ base ∨ base + r.size ≤ ptr) ∧
    (∀ request, w.metalRequest = some request → 0 < contents ∧
      ∀ b B, w.metal.heap b = some B → contents + request.allocSize ≤ B.buffer.contents ∨
          B.buffer.contents + B.buffer.length ≤ contents)
  | .answer (.failed err) _ => err ≠ .success
  | .deallocate p q _ => w.SamePlace p q
  | _ => True

/-- Both sides end alike: the same place returned, the same segment asked for, both thrown. -/
def Agrees (w : Twin) : Reply × Reply → Prop
  | (.returned p, .returned q) => ∃ number offset, w.cuda.At p number offset ∧
      w.metal.At q number offset
  | (.unlocked request, .unlocked request') => request = request'
  | (.threw .badAlloc, .threw .badAlloc) => True
  | (.threw (.check _), .threw (.check _)) => True
  | (.done, .done) => True
  | _ => False

/-- The same counters, the same blocks at the same places, created, merged and released in
the same order, and the same segment asked for. -/
structure Matches (w : Twin) : Prop where
  stats : w.metal.statsCopy = w.cuda.statsCopy.withoutSyncs
  history : w.metal.history = w.cuda.history
  blocks : ∀ b, (w.metal.heap b).map MetalBlock.place = (w.cuda.heap b).map CacheBlock.place
  requests : w.metalRequest = w.cudaRequest

end Twin

/-- Both allocators from the same limits, under every behaviour of the drivers. -/
def twinAllocators : TransitionSystem Twin (TwinCall × (Reply × Reply)) where
  init w := ∃ maxCachedBytes allowedMemoryMaximum, w =
    { cuda := { maxCachedBytes, allowedMemoryMaximum }
      metal := { maxCachedBytes, allowedMemoryMaximum } }
  step w l w' := w.Admissible l.1 ∧ w.run l.1 = some (l.2, w')

/-- The rounding of a request does not wrap, and the driver has no other error than being
out of memory. -/
def TwinCall.Ordinary : TwinCall → Prop
  | .allocate size d => RoundingFits size ∧ d.ErrorFree
  | .answer (.failed err) d => err = .memoryAllocation ∧ d.ErrorFree
  | .answer (.served ..) _ => True
  | .deallocate _ _ d => d.ErrorFree
  | .emptyCache d => d.ErrorFree
  | _ => True

/-- The allocators in ordinary runs. -/
def ordinaryTwinAllocators : TransitionSystem Twin (TwinCall × (Reply × Reply)) :=
  twinAllocators.restrict (fun _ l ↦ l.1.Ordinary)

/-! ### The buffers behind the segments -/

/-- The buffers of the segments of `T` are as long as the segments, and apart. -/
structure Backed (μ : Buffers) (T : SegmentTable) (segments : Nat → RawSegment → Prop) : Prop where
  length : ∀ base n raw, T.has base n → segments base raw → (μ.buffer n).length = raw.size
  positive : ∀ base n, T.has base n → 0 < (μ.buffer n).contents
  apart : ∀ a m b n, T.has a m → T.has b n → m ≠ n →
    (μ.buffer m).contents + (μ.buffer m).length ≤ (μ.buffer n).contents ∨
      (μ.buffer n).contents + (μ.buffer n).length ≤ (μ.buffer m).contents

/-- Segment `raw` is in `driver_segments_`. -/
def Impl.Owns (s : Impl) (base : Nat) (raw : RawSegment) : Prop :=
  s.driverSegments.lookup base = some raw

namespace Impl

variable {μ : Buffers} {T : SegmentTable} {s r : Impl} {l : Limbo} {a b : BlockId}
  {A B : CacheBlock} {keys : AList (fun _ : Nat ↦ BlockId)}

/-- A block lies in its buffer. -/
theorem Plain.inside_buffer (h : s.WellFormed l) (hp : s.Plain T) (hm : Backed μ T s.Owns)
    (hb : s.heap b = some B) :
    B.ptr - B.segmentBase + B.size ≤ (μ.buffer B.registrationCounter).length := by
  obtain ⟨size, hr, hlo, hhi⟩ := h.layout.inside b B.extent (extents_of hb)
  obtain ⟨raw, hraw, rfl⟩ := Option.map_eq_some_iff.mp hr
  have hlength := hm.length B.segmentBase B.registrationCounter raw (hp.block b B hb).listed hraw
  simp only [CacheBlock.extent] at hlo hhi
  omega

/-- Blocks that meet on Metal are one block. -/
theorem Plain.eq_of_meet (h : s.WellFormed l) (hp : s.Plain T) (hm : Backed μ T s.Owns)
    (ha : s.heap a = some A) (hb : s.heap b = some B) {x : Nat}
    (hxa : (A.toMetal μ).ptr ≤ x ∧ x < (A.toMetal μ).ptr + A.size)
    (hxb : (B.toMetal μ).ptr ≤ x ∧ x < (B.toMetal μ).ptr + B.size) : a = b := by
  have hA := hp.block a A ha
  have hB := hp.block b B hb
  have hina := hp.inside_buffer h hm ha
  have hinb := hp.inside_buffer h hm hb
  simp only [CacheBlock.toMetal] at hxa hxb
  have hnumber : A.registrationCounter = B.registrationCounter := by
    by_contra hne
    have := hm.apart _ _ _ _ hA.listed hB.listed hne
    omega
  have hbase := (T.same _ _ _ _ hA.listed hB.listed).mp hnumber
  have hia := hA.inside
  have hib := hB.inside
  rw [hnumber] at hxa
  by_contra hne
  have hd := h.layout.disjoint a A.extent b B.extent (extents_of ha) (extents_of hb) hne
  simp only [CacheBlock.extent] at hd
  omega

/-- The Metal table of live allocations is that of the image. -/
def Keyed (μ : Buffers) (keys : AList (fun _ : Nat ↦ BlockId)) (s : Impl) : Prop :=
  ∀ q b, keys.lookup q = some b ↔
    ∃ B, s.heap b = some B ∧ B.allocated = true ∧ (B.toMetal μ).ptr = q

theorem toMetal_ptr_eq {X : CacheBlock} (hptr : X.ptr = B.ptr) (hbase : X.segmentBase = B.segmentBase)
    (hcounter : X.registrationCounter = B.registrationCounter) :
    (X.toMetal μ).ptr = (B.toMetal μ).ptr := by
  simp only [CacheBlock.toMetal, hptr, hbase, hcounter]

/-- A live block that is kept, wherever it is looked for. -/
theorem KeepsLive.place (hk : s.KeepsLive r) (hb : s.heap b = some B) (hal : B.allocated = true) :
    ∃ X, r.heap b = some X ∧ X.allocated = true ∧ X.ptr = B.ptr ∧
      (X.toMetal μ).ptr = (B.toMetal μ).ptr := by
  obtain ⟨X, hX, hXal, hptr, hbase, hcounter⟩ := place_of_unlinked (hk b B hb hal)
  exact ⟨X, hX, hXal.trans hal, hptr, toMetal_ptr_eq hptr hbase hcounter⟩

theorem Keyed.kept (h : Keyed μ keys s) (hs : s.WellFormed .none) (hr : r.WellFormed .none)
    (hk : s.KeepsLive r) (hall : r.allocatedBlocks = s.allocatedBlocks) : Keyed μ keys r := by
  intro q b
  rw [h q b]
  constructor
  · rintro ⟨B, hB, hal, rfl⟩
    obtain ⟨X, hX, hXal, _, hptr⟩ := hk.place hB hal
    exact ⟨X, hX, hXal, hptr⟩
  · rintro ⟨X, hX, hXal, rfl⟩
    have hlookup := ((hr.placed.at_block b).allocated_iff X.ptr).mpr ⟨X, hX, hXal, rfl⟩
    rw [hall] at hlookup
    obtain ⟨B, hB, hal, _⟩ := hs.live_of_lookup hlookup
    obtain ⟨Y, hY, _, _, hptr⟩ := hk.place hB hal
    rw [hX] at hY
    cases hY
    exact ⟨B, hB, hal, hptr.symm⟩

variable {gained : Option RawSegment} {c : BlockId} {C : CacheBlock} {x : Reply × Impl}
  {x' : Reply × MetalImpl}

theorem Keyed.handedOut (h : Keyed μ keys s) (hs : s.WellFormed .none)
    (hout : HandedOut μ T keys gained s B x x' c C) (hm : Backed μ T x.2.Owns) :
    Keyed μ (keysWith keys (B.toMetal μ).ptr c) x.2 := by
  obtain ⟨hptr, hbase, hcounter⟩ := hout.place
  have hplace := toMetal_ptr_eq (μ := μ) hptr hbase hcounter
  have hpos := hout.wellFormed.pos hout.block
  have hnew : (B.toMetal μ).ptr ∉ keys := by
    rw [← AList.lookup_eq_none]
    by_contra hsome
    obtain ⟨b, hb⟩ := Option.ne_none_iff_exists'.mp hsome
    obtain ⟨A, hA, hal, hq⟩ := (h _ b).mp hb
    obtain ⟨X, hX, _, _, hXptr⟩ := hout.kept.place (μ := μ) hA hal
    have hXpos := hout.wellFormed.pos hX
    have heq := hout.plain.eq_of_meet hout.wellFormed hm hX hout.block
      (x := (B.toMetal μ).ptr) (by omega) (by omega)
    subst heq
    have := hout.fresh A hA
    rw [hal] at this
    cases this
  intro q b
  rw [keysWith, if_neg hnew]
  by_cases hq : q = (B.toMetal μ).ptr
  · subst hq
    rw [AList.lookup_insert]
    constructor
    · rintro heq
      cases heq
      exact ⟨C, hout.block, hout.allocated, hplace⟩
    · rintro ⟨X, hX, _, hXptr⟩
      have hXpos := hout.wellFormed.pos hX
      rw [hout.plain.eq_of_meet hout.wellFormed hm hX hout.block
        (x := (B.toMetal μ).ptr) (by omega) (by omega)]
  · rw [AList.lookup_insert_ne hq, h q b]
    constructor
    · rintro ⟨A, hA, hal, rfl⟩
      obtain ⟨X, hX, hXal, _, hXptr⟩ := hout.kept.place hA hal
      exact ⟨X, hX, hXal, hXptr⟩
    · rintro ⟨X, hX, hXal, rfl⟩
      have hlookup := ((hout.wellFormed.placed.at_block b).allocated_iff X.ptr).mpr
        ⟨X, hX, hXal, rfl⟩
      have hne : X.ptr ≠ B.ptr := by
        intro he
        have hcb := hout.wellFormed.ptr_inj hX hout.block (he.trans hptr.symm)
        subst hcb
        rw [hout.block] at hX
        cases hX
        exact hq hplace
      rw [hout.keys, AList.lookup_insert_ne hne] at hlookup
      obtain ⟨A, hA, hal, _⟩ := hs.live_of_lookup hlookup
      obtain ⟨Y, hY, _, _, hptr'⟩ := hout.kept.place hA hal
      rw [hX] at hY
      cases hY
      exact ⟨A, hA, hal, hptr'.symm⟩

/-- What is live after a free was live before it, at the same place. -/
theorem HandedBack.origin {q : Nat} (hout : HandedBack μ T keys s b B q x x')
    (hs : s.WellFormed .none) (hb : s.heap b = some B) (hA : x.2.heap a = some A)
    (hal : A.allocated = true) :
    a ≠ b ∧ ∃ X, s.heap a = some X ∧ X.allocated = true ∧
      (A.toMetal μ).ptr = (X.toMetal μ).ptr := by
  have hlookup := ((hout.wellFormed.placed.at_block a).allocated_iff A.ptr).mpr ⟨A, hA, hal, rfl⟩
  rw [hout.keys] at hlookup
  have hne : A.ptr ≠ B.ptr := by
    intro he
    rw [he, AList.lookup_erase] at hlookup
    cases hlookup
  rw [AList.lookup_erase_ne hne] at hlookup
  obtain ⟨X, hX, hXal, hXptr⟩ := hs.live_of_lookup hlookup
  have hab : a ≠ b := by
    rintro rfl
    rw [hb] at hX
    cases hX
    exact hne hXptr.symm
  obtain ⟨Y, hY, _, hptr, hbase, hcounter⟩ := place_of_unlinked (hout.kept a X hab hX hXal)
  rw [hA] at hY
  cases hY
  exact ⟨hab, X, hX, hXal, toMetal_ptr_eq hptr hbase hcounter⟩

theorem Keyed.handedBack (h : Keyed μ keys s) (hs : s.WellFormed .none) (hb : s.heap b = some B)
    (hal : B.allocated = true) (hout : HandedBack μ T keys s b B (B.toMetal μ).ptr x x') :
    Keyed μ (keys.erase (B.toMetal μ).ptr) x.2 := by
  have hown : keys.lookup (B.toMetal μ).ptr = some b := (h _ b).mpr ⟨B, hb, hal, rfl⟩
  intro q a
  by_cases hq : q = (B.toMetal μ).ptr
  · subst hq
    refine iff_of_false (by simp) ?_
    rintro ⟨X, hX, hXal, hXptr⟩
    obtain ⟨hab, A, hA, hAal, hptr⟩ := hout.origin hs hb hX hXal
    have := (h (B.toMetal μ).ptr a).mpr ⟨A, hA, hAal, hptr.symm.trans hXptr⟩
    rw [hown] at this
    cases this
    exact hab rfl
  · rw [AList.lookup_erase_ne hq, h q a]
    constructor
    · rintro ⟨A, hA, hAal, rfl⟩
      have hab : a ≠ b := by
        rintro rfl
        rw [hb] at hA
        cases hA
        exact hq rfl
      obtain ⟨X, hX, hXal, hptr, hbase, hcounter⟩ := place_of_unlinked (hout.kept a A hab hA hAal)
      exact ⟨X, hX, hXal.trans hAal, toMetal_ptr_eq hptr hbase hcounter⟩
    · rintro ⟨X, hX, hXal, rfl⟩
      obtain ⟨_, A, hA, hAal, hptr⟩ := hout.origin hs hb hX hXal
      exact ⟨A, hA, hAal, hptr.symm⟩

end Impl
end Hisab.Memory
