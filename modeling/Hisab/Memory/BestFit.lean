import Hisab.Memory.FreeMemoryCallbacks
import Hisab.Memory.PoolOrder

/-!
# Best fit

`get_free_block_locked` takes the first block of the ordered pool that does not precede its key,
and so, of the blocks of the stream that are large enough, the least by size, registration counter
and address. Beside the machine it is noted for which stream and pool each segment was made: no
block ever moves to another.
-/

namespace Hisab.Memory
open Hisab.Base ExtentMap CachingConfig Function Impl Machine Option OrderedSet

/-- The stream and pool each segment was made for, by base address. -/
abbrev Origins := AList (fun _ : Nat ↦ Stream × PoolKind)

/-- A step that books a segment notes what it was made for. -/
def Origins.record (m : Machine) (op : Operation) (o : Origins) : Origins :=
  match op with
  | .resume t _ =>
    match m.threads t with
    | .fromDriver request (.segment raw) => o.insert raw.ptr (request.stream, request.pool)
    | _ => o
  | _ => o

namespace Impl

variable {s t r : Impl} {b c : BlockId} {B C : CacheBlock} {k : PoolKind} {d : DriverAnswers}
  {l : Limbo} {o : Origins} {request : SegmentRequest}

/-! ### The search -/

/-- A free block of the pool, on the stream, with room for `n` bytes. -/
structure Fits (s : Impl) (k : PoolKind) (stream : Stream) (n : Nat) (b : BlockId) : Prop where
  pooled : b ∈ s.pools k
  stream : (s.deref b).stream = stream
  size : n ≤ (s.deref b).size

/-- Smaller, or as large and registered earlier, or registered together and at a lower address. -/
def Precedes (B C : CacheBlock) : Prop :=
  B.size < C.size ∨ B.size = C.size ∧ (B.registrationCounter < C.registrationCounter ∨
    B.registrationCounter = C.registrationCounter ∧ B.ptr < C.ptr)

/-- The block fits and precedes all others that do. -/
structure BestFit (s : Impl) (k : PoolKind) (stream : Stream) (n : Nat) (b : BlockId) : Prop where
  fits : s.Fits k stream n b
  least : ∀ c, s.Fits k stream n c → c ≠ b → Precedes (s.deref b) (s.deref c)

theorem precedes_of_blockLt (hlt : s.blockLt b c = true)
    (hstream : (s.deref b).stream = (s.deref c).stream) : Precedes (s.deref b) (s.deref c) := by
  unfold blockLt cacheBlockComparator at hlt
  unfold Precedes
  grind

/-- The search returns the best fit, and nothing only if nothing fits. -/
theorem getFreeBlockLocked_spec (hs : s.PoolsSorted)
    (hcounter : ∀ b ∈ s.pools k, 0 ≤ (s.deref b).registrationCounter) (stream : Stream) (n : Nat) :
    (s.getFreeBlockLocked k stream n = (none, s) ∧ ∀ b, ¬s.Fits k stream n b) ∨
      ∃ b, s.getFreeBlockLocked k stream n = (some b, s.take k b) ∧ s.BestFit k stream n b := by
  -- a block that fits does not precede the key, whose counter is below every other
  have hafter {c : BlockId} (hc : s.Fits k stream n c) : cacheBlockComparator (s.deref c)
      { ptr := 0, size := n, stream, pool := k } = false := by
    have h₀ := hcounter c hc.pooled
    have hst := hc.stream
    have hsize := hc.size
    unfold cacheBlockComparator
    grind
  unfold getFreeBlockLocked
  dsimp only
  cases hlb : lowerBound (fun b ↦ cacheBlockComparator (s.deref b)
    { ptr := 0, size := n, stream, pool := k }) (s.pools k) with
  | none =>
    refine .inl ⟨rfl, fun b hb ↦ ?_⟩
    have hbefore := before_of_lowerBound_none hlb hb.pooled
    rw [hafter hb] at hbefore
    cases hbefore
  | some b =>
    have hm := mem_of_lowerBound hlb
    have hnb := not_before_of_lowerBound hlb
    have hleast {c : BlockId} (hc : s.Fits k stream n c) (hne : c ≠ b) : s.blockLt b c = true :=
      (lowerBound_least (hs k) hlb hc.pooled (hafter hc)).resolve_left hne
    dsimp only at hnb ⊢
    by_cases hst : (s.deref b).stream = stream
    · rw [if_neg (not_not.mpr hst)]
      have hfits : s.Fits k stream n b := by
        refine ⟨hm, hst, ?_⟩
        unfold cacheBlockComparator at hnb
        grind
      exact .inr ⟨b, rfl, hfits, fun c hc hne ↦
        precedes_of_blockLt (hleast hc hne) (hst.trans hc.stream.symm)⟩
    · rw [if_pos hst]
      refine .inl ⟨rfl, fun c hc ↦ ?_⟩
      have hne : c ≠ b := by
        rintro rfl
        exact hst hc.stream
      have hlt := hleast hc hne
      have hcst := hc.stream
      unfold blockLt cacheBlockComparator at hlt
      unfold cacheBlockComparator at hnb
      grind

/-! ### What blocks are made with -/

/-- The pools are ordered, and each block carries the stream and pool of its segment. -/
structure Arranged (s : Impl) (o : Origins) : Prop where
  sorted : s.PoolsSorted
  counter : 0 ≤ s.registrationCounterGlobal
  births : ∀ b B, s.heap b = some B →
    0 ≤ B.registrationCounter ∧ o.lookup B.segmentBase = some (B.stream, B.pool)

theorem births_congr (h : C.birth = B.birth) : C.stream = B.stream ∧ C.pool = B.pool ∧
    C.segmentBase = B.segmentBase ∧ C.registrationCounter = B.registrationCounter := by
  simp only [CacheBlock.birth, Prod.mk.injEq] at h
  exact h

namespace Arranged

theorem orderly (h : Arranged s o) (ho : Orderly s t) (hwf : t.WellFormed l) : Arranged t o := by
  refine ⟨ho.sorted h.sorted, ho.counter.symm ▸ h.counter, fun c C hC ↦ ?_⟩
  obtain ⟨B, hB, hbirth⟩ := ho.keeps.heap c (ho.next ▸ hwf.lt hC) C hC
  obtain ⟨hst, hpool, hbase, hcounter⟩ := births_congr hbirth
  rw [hst, hpool, hbase, hcounter]
  exact h.births c B hB

/-- The part carved off is made with what the block was made with. -/
theorem splitBlock (h : Arranged s o) (hwf : s.WellFormed (.taken b)) (hb : s.heap b = some B)
    {n : Nat} (hn : 0 < n) (hlt : n < B.size) : Arranged (s.splitBlock b n) o := by
  obtain ⟨-, hheap, -⟩ := hwf.splitBlock hb hn hlt
  have hcounter : (s.splitBlock b n).registrationCounterGlobal = s.registrationCounterGlobal := by
    rw [hwf.splitBlock_cut hb (Nat.le_of_lt hlt)]
    rfl
  refine ⟨splitBlock_sorted hwf hb (Nat.le_of_lt hlt) h.sorted, hcounter.symm ▸ h.counter,
    fun c C hC ↦ ?_⟩
  rw [hheap] at hC
  unfold splitHeap at hC
  split at hC
  · cases hC
    exact h.births b B hb
  · split at hC
    · cases hC
      exact h.births b B hb
    · split at hC
      · obtain ⟨X, hX, rfl⟩ := map_eq_some_iff.mp hC
        exact h.births c X hX
      · exact h.births c C hC

/-- A new segment is noted, and no old block lies in one with its base. -/
theorem registerSegment {request : SegmentRequest} {raw : RawSegment} (h : Arranged s o)
    (hwf : s.WellFormed .none) (hsize : 0 < raw.size)
    (hfree : ∀ base x, s.driverSegments.lookup base = some x →
      raw.ptr + raw.size ≤ base ∨ base + x.size ≤ raw.ptr) :
    Arranged (s.registerSegment request raw) (o.insert raw.ptr (request.stream, request.pool)) := by
  have hheap : (s.registerSegment request raw).heap = update s.heap s.nextBlock
      (some (s.segmentBlock request raw)) := rfl
  have h₀ := h.counter
  refine ⟨h.sorted.of_sublist (fun k ↦ .refl _) (fun k c hc ↦ ?_), ?_, fun c C hC ↦ ?_⟩
  · obtain ⟨C, hC, -⟩ := hwf.pool_live hc
    rw [deref, deref, hheap, update_of_ne (Nat.ne_of_lt (hwf.lt hC))]
  · change 0 ≤ s.registrationCounterGlobal + 1
    omega
  · rw [hheap, update_apply] at hC
    split at hC
    · cases hC
      refine ⟨?_, AList.lookup_insert _⟩
      change 0 ≤ s.registrationCounterGlobal + 1
      omega
    · obtain ⟨hcounter, hlookup⟩ := h.births c C hC
      refine ⟨hcounter, ?_⟩
      rw [AList.lookup_insert_ne, hlookup]
      obtain ⟨x, hx, hlo, hhi⟩ := hwf.layout.inside c C.extent (extents_of hC)
      obtain ⟨y, hy, rfl⟩ := map_eq_some_iff.mp hx
      change s.driverSegments.lookup C.segmentBase = some y at hy
      change C.segmentBase ≤ C.ptr at hlo
      change C.ptr + C.size ≤ C.segmentBase + y.size at hhi
      have hpos := hwf.layout.pos c _ (extents_of hC)
      change 0 < C.size at hpos
      have hapart := hfree _ y hy
      omega

end Arranged

/-! ### The calls -/

/-- The low end of the block is live: the whole block, or `n` bytes split off it. -/
def Carves (s r : Impl) (b : BlockId) (n : Nat) : Prop :=
  ∃ c C, r.allocatedBlocks.lookup (s.deref b).ptr = some c ∧ r.heap c = some C ∧
    C.birth = (s.deref b).birth ∧
    C.size = if s.shouldSplit b n then n else (s.deref b).size

/-- The block is carved, and what is over goes back to its pool. -/
theorem allocFoundBlockLocked_carves (ha : Arranged s o) (h : s.WellFormed (.taken b))
    (hb : s.heap b = some B) (size : Nat) {rounded : Nat} (hpos : 0 < rounded)
    (hle : rounded ≤ B.size) :
    Arranged (s.allocFoundBlockLocked b rounded size).2 o ∧
      ∃ c C, (s.allocFoundBlockLocked b rounded size).2.heap c = some C ∧ C.allocated = true ∧
        C.ptr = B.ptr ∧ C.birth = B.birth ∧
        C.size = if s.shouldSplit b rounded then rounded else B.size := by
  unfold allocFoundBlockLocked
  by_cases hs : s.shouldSplit b rounded = true
  · rw [if_pos hs, if_pos hs]
    have hlt := h.lt_of_shouldSplit hb hle hs
    obtain ⟨hwf, hheap, -⟩ := h.splitBlock hb hpos hlt
    have hfront : (s.splitBlock b rounded).heap s.nextBlock = some (front B b rounded) := by
      rw [hheap]
      simp [splitHeap]
    obtain ⟨hpublished, hpub, -⟩ := hwf.publishBlock hfront size
    constructor
    · exact (ha.splitBlock h hb hpos hlt).orderly (publishBlock_orderly _ _ _) hpublished
    · refine ⟨s.nextBlock, { front B b rounded with allocated := true, requestedSize := size }, ?_,
        rfl, rfl, rfl, rfl⟩
      exact (congrFun hpub s.nextBlock).trans (update_self ..)
  · rw [if_neg hs, if_neg hs]
    obtain ⟨hpublished, hpub, -⟩ := h.carved.publishBlock hb size
    constructor
    · exact ha.orderly (publishBlock_orderly _ _ _) hpublished
    · refine ⟨b, { B with allocated := true, requestedSize := size }, ?_, rfl, rfl, rfl, rfl⟩
      exact (congrFun hpub b).trans (update_self ..)

theorem finishAllocate_carves (ha : Arranged s o) (h : s.WellFormed (.taken b))
    (hb : s.heap b = some B) (size : Nat) {rounded : Nat} (hpos : 0 < rounded)
    (hle : rounded ≤ B.size) :
    Arranged (s.finishAllocate b rounded size).2 o ∧
      (s.finishAllocate b rounded size).1 = .returned (s.deref b).ptr ∧
      Carves s (s.finishAllocate b rounded size).2 b rounded := by
  obtain ⟨harranged, c, C, hC, hal, hptr, hbirth, hsize⟩ :=
    allocFoundBlockLocked_carves ha h hb size hpos hle
  obtain ⟨hreply, hfinished⟩ := finishAllocate_publishes h hb size hpos hle
  obtain ⟨-, hpub⟩ := allocFoundBlockLocked_publishes h hb size hpos hle
  have htrim := releaseClosed_orderly.trimCacheLocked hpub.wellFormed
  obtain ⟨(hp : Progress (fun _ ↦ False) _ _), -⟩ := trimCacheLocked_progress hpub.wellFormed
  obtain ⟨X, hX, hu⟩ := map_eq_some_iff.mp (hp.evolves.live c C hC hal)
  have hXal := congrArg CacheBlock.allocated hu
  have hXptr := congrArg CacheBlock.ptr hu
  have hXbirth := congrArg CacheBlock.birth hu
  have hXsize := congrArg CacheBlock.size hu
  rw [Carves, deref_of hb]
  refine ⟨harranged.orderly htrim hfinished.wellFormed, hreply, c, X, ?_, hX,
    hXbirth.trans hbirth, hXsize.trans hsize⟩
  exact ((hfinished.wellFormed.placed.at_block c).allocated_iff _).mpr
    ⟨X, hX, hXal.trans hal, hXptr.trans hptr⟩

/-- The block found in the pool is handed out. -/
theorem hit_carves (size : Nat) {n : Nat} (ha : Arranged s o) (h : s.WellFormed .none)
    (hm : b ∈ s.pools k) (hpos : 0 < n) (hle : n ≤ (s.deref b).size) :
    Arranged ((s.take k b).countHit.finishAllocate b n size).2 o ∧
      ((s.take k b).countHit.finishAllocate b n size).1 = .returned (s.deref b).ptr ∧
      Carves s ((s.take k b).countHit.finishAllocate b n size).2 b n := by
  obtain ⟨B, hB, -⟩ := h.pool_live hm
  rw [deref_of hB] at hle
  obtain ⟨htaken, -⟩ := h.take hm
  have hcounted : (s.take k b).countHit.WellFormed (.taken b) := htaken.congr rfl
  have harranged : Arranged (s.take k b).countHit o :=
    ha.orderly ((take_orderly s k b).trans (.of_heap rfl rfl rfl rfl)) hcounted
  exact finishAllocate_carves harranged hcounted hB size hpos hle

theorem releaseCachedBlocksLocked_orderly {result : Except Exn Unit} (h : s.WellFormed .none)
    (hr : s.releaseCachedBlocksLocked d = (result, r)) : Orderly s r := by
  obtain ⟨t, -, hfrees, hreleases⟩ :=
    releaseCachedBlocksLocked_closed freeClosed_orderly releaseClosed_orderly h hr
  rcases hreleases with rfl | ⟨-, hreleases⟩
  · exact hfrees
  · exact hfrees.trans hreleases

theorem dropLock_orderly (s : Impl) (request : SegmentRequest) :
    Orderly s (s.dropLock request).2 := by
  unfold dropLock
  split
  · exact .of_heap rfl rfl rfl rfl
  · exact .refl s

/-- The call asks the driver for a segment or throws. -/
def Declines (request : SegmentRequest) (reply : Reply) : Prop :=
  reply = .unlocked request ∨ ∃ e, reply = .threw e

theorem missCache_orderly (request : SegmentRequest) (h : s.WellFormed .none) :
    Orderly s (s.missCache d request).2 ∧ Declines request (s.missCache d request).1 := by
  have hmiss : Orderly s { s with stats := { s.stats with
      cacheMisses := SizeT.add s.stats.cacheMisses 1 } } := .of_heap rfl rfl rfl rfl
  unfold missCache
  generalize hu : ({ s with stats := { s.stats with
    cacheMisses := SizeT.add s.stats.cacheMisses 1 } } : Impl) = u at hmiss ⊢
  have hwf : u.WellFormed .none := hu ▸ h.congr rfl
  by_cases hexceeds : u.reservedWouldExceedLocked request.allocSize = true
  · rw [if_pos hexceeds]
    rcases hf : u.releaseCachedBlocksLocked d with ⟨x | _, f⟩
    · exact ⟨hmiss.trans (releaseCachedBlocksLocked_orderly hwf hf), .inr ⟨x, rfl⟩⟩
    · have hflush := hmiss.trans (releaseCachedBlocksLocked_orderly hwf hf)
      dsimp only
      split
      · exact ⟨hflush.trans (.of_heap rfl rfl rfl rfl), .inr ⟨_, rfl⟩⟩
      · exact ⟨hflush.trans (dropLock_orderly f request), .inl rfl⟩
  · rw [if_neg hexceeds]
    exact ⟨hmiss.trans (dropLock_orderly u request), .inl rfl⟩

/-- What an `allocate` that searched `s` last replies, and the state it leaves. -/
def Reuses (s : Impl) (size : Nat) (stream : Stream) (reply : Reply) (r : Impl) : Prop :=
  let request := segmentRequest size stream
  (∃ b, s.BestFit request.pool stream request.rounded b ∧ reply = .returned (s.deref b).ptr ∧
    Carves s r b request.rounded) ∨
  (∀ b, ¬s.Fits request.pool stream request.rounded b) ∧ Declines request reply

theorem retryCache_reuses (freed : Bool) {size : Nat} (stream : Stream) (ha : Arranged s o)
    (h : s.WellFormed .none) (hfit : RoundingFits size) (hf : FrontFails d s.cudaEvents) :
    Arranged (s.retryCache d freed size stream).2 o ∧
      (freed = true → Reuses s size stream (s.retryCache d freed size stream).1
        (s.retryCache d freed size stream).2) ∧
      (freed = false → Declines (segmentRequest size stream) (s.retryCache d freed size stream).1) := by
  have hwf : (s.retryCache d freed size stream).2.WellFormed .none :=
    (retryCache_serves h hfit rfl hf).wellFormed
  obtain ⟨hmiss, hdeclines⟩ := missCache_orderly (segmentRequest size stream) h
  cases freed with
  | false =>
    refine ⟨ha.orderly hmiss hwf, fun hx ↦ ?_, fun _ ↦ hdeclines⟩
    cases hx
  | true =>
    refine and_assoc.mp ⟨?_, nofun⟩
    have hcounter (b : BlockId) (hb : b ∈ s.pools (segmentRequest size stream).pool) :
        0 ≤ (s.deref b).registrationCounter := by
      obtain ⟨B, hB, -⟩ := h.pool_live hb
      rw [deref_of hB]
      exact (ha.births b B hB).1
    unfold retryCache at hwf ⊢
    rw [if_pos rfl] at hwf ⊢
    rcases getFreeBlockLocked_spec ha.sorted hcounter stream
      (segmentRequest size stream).rounded with ⟨hg, hnone⟩ | ⟨b, hg, hbest⟩
    · rw [hg] at hwf ⊢
      exact ⟨ha.orderly hmiss hwf, fun _ ↦ .inr ⟨hnone, hdeclines⟩⟩
    · rw [hg]
      obtain ⟨harranged, hreply, hcarves⟩ :=
        hit_carves size ha h hbest.fits.pooled hfit.round_pos hbest.fits.size
      exact ⟨harranged, fun _ ↦ .inl ⟨b, hbest, hreply, hcarves⟩⟩

/-- Once drained, `allocate` searches as after callbacks that have freed memory. -/
theorem allocate_of_drained {size : Nat} (stream : Stream) (hsize : size ≠ 0)
    (hp : s.processEventsLocked d = (.ok (), t)) :
    s.allocate d size stream = t.retryCache d true size stream := by
  unfold allocate
  rw [if_neg hsize, hp]
  rfl

theorem allocate_arranged {size : Nat} {stream : Stream} (ha : Arranged s o)
    (h : s.WellFormed .none) (hfit : RoundingFits size)
    (hf : FrontFails d (unready d s.cudaEvents)) : Arranged (s.allocate d size stream).2 o := by
  by_cases hsize : size = 0
  · rw [allocate, if_pos hsize]
    exact ha
  · have hdrain := freeClosed_orderly.processEventsLocked (d := d) h
    rcases hp : s.processEventsLocked d with ⟨x | _, t⟩
    · rw [hp] at hdrain
      obtain ⟨hprogress, -⟩ := processEventsLocked_progress h hp
      rw [allocate, if_neg hsize, hp]
      exact ha.orderly hdrain hprogress.wellFormed
    · rw [hp] at hdrain
      obtain ⟨hprogress, -⟩ := processEventsLocked_progress h hp
      rw [allocate_of_drained stream hsize hp]
      exact (retryCache_reuses true stream (ha.orderly hdrain hprogress.wellFormed) hprogress.wellFormed hfit
        (hf.drained hp)).1

/-- The driver has no memory, or the device could not be entered. -/
theorem resumeAllocate_failed_orderly {answer : MallocAnswer} (h : s.WellFormed .none)
    (hanswer : ∀ raw, answer ≠ .segment raw) : Orderly s (s.resumeAllocate d request answer).2 := by
  unfold resumeAllocate
  cases answer with
  | segment raw => exact absurd rfl (hanswer raw)
  | failed err =>
    dsimp only
    split
    · exact .refl s
    · split
      · exact .of_heap rfl rfl rfl rfl
      · rcases hf : s.releaseCachedBlocksLocked d with ⟨x | _, f⟩
        · exact releaseCachedBlocksLocked_orderly h hf
        · exact (releaseCachedBlocksLocked_orderly h hf).trans (dropLock_orderly f _)
  | guard answer =>
    dsimp only
    split
    · exact .refl s
    · exact .refl s

/-- Only with a segment the call returns. -/
theorem resumeAllocate_failed_reply {answer : MallocAnswer} {p : Nat}
    (hanswer : ∀ raw, answer ≠ .segment raw) :
    (s.resumeAllocate d request answer).1 ≠ .returned p := by
  unfold resumeAllocate
  cases answer with
  | segment raw => exact absurd rfl (hanswer raw)
  | failed err =>
    dsimp only
    split
    · exact nofun
    · split
      · exact nofun
      · rcases s.releaseCachedBlocksLocked d with ⟨x | _, f⟩
        · exact nofun
        · exact nofun
  | guard answer =>
    dsimp only
    split
    · exact nofun
    · exact nofun

/-- The new segment is noted before its low end is handed out. -/
theorem resumeAllocate_segment_carves {raw : RawSegment} (ha : Arranged s o)
    (h : s.WellFormed .none) (hv : request.Valid) (hptr : 0 < raw.ptr)
    (hsize : request.allocSize ≤ raw.size) (hbound : raw.ptr + raw.size ≤ SizeT.modulus)
    (hfree : ∀ base x, s.driverSegments.lookup base = some x → raw.ptr + raw.size ≤ base ∨ base + x.size ≤ raw.ptr)
    : Arranged (s.resumeAllocate d request (.segment raw)).2
        (o.insert raw.ptr (request.stream, request.pool)) ∧
      (s.resumeAllocate d request (.segment raw)).1 = .returned raw.ptr ∧
      Carves (s.registerSegment request raw) (s.resumeAllocate d request (.segment raw)).2
        s.nextBlock request.rounded := by
  have hle : request.rounded ≤ raw.size := Nat.le_trans hv.rounded_le hsize
  have hpos : 0 < raw.size := Nat.lt_of_lt_of_le hv.rounded_pos hle
  obtain ⟨hwf, hheap, -⟩ := h.registerSegment request hptr hpos hbound hfree
  obtain ⟨harranged, hreply, hcarves⟩ := finishAllocate_carves (ha.registerSegment h hpos hfree)
    hwf hheap request.size hv.rounded_pos hle
  rw [deref_of hheap] at hreply
  exact ⟨harranged, hreply, hcarves⟩

theorem beginFree_orderly (s : Impl) (p : Nat) (b : BlockId) (hint : Stream) :
    Orderly s (s.beginFree p b hint) := by
  have hcleared : Orderly s (s.modify b (fun B ↦ { B with allocated := false })) :=
    .modify s b (fun _ ↦ rfl) (fun _ ↦ rfl)
  unfold beginFree
  dsimp only
  split
  · apply hcleared.trans
    apply Orderly.trans _ (Orderly.modify _ b
      (g := fun B ↦ { B with streamUses := insertStream hint B.streamUses })
      (fun _ ↦ rfl) (fun _ ↦ rfl))
    exact .of_heap rfl rfl rfl rfl
  · exact hcleared.trans (.of_heap rfl rfl rfl rfl)

theorem deallocateBlock_orderly {reply : Reply} {hint : Stream} (h : s.WellFormed .none)
    (hB : s.heap b = some B) (hal : B.allocated = true)
    (hguard : deviceGuard d.insertGuard = .ok ()) (hrec : ∀ st, d.record st = .success)
    (hr : s.deallocateBlock d B.ptr b hint = (reply, r)) : Orderly s r := by
  have hbegin := beginFree_orderly s B.ptr b hint
  obtain ⟨hfree, hevents⟩ := freeClosed_orderly.freed hint h hB hal hguard hrec
  cases handsBack_deallocateBlock h hB hal hguard hr with
  | free huses _ hwf =>
    exact hbegin.trans ((hfree huses).trans (releaseClosed_orderly.trimCacheLocked hwf))
  | failed _ _ hi =>
    rw [hi] at hevents
    exact hbegin.trans hevents
  | waits _ _ hi hwf =>
    rw [hi] at hevents
    exact hbegin.trans (hevents.trans (releaseClosed_orderly.trimCacheLocked hwf))

theorem deallocate_orderly {p : Nat} {hint : Stream} (h : s.WellFormed .none)
    (hguard : deviceGuard d.insertGuard = .ok ()) (hrec : ∀ st, d.record st = .success) :
    Orderly s (s.deallocate d p hint).2 := by
  have hdrain := freeClosed_orderly.processEventsLocked (d := d) h
  unfold deallocate
  split
  · exact .refl s
  · rcases hpe : s.processEventsLocked d with ⟨x | _, t⟩
    · rw [hpe] at hdrain
      exact hdrain
    · rw [hpe] at hdrain
      obtain ⟨hprogress, -⟩ := processEventsLocked_progress h hpe
      dsimp only
      cases hlookup : t.allocatedBlocks.lookup p with
      | none => exact hdrain
      | some b =>
        obtain ⟨B, hB, hal, rfl⟩ := hprogress.wellFormed.live_of_lookup hlookup
        dsimp only
        rw [deref_of hB, hal]
        exact hdrain.trans (deallocateBlock_orderly hprogress.wellFormed hB hal hguard hrec rfl)

theorem recordStream_orderly (s : Impl) (p : Nat) (stream : Stream) :
    Orderly s (s.recordStream p stream).2 := by
  unfold recordStream
  split
  · exact .refl s
  · split
    · exact .refl s
    · split
      · exact .refl s
      · exact .modify s _ (fun _ ↦ rfl) (fun _ ↦ rfl)

theorem emptyCache_orderly (h : s.WellFormed .none) : Orderly s (s.emptyCache d).2 := by
  unfold emptyCache
  rcases hf : s.releaseCachedBlocksLocked d with ⟨x | _, f⟩
  · exact releaseCachedBlocksLocked_orderly h hf
  · exact releaseCachedBlocksLocked_orderly h hf

theorem setMaxCachedBytes_orderly (h : s.WellFormed .none) (bytes : Nat) :
    Orderly s (s.setMaxCachedBytes bytes) := by
  have hset : Orderly s { s with maxCachedBytes := bytes } := .of_heap rfl rfl rfl rfl
  have hwf : ({ s with maxCachedBytes := bytes } : Impl).WellFormed .none := h.congr rfl
  exact hset.trans (releaseClosed_orderly.trimCacheLocked hwf)

end Impl

/-! ### Runs -/

/-- Without a new segment nothing is noted. -/
theorem Origins.record_failed {m : Machine} {t : ThreadId} {request : SegmentRequest}
    {answer : MallocAnswer} (ht : m.threads t = .fromDriver request answer)
    (hanswer : ∀ raw, answer ≠ .segment raw) (d : DriverAnswers) (o : Origins) :
    Origins.record m (.resume t d) o = o := by
  unfold Origins.record
  dsimp only
  rw [ht]
  cases answer with
  | segment raw => exact absurd rfl (hanswer raw)
  | failed err | guard answer => rfl

theorem Origins.record_segment {m : Machine} {t : ThreadId} {request : SegmentRequest}
    {raw : RawSegment} (ht : m.threads t = .fromDriver request (.segment raw))
    (d : DriverAnswers) (o : Origins) :
    Origins.record m (.resume t d) o = o.insert raw.ptr (request.stream, request.pool) := by
  unfold Origins.record
  dsimp only
  rw [ht]

namespace Machine

variable {m m' : Machine} {op : Operation} {reply : Reply} {o : Origins}

/-- A step without callbacks. -/
theorem Consistent.arranged (h : m.Consistent) (ha : m.impl.Arranged o)
    (hadm : m.Admissible op) (hr : m.run op = some (reply, m')) (hb : op.Benign m) :
    m'.impl.Arranged (Origins.record m op o) := by
  have hafter := (step_spec h hadm hr (hb.safe reply)).consistent.impl
  cases op with
  | allocate t size stream d =>
    obtain ⟨-, r, hi, rfl⟩ := run_allocate hr
    exact hi ▸ allocate_arranged ha h.impl hb.1 hb.2
  | mallocSegment t answer =>
    obtain ⟨request, -, rfl, rfl⟩ := run_mallocSegment hr
    exact ha
  | resume t d =>
    unfold run at hr
    dsimp only at hr
    split at hr
    · next request answer ht =>
      have hv := h.requests t request (by rw [ht]; rfl)
      cases hr
      by_cases hanswer : ∀ raw, answer ≠ .segment raw
      · rw [Origins.record_failed ht hanswer]
        exact ha.orderly (resumeAllocate_failed_orderly h.impl hanswer) hafter
      · simp only [not_forall, not_not] at hanswer
        obtain ⟨raw, rfl⟩ := hanswer
        have hp : (m.threads t).pending = some (request.allocSize, raw) := by rw [ht]; rfl
        obtain ⟨hptr, hsize, hbound, hfree⟩ := h.pending t _ raw hp
        obtain ⟨harranged, -⟩ :=
          resumeAllocate_segment_carves (d := d) ha h.impl hv hptr hsize hbound hfree
        rw [Origins.record_segment ht]
        exact harranged
    · cases hr
  | deallocate p hint d =>
    cases hr
    exact ha.orderly (deallocate_orderly h.impl hb.1 hb.2) hafter
  | recordStream p stream =>
    cases hr
    exact ha.orderly (recordStream_orderly _ p stream) hafter
  | emptyCache d =>
    cases hr
    exact ha.orderly (emptyCache_orderly h.impl) hafter
  | setMaxCachedBytes bytes =>
    cases hr
    exact ha.orderly (setMaxCachedBytes_orderly h.impl bytes) hafter
  | setMemoryFraction allowed | resetPeakStats | submit stream | rehash queues =>
    cases hr
    exact ha.orderly (.of_heap rfl rfl rfl rfl) hafter

end Machine

/-- The allocator with the notes of what each segment was made for. -/
abbrev originsCudaAllocator : TransitionSystem (Machine × Origins) (Operation × Reply) :=
  notedCudaAllocator Origins.record ∅

theorem callbackInvariant_arranged :
    CallbackInvariant Origins.record (fun x ↦ x.1.Consistent ∧ x.1.impl.Arranged x.2) := by
  have hconsistent := callbackInvariant_consistent Origins.record
  constructor
  · rintro m ⟨op, reply⟩ m' o ⟨hm, ha⟩ hs
    obtain ⟨⟨hadm, hr⟩, hb⟩ := hs
    exact ⟨hconsistent.plain _ _ _ o hm ⟨⟨hadm, hr⟩, hb⟩, hm.arranged ha hadm hr hb⟩
  · rintro m d s o ⟨hm, ha⟩ hp
    have hdrain := freeClosed_orderly.processEventsLocked (d := d) hm.impl
    rw [hp] at hdrain
    have hdrained := hconsistent.drained _ _ _ o hm hp
    exact ⟨hdrained, ha.orderly hdrain hdrained.impl⟩
  · rintro m t size stream d freed o ⟨hm, ha⟩ hreturns
    exact ⟨hconsistent.returns _ _ _ _ _ freed o hm hreturns,
      (retryCache_reuses freed stream ha hm.impl hreturns.fits hreturns.front).1⟩

variable {x : Machine × Origins}

theorem arranged_of_callbacks (h : originsCudaAllocator.Reachable x) :
    x.1.Consistent ∧ x.1.impl.Arranged x.2 := by
  apply callbackInvariant_arranged.reachable _ h
  rintro m ⟨maxCachedBytes, rfl⟩
  refine ⟨initial_consistent maxCachedBytes, fun k ↦ ?_, Int.le_refl 0, fun b B hB ↦ ?_⟩
  · cases k with
    | small | large => exact .nil
  · cases hB

/-! ### Reuse -/

/-- The stream and pool the operation wants memory of. -/
def Machine.Requests (m : Machine) (stream : Stream) (k : PoolKind) : Operation → Prop
  | .allocate _ size st _ => st = stream ∧ (Impl.segmentRequest size st).pool = k
  | .resume t _ => ∃ request answer, m.threads t = .fromDriver request answer ∧
      request.stream = stream ∧ request.pool = k
  | _ => False

/-- The live block at `p` lies in a segment that was made for the stream and pool. -/
def HandsOutFrom (x : Machine × Origins) (p : Nat) (stream : Stream) (k : PoolKind) : Prop :=
  ∃ c C raw, x.1.impl.allocatedBlocks.lookup p = some c ∧ x.1.impl.heap c = some C ∧
    C.ptr = p ∧ C.stream = stream ∧ C.pool = k ∧
    x.1.impl.driverSegments.lookup C.segmentBase = some raw ∧ C.segmentBase ≤ p ∧
    p + C.size ≤ C.segmentBase + raw.size ∧ x.2.lookup C.segmentBase = some (stream, k)

theorem handsOutFrom_of_birth (hx : x.1.Consistent) (ha : x.1.impl.Arranged x.2) {p : Nat}
    {c : BlockId} {C : CacheBlock} (hc : x.1.impl.allocatedBlocks.lookup p = some c)
    (hC : x.1.impl.heap c = some C) : HandsOutFrom x p C.stream C.pool := by
  obtain ⟨X, hX, -, hptr⟩ := ((hx.impl.placed.at_block c).allocated_iff p).mp hc
  rw [hC] at hX
  cases hX
  obtain ⟨y, hy, hlo, hhi⟩ := hx.impl.layout.inside c C.extent (extents_of hC)
  obtain ⟨raw, hraw, rfl⟩ := map_eq_some_iff.mp hy
  change C.segmentBase ≤ C.ptr at hlo
  change C.ptr + C.size ≤ C.segmentBase + raw.size at hhi
  rw [hptr] at hlo hhi
  exact ⟨c, C, raw, hc, hC, hptr, rfl, rfl, hraw, hlo, hhi, (ha.births c C hC).2⟩

/-- What is carved keeps the stream and the pool. -/
theorem handsOutFrom_of_carves {s : Impl} {b : BlockId} {n : Nat} (hx : x.1.Consistent)
    (ha : x.1.impl.Arranged x.2) (hc : s.Carves x.1.impl b n) :
    HandsOutFrom x (s.deref b).ptr (s.deref b).stream (s.deref b).pool := by
  obtain ⟨c, C, hlookup, hC, hbirth, -⟩ := hc
  obtain ⟨hstream, hpool, -⟩ := births_congr hbirth
  rw [← hstream, ← hpool]
  exact handsOutFrom_of_birth hx ha hlookup hC

theorem handsOutFrom_of_reuses {s : Impl} {size p : Nat} {stream : Stream} (hs : s.WellFormed .none)
    (hx : x.1.Consistent) (ha : x.1.impl.Arranged x.2)
    (h : s.Reuses size stream (.returned p) x.1.impl) :
    HandsOutFrom x p stream (Impl.segmentRequest size stream).pool := by
  rcases h with ⟨b, hbest, hreply, hcarves⟩ | ⟨-, hreply | ⟨e, hreply⟩⟩
  · obtain ⟨B, hB, hpool, -⟩ := hs.pool_live hbest.fits.pooled
    have hout := handsOutFrom_of_carves hx ha hcarves
    rw [hbest.fits.stream] at hout
    rw [deref_of hB] at hout hreply
    cases hreply
    rw [← hpool]
    exact hout
  · cases hreply
  · cases hreply

/-- `allocate` without callbacks, once the completed events are drained. -/
theorem Machine.Consistent.allocate_reuses {m m' : Machine} {o : Origins} {t : ThreadId}
    {size : Nat} {stream : Stream} {d : DriverAnswers} {reply : Reply} {s : Impl}
    (h : m.Consistent) (ha : m.impl.Arranged o) (hsize : size ≠ 0)
    (hs : benignCudaAllocator.step m (.allocate t size stream d, reply) m')
    (hp : m.impl.processEventsLocked d = (.ok (), s)) :
    s.WellFormed .none ∧ s.Reuses size stream reply m'.impl := by
  obtain ⟨⟨-, hr⟩, hfit, hfront⟩ := hs
  obtain ⟨hprogress, -⟩ := processEventsLocked_progress h.impl hp
  have hdrain := freeClosed_orderly.processEventsLocked (d := d) h.impl
  rw [hp] at hdrain
  obtain ⟨-, hreuses, -⟩ := retryCache_reuses true stream
    (ha.orderly hdrain hprogress.wellFormed) hprogress.wellFormed hfit (hfront.drained hp)
  refine ⟨hprogress.wellFormed, ?_⟩
  obtain ⟨-, r, hi, rfl⟩ := run_allocate hr
  rw [allocate_of_drained stream hsize hp] at hi
  rw [hi] at hreuses
  exact hreuses rfl

/-- An `allocate` that returns has drained the completed events. -/
theorem Impl.allocate_returned {s r : Impl} {d : DriverAnswers} {size p : Nat} {stream : Stream}
    (h : s.allocate d size stream = (.returned p, r)) :
    size ≠ 0 ∧ ∃ t, s.processEventsLocked d = (.ok (), t) := by
  unfold allocate at h
  by_cases hsize : size = 0
  · rw [if_pos hsize] at h
    cases h
  · rw [if_neg hsize] at h
    refine ⟨hsize, ?_⟩
    rcases hp : s.processEventsLocked d with ⟨x | _, t⟩
    · rw [hp] at h
      cases h
    · exact ⟨t, rfl⟩

theorem Impl.recordStream_reply (s : Impl) (q : Nat) (stream : Stream) (p : Nat) :
    (s.recordStream q stream).1 ≠ .returned p := by
  unfold recordStream
  split
  · exact nofun
  · split
    · exact nofun
    · split
      · exact nofun
      · exact nofun

theorem Impl.emptyCache_reply (s : Impl) (d : DriverAnswers) (p : Nat) :
    (s.emptyCache d).1 ≠ .returned p := by
  unfold emptyCache
  rcases s.releaseCachedBlocksLocked d with ⟨x | _, t⟩
  · exact nofun
  · exact nofun

/-- Memory that a step without callbacks returns. -/
theorem Machine.Consistent.plain_handsOut {m m' : Machine} {o : Origins} {op : Operation} {p : Nat}
    (h : m.Consistent) (ha : m.impl.Arranged o)
    (hs : benignCudaAllocator.step m (op, .returned p) m') :
    ∃ stream k, m.Requests stream k op ∧ HandsOutFrom (m', Origins.record m op o) p stream k := by
  obtain ⟨hm', ha'⟩ := callbackInvariant_arranged.plain m _ m' o ⟨h, ha⟩ hs
  have hr := hs.1.2
  cases op with
  | allocate t size stream d =>
    refine ⟨stream, _, ⟨rfl, rfl⟩, ?_⟩
    obtain ⟨-, r, hi, -⟩ := run_allocate hr
    obtain ⟨hsize, t', hp⟩ := allocate_returned hi
    obtain ⟨hwf, hreuses⟩ := h.allocate_reuses ha hsize hs hp
    exact handsOutFrom_of_reuses hwf hm' ha' hreuses
  | resume t d =>
    unfold run at hr
    dsimp only at hr
    split at hr
    · next request answer ht =>
      refine ⟨request.stream, request.pool, ⟨request, answer, ht, rfl, rfl⟩, ?_⟩
      have hv := h.requests t request (by rw [ht]; rfl)
      have hreply := congrArg Prod.fst (some.inj hr)
      have hafter := congrArg Prod.snd (some.inj hr)
      change (m.impl.resumeAllocate d request answer).1 = .returned p at hreply
      by_cases hanswer : ∀ raw, answer ≠ .segment raw
      · exact absurd hreply (resumeAllocate_failed_reply hanswer)
      · simp only [not_forall, not_not] at hanswer
        obtain ⟨raw, rfl⟩ := hanswer
        have hpending : (m.threads t).pending = some (request.allocSize, raw) := by rw [ht]; rfl
        obtain ⟨hptr, hsize, hbound, hfree⟩ := h.pending t _ raw hpending
        obtain ⟨-, hraw, hcarves⟩ :=
          resumeAllocate_segment_carves ha h.impl hv hptr hsize hbound hfree
        rw [hraw] at hreply
        cases hreply
        have himpl : m'.impl = (m.impl.resumeAllocate d request (.segment raw)).2 :=
          congrArg Machine.impl hafter.symm
        rw [← himpl] at hcarves
        have hout := handsOutFrom_of_carves hm' ha' hcarves
        have hnew : (m.impl.registerSegment request raw).deref m.impl.nextBlock =
            m.impl.segmentBlock request raw :=
          deref_of (update_self ..)
        rw [hnew] at hout
        exact hout
    · cases hr
  | mallocSegment t answer =>
    obtain ⟨-, -, hreply, -⟩ := run_mallocSegment hr
    cases hreply
  | deallocate q hint d =>
    have hreply := congrArg Prod.fst (some.inj hr)
    have hf : Impl.Frees (Impl.Completes d) m.impl q (m.impl.deallocate d q hint).1
        (m.impl.deallocate d q hint).2 :=
      deallocate_frees h.impl hs.2.1 rfl (fun _ _ _ ↦ hs.2.2)
    rcases hf.outcome with hdone | ⟨x, hthrew⟩
    · cases hdone.symm.trans hreply
    · cases hthrew.symm.trans hreply
  | recordStream q stream =>
    exact absurd (congrArg Prod.fst (some.inj hr)) (recordStream_reply _ q stream p)
  | emptyCache d => exact absurd (congrArg Prod.fst (some.inj hr)) (emptyCache_reply _ d p)
  | setMaxCachedBytes bytes => cases hr
  | setMemoryFraction allowed | resetPeakStats | submit stream | rehash queues => cases hr

/-- The machine after an operation that can start. -/
theorem Machine.run_of_reply {m : Machine} {op : Operation} {reply : Reply}
    (h : (m.run op).map Prod.fst = some reply) : m.run op = some (reply, m.next op) := by
  obtain ⟨⟨reply', m'⟩, hm, rfl⟩ := map_eq_some_iff.mp h
  rw [next, hm]
  rfl

/-- Memory that any step returns. -/
theorem handsOut_of_step {x y : Machine × Origins} {l : Operation × Reply} {p : Nat}
    (h : x.1.Consistent) (ha : x.1.impl.Arranged x.2) (hs : CallbackStep Origins.record x l y)
    (hp : l.2 = .returned p) :
    ∃ stream k, x.1.Requests stream k l.1 ∧ HandsOutFrom y p stream k := by
  cases hs with
  | plain hs =>
    obtain ⟨op, reply⟩ := l
    subst hp
    exact h.plain_handsOut ha hs
  | callbacks freed hmiss hrun hreturns =>
    obtain ⟨hn, hna⟩ := CallbackRun.invariant callbackInvariant_arranged
      (callbackInvariant_arranged.drained _ _ _ _ ⟨h, ha⟩ hmiss.drained) hrun
    obtain ⟨hy, hya⟩ := callbackInvariant_arranged.returns _ _ _ _ _ freed _ ⟨hn, hna⟩ hreturns
    refine ⟨_, _, ⟨rfl, rfl⟩, ?_⟩
    obtain ⟨-, htrue, hfalse⟩ := retryCache_reuses freed _ hna hn.impl hreturns.fits hreturns.front
    dsimp only at hp
    cases freed with
    | false =>
      rcases hfalse rfl with hreply | ⟨e, hreply⟩
      · cases hreply.symm.trans hp
      · cases hreply.symm.trans hp
    | true =>
      have hreuses := htrue rfl
      rw [hp] at hreuses
      exact handsOutFrom_of_reuses hn.impl hy hya hreuses
  | threw e hmiss hrun hidle => cases hp

/-- In every state of a benign run with callbacks: `allocate` takes the best fit of its pool as
last searched, after draining or after callbacks that report freed memory, and turns to the driver
or throws only if nothing fits; and memory that is returned comes from a segment made for the same
stream and pool. -/
theorem allocate_takes_best_fit {x : Machine × Origins} (hx : originsCudaAllocator.Reachable x) :
    (∀ t size stream d reply m' s, size ≠ 0 →
      benignCudaAllocator.step x.1 (.allocate t size stream d, reply) m' →
      x.1.impl.processEventsLocked d = (.ok (), s) → s.Reuses size stream reply m'.impl) ∧
    (∀ t size stream d s n o, x.1.Misses t size stream d s →
      CallbackRun Origins.record t ({ x.1 with impl := s }, x.2) (n, o) → n.Returns t size d →
      n.impl.Reuses size stream (n.impl.retryCache d true size stream).1
        (n.impl.retryCache d true size stream).2 ∧
      Impl.Declines (Impl.segmentRequest size stream) (n.impl.retryCache d false size stream).1) ∧
    (∀ l y p, CallbackStep Origins.record x l y → l.2 = .returned p →
      ∃ stream k, x.1.Requests stream k l.1 ∧ HandsOutFrom y p stream k) := by
  obtain ⟨h, ha⟩ := arranged_of_callbacks hx
  refine ⟨?_, ?_, ?_⟩
  · intro t size stream d reply m' s hsize hs hp
    exact (h.allocate_reuses ha hsize hs hp).2
  · intro t size stream d s n o hmiss hrun hreturns
    obtain ⟨hn, hna⟩ := CallbackRun.invariant callbackInvariant_arranged
      (callbackInvariant_arranged.drained _ _ _ _ ⟨h, ha⟩ hmiss.drained) hrun
    obtain ⟨-, htrue, -⟩ := retryCache_reuses true stream hna hn.impl
      hreturns.fits hreturns.front
    obtain ⟨-, -, hfalse⟩ := retryCache_reuses false stream hna hn.impl
      hreturns.fits hreturns.front
    exact ⟨htrue rfl, hfalse rfl⟩
  · intro l y p hs hp
    exact handsOut_of_step h ha hs hp

/-- A second request of 1000 bytes is cut from the low end of what the first has left. -/
theorem oneBlock_takes_best_fit : oneBlock.impl.Reuses 1000 1 (.returned 5120)
    (oneBlock.next (.allocate 0 1000 1 {})).impl := by
  have hb : benignCudaAllocator.Reachable oneBlock :=
    oneBlock_reachable.restrict_mono (fun m _ ho ↦ ho.benign m)
  obtain ⟨o, ho⟩ := noted_of_benign Origins.record ∅ hb
  have hs : oneBlock.run (.allocate 0 1000 1 {}) =
      some (.returned 5120, oneBlock.next (.allocate 0 1000 1 {})) := by
    apply run_of_reply
    decide
  exact (allocate_takes_best_fit ho).1 0 1000 1 {} (.returned 5120) _ oneBlock.impl (by decide)
    ⟨⟨trivial, hs⟩, (show Operation.Ordinary (.allocate 0 1000 1 {}) from
      ⟨by decide, errorFree_default⟩).benign _⟩ rfl

/-- A segment of 10 MiB, handed out whole to stream 1. -/
def oneLarge : Machine :=
  ((({} : Machine).next (.allocate 0 10485760 1 {})).next
    (.mallocSegment 0 (.segment { ptr := 4096, size := 10485760 }))).next (.resume 0 {})

theorem oneLarge_reachable : ordinaryCudaAllocator.Reachable oneLarge := by
  have h₀ : ordinaryCudaAllocator.Reachable {} := .of_init ⟨_, rfl⟩
  have h₁ := reachable_next h₀ (.allocate 0 10485760 1 {}) trivial
    ⟨by decide, errorFree_default⟩ rfl
  have h₂ := reachable_next h₁
    (.mallocSegment 0 (.segment { ptr := 4096, size := 10485760 })) ?_ trivial rfl
  · exact reachable_next h₂ (.resume 0 {}) trivial errorFree_default rfl
  · intro request hr
    cases hr
    refine ⟨by decide, by decide, by decide, fun base r hb ↦ (by cases hb), fun t request r ht ↦ ?_⟩
    have hthreads : (({} : Machine).next (.allocate 0 10485760 1 {})).threads =
        update (fun _ ↦ .idle) 0 (.inDriver (segmentRequest 10485760 1)) := rfl
    rw [hthreads, update_apply] at ht
    split at ht
    · cases ht
    · cases ht

/-- A callback that frees the block but does not say so: the driver is asked although the pool holds
a fit. And over the cap on memory the call throws without asking, though nothing fits. -/
theorem unreported_memory_not_reused :
    (¬ ∀ x s n o t size stream d freed, originsCudaAllocator.Reachable x →
      x.1.Misses t size stream d s →
      CallbackRun Origins.record t ({ x.1 with impl := s }, x.2) (n, o) → n.Returns t size d →
      ((∀ request, (n.impl.retryCache d freed size stream).1 ≠ .unlocked request) ↔
        ∃ b, n.impl.Fits (Impl.segmentRequest size stream).pool stream
          (Impl.segmentRequest size stream).rounded b)) ∧
    ¬ ∀ m m' t size stream d reply s, benignCudaAllocator.Reachable m →
      benignCudaAllocator.step m (.allocate t size stream d, reply) m' →
      m.impl.processEventsLocked d = (.ok (), s) →
      ((∀ request, reply ≠ .unlocked request) ↔
        ∃ b, s.Fits (Impl.segmentRequest size stream).pool stream
          (Impl.segmentRequest size stream).rounded b) := by
  constructor
  · intro hall
    have hb : benignCudaAllocator.Reachable oneLarge :=
      oneLarge_reachable.restrict_mono (fun m _ ho ↦ ho.benign m)
    obtain ⟨o, ho⟩ := noted_of_benign Origins.record ∅ hb
    have hfree : oneLarge.run (.deallocate 4096 1 {}) =
        some (.done, oneLarge.next (.deallocate 4096 1 {})) := by
      apply run_of_reply
      decide
    have hmiss : oneLarge.Misses 0 10485760 1 {} oneLarge.impl := ⟨rfl, by decide, rfl, by decide⟩
    have hstep : benignCudaAllocator.step oneLarge (.deallocate 4096 1 {}, .done)
        (oneLarge.next (.deallocate 4096 1 {})) := ⟨⟨trivial, hfree⟩, rfl, fun _ ↦ rfl⟩
    have hreturns : (oneLarge.next (.deallocate 4096 1 {})).Returns 0 10485760 {} :=
      ⟨rfl, by decide, errorFree_default.frontFails _⟩
    have h := (hall (oneLarge, o) oneLarge.impl (oneLarge.next (.deallocate 4096 1 {})) o 0
      10485760 1 {} false ho hmiss
      (.step (l := (.deallocate 4096 1 {}, .done)) trivial (CallbackStep.plain hstep) (.refl _ _))
      hreturns).mpr ⟨0, by decide, by decide, by decide⟩
    exact h (segmentRequest 10485760 1) (by decide)
  · intro hall
    have hr : benignCudaAllocator.Reachable (({} : Machine).next (.setMemoryFraction 0)) := by
      have h₀ : benignCudaAllocator.Reachable {} := .of_init ⟨_, rfl⟩
      exact h₀.step (l := (.setMemoryFraction 0, .done)) ⟨⟨trivial, rfl⟩, trivial⟩
    have h := (hall _ _ 0 1000 1 {} (.threw .badAlloc) _ hr
      ⟨⟨trivial, run_of_reply (by decide)⟩, by decide, errorFree_default.frontFails _⟩ rfl).mp
      nofun
    obtain ⟨b, hb⟩ := h
    cases hb.pooled

end Hisab.Memory
