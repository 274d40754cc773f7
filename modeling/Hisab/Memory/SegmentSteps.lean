import Hisab.Memory.BlockSteps
import Hisab.Memory.CudaAllocatorMachine

/-!
# Segments come and go

A segment of the driver enters as one block in hand and leaves when a pooled block without
neighbours spans it.
-/

namespace Hisab.Memory
open Hisab.Base ExtentMap Function RangeSum BlockPhase

namespace Impl

variable {s : Impl} {b : BlockId} {B : CacheBlock} {k : PoolKind}

/-- The block of a new segment. -/
def segmentBlock (s : Impl) (request : SegmentRequest) (raw : RawSegment) : CacheBlock :=
  { ptr := raw.ptr, size := raw.size, stream := request.stream, pool := request.pool
    segmentBase := raw.ptr, vmBacked := raw.vm
    registrationCounter := s.registrationCounterGlobal + 1 }

private def registered (s : Impl) (request : SegmentRequest) (raw : RawSegment) : Impl :=
  { s with
    heap := update s.heap s.nextBlock (some (s.segmentBlock request raw))
    nextBlock := s.nextBlock + 1
    history := .created s.nextBlock :: s.history
    driverSegments := s.driverSegments.insert raw.ptr raw
    stats := { s.stats with bytesReserved := s.stats.bytesReserved + raw.size } }

private theorem regions_insert (l : AList (fun _ : Nat ↦ RawSegment)) (p : Nat) (raw : RawSegment) :
    (fun base ↦ ((l.insert p raw).lookup base).map RawSegment.size) =
      update (fun base ↦ (l.lookup base).map RawSegment.size) p (some raw.size) := by
  funext base
  by_cases hb : base = p
  · subst hb
    simp
  · simp [hb]

namespace WellFormed

/-- A fresh region becomes a segment, in hand as one block. -/
theorem registerSegment (h : s.WellFormed .none) (request : SegmentRequest) {raw : RawSegment}
    (hptr : 0 < raw.ptr) (hsize : 0 < raw.size) (hbound : raw.ptr + raw.size ≤ SizeT.modulus)
    (hfree : ∀ base r, s.driverSegments.lookup base = some r →
      raw.ptr + raw.size ≤ base ∨ base + r.size ≤ raw.ptr) :
    (s.registerSegment request raw).WellFormed (.taken s.nextBlock) ∧
      (s.registerSegment request raw).heap s.nextBlock = some (s.segmentBlock request raw) ∧
      (s.registerSegment request raw).driverSegments = s.driverSegments.insert raw.ptr raw ∧
      ∀ c, c ≠ s.nextBlock →
        Unaffected .none (.taken s.nextBlock) s (s.registerSegment request raw) c := by
  have ha := h.accounted
  have hat := h.placed.at_block s.nextBlock
  have hnone := h.nextBlock_none
  have hnew : s.driverSegments.lookup raw.ptr = none := by
    cases hr : s.driverSegments.lookup raw.ptr with
    | none => rfl
    | some r =>
      obtain ⟨c, C, hC, hstart, hbase⟩ := h.layout.head raw.ptr r.size (by simp [regions, hr])
      obtain ⟨q, hq, _, hhi⟩ := h.layout.inside c C hC
      have := h.layout.pos c C hC
      have := hfree _ r hr
      rw [hbase, regions, hr] at hq
      cases hq
      omega
  have hmem : raw.ptr ∉ s.driverSegments := by
    rw [← AList.lookup_eq_none]
    exact hnew
  have hlay : Partitioned (s.registered request raw).extents (s.registered request raw).regions := by
    have hgrow := h.layout.grow (b := s.nextBlock) raw.ptr
      (t := (request.stream, request.pool)) (by simp [extents, hnone]) hsize (by
        intro a q haq
        obtain ⟨r, hr, rfl⟩ := Option.map_eq_some_iff.mp haq
        exact hfree a r hr) (by simp [regions, hnew])
    have hext : (s.registered request raw).extents = update s.extents s.nextBlock
        (some ⟨raw.ptr, raw.size, none, none, raw.ptr, (request.stream, request.pool)⟩) := by
      funext x
      by_cases hx : x = s.nextBlock
      · subst hx
        simp [extents, registered, segmentBlock, CacheBlock.extent]
      · simp [extents, registered, hx]
    have hreg : (s.registered request raw).regions =
        update s.regions raw.ptr (some raw.size) := regions_insert ..
    rw [hext, hreg]
    exact hgrow
  have hseg (base : Nat) (r : RawSegment)
      (hr : (s.registered request raw).driverSegments.lookup base = some r) :
      r.ptr = base ∧ 0 < base ∧ base + r.size ≤ SizeT.modulus := by
    by_cases hb : base = raw.ptr
    · subst hb
      simp only [registered, AList.lookup_insert, Option.some.injEq] at hr
      subst hr
      exact ⟨rfl, hptr, hbound⟩
    · rw [registered, AList.lookup_insert_ne hb] at hr
      exact h.segment base r hr
  have hN : (s.registered request raw).heap s.nextBlock = some (s.segmentBlock request raw) := by
    simp [registered]
  have hu (c : BlockId) (hc : c ≠ s.nextBlock) :
      Unaffected .none (.taken s.nextBlock) s (s.registered request raw) c := by
    constructor
    case heap => simp [registered, hc]
    case history => simp [registered, after, next, hc.symm]
    case after => simpa using hc.symm
    all_goals simp [registered, queuedBlocks, queueEntries]
  have hreserved : s.stats.bytesReserved + raw.size < SizeT.modulus := by
    have hlt := total_lt_of_layout hlay hseg
    have hoff := total_off (n := s.nextBlock + 1) (Nat.lt_succ_self _)
      (fun c hc ↦ (hu c hc).sizeBytes)
    rw [weight_of hN, total_succ (H := s.heap), weight_none hnone] at hoff
    have := ha.reserved
    change total _ _ (s.nextBlock + 1) < _ at hlt
    simp only [sizeBytes, segmentBlock] at hoff hlt
    omega
  have heq : (s.registerSegment request raw).core = (s.registered request raw).core := by
    simp [Impl.registerSegment, newBlock, hmem, registered, core, bumpPeakReserved, segmentBlock,
      SizeT.add_eq hreserved]
  refine ⟨congr ?_ heq, (congrFun (congrArg heap heq) _).trans hN,
    congrArg driverSegments heq,
    fun c hc ↦ (hu c hc).congr rfl heq⟩
  refine ⟨hlay, hseg, ?_, ?_, ?_⟩
  · refine h.placed.change hu ?_ h.placed.pool_nodup h.placed.handles
    refine .of_some hN (Nat.lt_succ_self _) ?_ ?_ (fun _ ↦ rfl) (fun _ ↦ rfl)
      (fun _ ↦ ⟨rfl, rfl⟩) ?_ ?_
    · intro k
      change s.nextBlock ∈ s.pools k ↔ _
      simp [hat.pool_iff, hnone]
    · intro p
      change s.allocatedBlocks.lookup p = some s.nextBlock ↔ _
      simp [hat.allocated_iff, hnone, segmentBlock]
    · have := List.count_eq_zero.mpr (hat.not_queued hnone)
      change (0 : Int) = s.queuedBlocks.count s.nextBlock
      rw [this]
      rfl
    · have hl := hat.lifecycle
      simp only [phaseOf, hnone] at hl
      rw [phaseOf_of hN]
      simp [registered, after, hl, next, segmentBlock]
  · rintro c C n hC hn ⟨⟨C', hC', hi, _⟩, N, hN', hj, _⟩
    change update s.heap s.nextBlock _ c = some C at hC
    change update s.heap s.nextBlock _ c = some C' at hC'
    change update s.heap s.nextBlock _ n = some N at hN'
    by_cases hc : c = s.nextBlock
    · subst hc
      rw [update_self] at hC
      cases hC
      cases hn
    · rw [update_of_ne hc] at hC hC'
      obtain ⟨E, hE, _⟩ := h.layout.next_link c _ n (extents_of hC) hn
      have hne : n ≠ s.nextBlock := by
        rintro rfl
        simp [extents, hnone] at hE
      rw [update_of_ne hne] at hN'
      exact h.coalesced c C n hC hn ⟨⟨C', hC', hi, by simp⟩, N, hN', hj, by simp⟩
  · refine ha.change hu (Nat.lt_succ_self _) (.inr ⟨rfl, hnone⟩) ?_ ?_ ?_ ?_ ha.no_underflow
    · rw [weight_none hnone, weight_of hN]
      simp [registered, cachedBytes]
    · rw [weight_none hnone, weight_of hN]
      simp [registered, allocatedBytes, segmentBlock]
    · rw [weight_none hnone, weight_of hN]
      simp [registered, sizeBytes, segmentBlock]
    · have := ha.segments
      simp only [segmentBytes, registered, AList.entries_insert_of_notMem hmem, List.map_cons,
        List.sum_cons] at *
      omega

end WellFormed

/-! ### Giving a segment back -/

/-- One pooled block without neighbours leaves the cache and its segment goes back. -/
def releaseBlock (s : Impl) (k : PoolKind) (b : BlockId) : Impl :=
  ((s.subBytesCached (s.deref b).size).poolErase k b).releaseSegmentLocked b

private def releasedState (s : Impl) (k : PoolKind) (b : BlockId) (B : CacheBlock) : Impl :=
  { s with
    heap := update s.heap b none
    pools := update s.pools k (OrderedSet.erase s.blockLt b (s.pools k))
    bytesCached := s.bytesCached - B.size
    driverSegments := s.driverSegments.erase B.segmentBase
    history := .released b :: s.history
    stats := { s.stats with bytesReserved := s.stats.bytesReserved - B.size } }

private theorem regions_erase (l : AList (fun _ : Nat ↦ RawSegment)) (p : Nat) :
    (fun base ↦ ((l.erase p).lookup base).map RawSegment.size) =
      update (fun base ↦ (l.lookup base).map RawSegment.size) p none := by
  funext base
  by_cases hb : base = p
  · subst hb
    simp
  · simp [hb]

/-- The bytes of the other segments. -/
private theorem segmentBytes_erase {l : AList (fun _ : Nat ↦ RawSegment)} {p : Nat}
    {raw : RawSegment} (h : l.lookup p = some raw) :
    ((l.erase p).entries.map (fun e ↦ e.2.size)).sum + raw.size =
      (l.entries.map (fun e ↦ e.2.size)).sum := by
  have hk : p ∈ l.entries.keys := AList.lookup_isSome.mp (Option.isSome_iff_exists.mpr ⟨raw, h⟩)
  obtain ⟨r, l₁, l₂, _, hl, he⟩ := List.exists_of_kerase hk
  have hr : r = raw := by
    have hm : (⟨p, r⟩ : Sigma fun _ : Nat ↦ RawSegment) ∈ l.entries := by rw [hl]; simp
    have := AList.mem_lookup_iff.mpr hm
    rw [h] at this
    exact (Option.some.inj this).symm
  change ((l.entries.kerase p).map (fun e ↦ e.2.size)).sum + raw.size = _
  rw [he, hl, hr]
  simp only [List.map_append, List.map_cons, List.sum_append, List.sum_cons]
  omega

namespace WellFormed

/-- A pooled block without neighbours spans its segment, and both can go. -/
theorem releaseBlock (h : s.WellFormed .none) (hb : s.heap b = some B) (hm : b ∈ s.pools k)
    (hprev : B.prev = none) (hnext : B.next = none) :
    (s.releaseBlock k b).WellFormed .none ∧ (s.releaseBlock k b).heap = update s.heap b none ∧
      (s.releaseBlock k b).driverSegments = s.driverSegments.erase B.segmentBase ∧
      ∀ c, c ≠ b → Unaffected .none .none s (s.releaseBlock k b) c := by
  have ha := h.accounted
  have hat := h.placed.at_block b
  obtain ⟨hk, hidle, -⟩ := (hat.pool hb k).mp hm
  have hbase : B.ptr = B.segmentBase := h.layout.first b _ (extents_of hb) hprev
  obtain ⟨r, hr, hend⟩ := h.layout.last b _ (extents_of hb) hnext
  obtain ⟨raw, hraw, rfl⟩ := Option.map_eq_some_iff.mp hr
  have hpos := h.bounds hb
  have hcB : cachedBytes .none b B = B.size := if_pos ⟨hidle, by simp⟩
  obtain ⟨hcached, hreserved⟩ := h.pooled_le hb hm
  have hlt := h.reserved_lt
  have heq : (s.releaseBlock k b).core = (s.releasedState k b B).core := by
    have hd : ((s.subBytesCached B.size).poolErase k b).deref b = B :=
      deref_of hb
    have hseg : B.segmentBase ≠ 0 := by omega
    have huf : (s.underflow || decide (s.bytesCached < B.size) ||
        decide (s.stats.bytesReserved < B.size)) = s.underflow := by
      rw [decide_eq_false (by omega), decide_eq_false (by omega)]
      simp
    simp only [Impl.releaseBlock, releaseSegmentLocked, hd, deref_of hb]
    simp only [subBytesCached, poolErase, subBytesReserved, hseg, ne_eq, huf, SizeT.sub_eq hcached (by omega),
      SizeT.sub_eq (Nat.le_trans hcached hreserved) hlt]
    rfl
  have hX : (s.releasedState k b B).heap b = none := by simp [releasedState]
  have hmem (c : BlockId) := h.mem_erase hm c
  have hu (c : BlockId) (hc : c ≠ b) : Unaffected .none .none s (s.releasedState k b B) c := by
    constructor
    case heap => simp [releasedState, hc]
    case pools =>
      intro k'
      simp only [releasedState, update_apply]
      split
      · next hk' => simp [hmem, hc, hk']
      · rfl
    case history => simp [releasedState, after, next, hc.symm]
    all_goals simp [releasedState, queuedBlocks, queueEntries]
  refine ⟨congr ?_ heq, congrArg heap heq,
    congrArg driverSegments heq, fun c hc ↦ (hu c hc).congr rfl heq⟩
  refine ⟨?_, ?_, ?_, ?_, ?_⟩
  · have hext : (s.releasedState k b B).extents = update s.extents b none := by
      funext x
      by_cases hx : x = b
      · subst hx
        simp [extents, releasedState]
      · simp [extents, releasedState, hx]
    have hreg : (s.releasedState k b B).regions = update s.regions B.segmentBase none :=
      regions_erase ..
    rw [hext, hreg]
    exact h.layout.shrink (extents_of hb) hprev hnext
  · intro base q hq
    by_cases hbq : base = B.segmentBase
    · subst hbq
      simp [releasedState] at hq
    · rw [releasedState, AList.lookup_erase_ne hbq] at hq
      exact h.segment base q hq
  · refine h.placed.change hu (.of_none hX ?_ ?_ (by simp) ?_ ?_) ?_ h.placed.handles
    · intro k'
      simp only [releasedState, update_apply]
      split
      · simp [hmem]
      · next hk' => simp [hat.pool hb, hk, Ne.symm hk']
    · intro p
      change s.allocatedBlocks.lookup p ≠ some b
      simp [hat.live hb, hidle.1]
    · rw [← List.count_eq_zero]
      have := hat.count B hb
      rw [hidle.2] at this
      exact (Int.ofNat_eq_zero.mp this.symm)
    · have hl := hat.lifecycle
      rw [phaseOf_of hb] at hl
      simp only [hidle.1, hidle.2] at hl
      simp [releasedState, after, hl, next]
    · intro k'
      simp only [releasedState, update_apply]
      split
      · exact ((h.erase_perm hm).nodup_iff.mp (h.placed.pool_nodup k)).of_cons
      · exact h.placed.pool_nodup k'
  · apply h.coalesced_of_subset
    intro x X hx
    by_cases hxb : x = b
    · rw [hxb, hX] at hx
      cases hx
    · simpa [releasedState, hxb] using hx
  · refine ha.change hu (h.lt hb) (.inl rfl) ?_ ?_ ?_ ?_ ha.no_underflow
    · rw [weight_of hb, weight_none hX, hcB]
      simp only [releasedState, Limbo.views_none]
      omega
    · rw [weight_of hb, weight_none hX]
      simp [releasedState, allocatedBytes, hidle.1]
    · rw [weight_of hb, weight_none hX]
      simp only [releasedState, sizeBytes]
      omega
    · have hsum := segmentBytes_erase hraw
      have := ha.segments
      simp only [segmentBytes, releasedState, CacheBlock.extent] at *
      omega

end WellFormed
end Impl
end Hisab.Memory
