import Hisab.Memory.AllocatorRuns

/-!
# What holds in ordinary runs

In every state an ordinary run reaches: the blocks tile the segments of the driver and each
is in one container, the byte counters are the sums they stand for, every event is in one
place, and the life of each block follows its events. A flush gives all memory back once no
allocation is live.
-/

namespace Hisab.Memory
open Hisab.Base ExtentMap Tiling List BlockPhase RangeSum AList CacheBlock

/-- The machine after an operation; itself if the operation cannot start. -/
def Machine.next (m : Machine) (op : Operation) : Machine := ((m.run op).map Prod.snd).getD m

theorem reachable_next {m : Machine} (h : ordinaryCudaAllocator.Reachable m) (op : Operation)
    (ha : m.Admissible op) (ho : op.Ordinary) (hr : (m.run op).isSome = true) :
    ordinaryCudaAllocator.Reachable (m.next op) := by
  obtain ⟨⟨reply, m'⟩, hm⟩ := Option.isSome_iff_exists.mp hr
  have hnext : m.next op = m' := by rw [Machine.next, hm, Option.map_some, Option.getD_some]
  rw [hnext]
  exact h.step (l := (op, reply)) ⟨⟨ha, hm⟩, ho⟩

theorem errorFree_default : DriverAnswers.ErrorFree {} :=
  ⟨rfl, rfl, rfl, fun _ ↦ .inr rfl, fun _ ↦ rfl, fun _ ↦ rfl, fun _ ↦ rfl⟩

/-- The first region of the driver. -/
theorem first_region_fresh : (({} : Machine).next (.allocate 0 1000 1 {})).FreshRegion 2097152
    { ptr := 4096, size := 2097152 } := by
  refine ⟨by decide, by decide, by decide, ⟨fun base r hb ↦ (by cases hb), fun t request r ht ↦ ?_⟩⟩
  have hthreads : (({} : Machine).next (.allocate 0 1000 1 {})).threads =
      Function.update (fun _ ↦ .idle) 0
        (.inDriver { size := 1000, rounded := 1024, stream := 1, pool := .small,
                     allocSize := 2097152, isRetry := false }) := rfl
  rw [hthreads, Function.update_apply] at ht
  split at ht <;> cases ht

/-- 1000 bytes handed out to stream 1 from a new segment at 4096, with the rest of the segment
back in the small pool. -/
def oneBlock : Machine :=
  ((({} : Machine).next (.allocate 0 1000 1 {})).next
    (.mallocSegment 0 (.segment { ptr := 4096, size := 2097152 }))).next (.resume 0 {})

theorem oneBlock_reachable : ordinaryCudaAllocator.Reachable oneBlock := by
  have h₀ : ordinaryCudaAllocator.Reachable {} := .of_init ⟨_, rfl⟩
  have h₁ := reachable_next h₀ (.allocate 0 1000 1 {}) trivial
    ⟨by decide, errorFree_default⟩ rfl
  have h₂ := reachable_next h₁
    (.mallocSegment 0 (.segment { ptr := 4096, size := 2097152 })) ?_ trivial rfl
  · exact reachable_next h₂ (.resume 0 {}) trivial errorFree_default rfl
  · intro request hr
    cases hr
    exact first_region_fresh

/-- The block has been used on stream 2 and handed back; its event is not ready. -/
def oneWaiting : Machine := (oneBlock.next (.recordStream 4096 2)).next (.deallocate 4096 1 {})

theorem oneWaiting_reachable : ordinaryCudaAllocator.Reachable oneWaiting := by
  have h₁ := reachable_next oneBlock_reachable (.recordStream 4096 2) trivial trivial rfl
  exact reachable_next h₁ (.deallocate 4096 1 {}) trivial errorFree_default rfl

namespace Impl

variable {s : Impl} {b : BlockId} {B : CacheBlock}

/-! ### Blocks and segments -/

/-- Following `next` from the block at `base` visits every block of the segment; each
starts where the one before ends, points back at it and shares its stream, pool and base. -/
def SegmentTiled (s : Impl) (base size : Nat) : Prop :=
  ∃ first F chain, s.heap first = some F ∧ F.ptr = base ∧ F.prev = none ∧
    Chain (fun b ↦ (s.heap b).bind CacheBlock.next) first chain ∧
    Tiles (fun b ↦ (s.deref b).ptr) (fun b ↦ (s.deref b).ptr + (s.deref b).size) base chain
      (base + size) ∧
    (∀ b ∈ chain, ∃ B, s.heap b = some B ∧ B.stream = F.stream ∧ B.pool = F.pool ∧
      B.segmentBase = base) ∧
    (∀ b B n, b ∈ chain → s.heap b = some B → B.next = some n →
      ∃ N, s.heap n = some N ∧ N.prev = some b) ∧
    ∀ b B, s.heap b = some B → B.segmentBase = base → b ∈ chain

/-- The containers of blocks. -/
inductive Container where
  | allocatedBlocks
  | pool (k : PoolKind)
  | cudaEvents

/-- The container names the block. -/
def Holds (s : Impl) (b : BlockId) : Container → Prop
  | .allocatedBlocks => ∃ p, s.allocatedBlocks.lookup p = some b
  | .pool k => b ∈ s.pools k
  | .cudaEvents => b ∈ s.queuedBlocks

/-- The block is in one container, the one its flags say. -/
structure InPlace (s : Impl) (b : BlockId) (B : CacheBlock) : Prop where
  one : ∃! c, s.Holds b c
  allocated : ∀ p, s.allocatedBlocks.lookup p = some b →
    B.allocated = true ∧ B.eventCount = 0 ∧ p = B.ptr
  pooled : ∀ k, b ∈ s.pools k → k = B.pool ∧ B.allocated = false ∧ B.eventCount = 0
  waiting : b ∈ s.queuedBlocks → B.allocated = false ∧ 0 < B.eventCount

namespace WellFormed

theorem segmentTiled (h : s.WellFormed .none) {base : Nat} {raw : RawSegment}
    (hr : s.driverSegments.lookup base = some raw) : s.SegmentTiled base raw.size := by
  have hnext : nextOf s.extents = fun b ↦ (s.heap b).bind next := by
    funext b
    cases hb : s.heap b <;> simp [nextOf, extents, hb, extent]
  obtain ⟨first, F, chain, hF, hstart, hprev, hchain, htiles, htag, hback, hall⟩ :=
    h.layout.tiles (show s.regions base = some raw.size by rw [regions, hr, Option.map_some])
  obtain ⟨F, hF', rfl⟩ := exists_of_extents hF
  have hlive (b : BlockId) (hb : b ∈ chain) : ∃ B, s.heap b = some B ∧ B.stream = F.stream ∧
      B.pool = F.pool ∧ B.segmentBase = base := by
    obtain ⟨C, hC, hbase, htag⟩ := htag b hb
    obtain ⟨B, hB, rfl⟩ := exists_of_extents hC
    have htag := Prod.mk.inj htag
    exact ⟨B, hB, htag.1, htag.2, hbase⟩
  refine ⟨first, F, chain, hF', hstart, hprev, hnext ▸ hchain, ?_, hlive, fun b B n hb hB hn ↦ ?_,
    fun b B hB hbase ↦ hall b B.extent (extents_of hB) hbase⟩
  · refine htiles.congr (fun b hb ↦ ?_) (fun b hb ↦ ?_)
    · obtain ⟨B, hB, _⟩ := hlive b hb
      simp [startOf, extents_of hB, deref_of hB, extent]
    · obtain ⟨B, hB, _⟩ := hlive b hb
      simp [endOf, extents_of hB, deref_of hB, extent]
  · obtain ⟨E, hE, hp, _⟩ := h.layout.next_link b _ n (extents_of hB) hn
    obtain ⟨N, hN, rfl⟩ := exists_of_extents hE
    exact ⟨N, hN, hp⟩

theorem inPlace (h : s.WellFormed .none) (hb : s.heap b = some B) : s.InPlace b B := by
  have hat := h.placed.at_block b
  have hcount := hat.count B hb
  have hlive (p : Nat) : s.allocatedBlocks.lookup p = some b ↔ B.allocated = true ∧ B.ptr = p :=
    hat.live hb p
  have hpool (k : PoolKind) : b ∈ s.pools k ↔ B.pool = k ∧ B.Idle := by
    rw [hat.pool hb]
    simp
  have hqueue : b ∈ s.queuedBlocks ↔ 0 < B.eventCount := by
    rw [← count_pos_iff]
    omega
  have hevents : B.allocated = true → B.eventCount = 0 := hat.allocated_events B hb
  refine ⟨?_, fun p hp ↦ ?_, fun k hk ↦ ?_, fun hq ↦ ?_⟩
  · by_cases hal : B.allocated = true
    · refine ⟨.allocatedBlocks, ⟨B.ptr, (hlive _).mpr ⟨hal, rfl⟩⟩, fun c hc ↦ ?_⟩
      cases c with
      | allocatedBlocks => rfl
      | pool k =>
        have := ((hpool k).mp hc).2.1
        rw [hal] at this
        cases this
      | cudaEvents =>
        have := hqueue.mp hc
        rw [hevents hal] at this
        exact absurd this (Int.lt_irrefl 0)
    · by_cases he : B.eventCount = 0
      · refine ⟨.pool B.pool, (hpool _).mpr ⟨rfl, by simpa using hal, he⟩, fun c hc ↦ ?_⟩
        cases c with
        | allocatedBlocks =>
          obtain ⟨p, hp⟩ := hc
          exact absurd ((hlive p).mp hp).1 hal
        | pool k => rw [((hpool k).mp hc).1]
        | cudaEvents =>
          have := hqueue.mp hc
          omega
      · refine ⟨.cudaEvents, hqueue.mpr (by omega), fun c hc ↦ ?_⟩
        cases c with
        | allocatedBlocks =>
          obtain ⟨p, hp⟩ := hc
          exact absurd ((hlive p).mp hp).1 hal
        | pool k => exact absurd ((hpool k).mp hc).2.2 he
        | cudaEvents => rfl
  · obtain ⟨hal, hptr⟩ := (hlive p).mp hp
    exact ⟨hal, hevents hal, hptr.symm⟩
  · obtain ⟨hk, hal, he⟩ := (hpool k).mp hk
    exact ⟨hk.symm, hal, he⟩
  · have hpos := hqueue.mp hq
    refine ⟨?_, hpos⟩
    cases hal : B.allocated with
    | false => rfl
    | true =>
      have := hevents hal
      omega

end WellFormed
end Impl

/-- Every segment is tiled by its chain of blocks, and every block is in its one place. -/
theorem segments_tiled_blocks_in_place {m : Machine} (h : ordinaryCudaAllocator.Reachable m) :
    (∀ base raw, m.impl.driverSegments.lookup base = some raw → m.impl.SegmentTiled base raw.size) ∧
    ∀ b B, m.impl.heap b = some B → m.impl.InPlace b B := by
  have hwf := (consistent_of_reachable h).impl
  exact ⟨fun _ _ hr ↦ hwf.segmentTiled hr, fun _ _ hb ↦ hwf.inPlace hb⟩

theorem oneWaiting_tiled_in_place :
    (∀ base raw, oneWaiting.impl.driverSegments.lookup base = some raw →
      oneWaiting.impl.SegmentTiled base raw.size) ∧
    ∀ b B, oneWaiting.impl.heap b = some B → oneWaiting.impl.InPlace b B :=
  segments_tiled_blocks_in_place oneWaiting_reachable

/-! ### Coalescing -/

namespace Impl

variable {s : Impl} {b : BlockId} {B : CacheBlock}

/-- The block that starts where another of its segment ends is the next one. -/
theorem WellFormed.next_of_adjacent (h : s.WellFormed .none) {n : BlockId} {N : CacheBlock}
    (hb : s.heap b = some B) (hn : s.heap n = some N) (hbase : B.segmentBase = N.segmentBase)
    (hadj : B.ptr + B.size = N.ptr) : B.next = some n := by
  cases hnext : B.next with
  | none =>
    obtain ⟨r, hr, hend⟩ := h.layout.last b _ (extents_of hb) hnext
    obtain ⟨r', hr', _, hhi⟩ := h.layout.inside n _ (extents_of hn)
    have := h.pos hn
    simp only [extent] at hr hr' hend hhi
    rw [← hbase, hr] at hr'
    cases hr'
    omega
  | some n' =>
    obtain ⟨E, hE, _, hstart, _⟩ := h.layout.next_link b _ n' (extents_of hb) hnext
    obtain ⟨N', hN', rfl⟩ := exists_of_extents hE
    rw [h.ptr_inj hN' hn (hstart.trans hadj)]

/-- Nothing is left: no segment, no pooled block, no bytes. -/
structure Empty (s : Impl) : Prop where
  segments : s.driverSegments = ∅
  pools : ∀ k, s.pools k = []
  cached : s.bytesCached = 0
  reserved : s.stats.bytesReserved = 0

theorem WellFormed.empty (h : s.WellFormed .none) (hnone : ∀ b, s.heap b = none) : s.Empty := by
  have htotal (f : Nat → CacheBlock → Nat) : total s.heap f s.nextBlock = 0 :=
    Finset.sum_eq_zero (fun b _ ↦ weight_none (hnone b))
  refine ⟨?_, fun k ↦ ?_, ?_, ?_⟩
  · have hlookup (base : Nat) : s.driverSegments.lookup base = none := by
      cases hr : s.driverSegments.lookup base with
      | none => rfl
      | some raw =>
        obtain ⟨c, C, hC, _⟩ := h.layout.head base raw.size (by rw [regions, hr, Option.map_some])
        obtain ⟨X, hX, _⟩ := exists_of_extents hC
        rw [hnone] at hX
        cases hX
    apply ext
    cases he : s.driverSegments.entries with
    | nil => rfl
    | cons e l =>
      have hin : e.2 ∈ s.driverSegments.lookup e.1 :=
        mem_lookup_iff.mpr (by rw [he]; exact mem_cons_self ..)
      rw [hlookup] at hin
      cases hin
  · refine eq_nil_iff_forall_not_mem.mpr (fun b hb ↦ ?_)
    obtain ⟨B, hB, _⟩ := h.pool_live hb
    rw [hnone] at hB
    cases hB
  · have := h.accounted.cached
    rw [htotal] at this
    exact Nat.eq_zero_of_add_eq_zero_right this
  · rw [h.accounted.reserved, htotal]

end Impl

theorem DriverAnswers.ErrorFree.synchronizes {d : DriverAnswers} (h : d.ErrorFree)
    (s : Impl) : ∃ t, s.synchronizeAndFreeEventsLocked d = (.ok (), t) := by
  have hqueue (q : EventQueue) (s : Impl) : ∃ t, Impl.synchronizeQueue d q s = (.ok (), t) := by
    induction q generalizing s with
    | nil => exact ⟨s, rfl⟩
    | cons entry q ih =>
      unfold Impl.synchronizeQueue
      simp only [h.synchronize]
      exact ih _
  have hqueues (queues : List (Stream × EventQueue)) (s : Impl) :
      ∃ t, Impl.synchronizeQueues d queues s = (.ok (), t) := by
    induction queues generalizing s with
    | nil => exact ⟨s, rfl⟩
    | cons queue queues ih =>
      obtain ⟨stream, q⟩ := queue
      obtain ⟨t, ht⟩ := hqueue q s
      unfold Impl.synchronizeQueues
      rw [ht]
      exact ih _
  unfold Impl.synchronizeAndFreeEventsLocked
  rw [h.synchronizeGuard]
  exact hqueues _ _

/-- No two adjacent blocks are free, and without a live allocation `empty_cache` gives every
segment back, however many events are outstanding. -/
theorem coalesced_and_emptyCache_empties {m : Machine} (h : ordinaryCudaAllocator.Reachable m) :
    (∀ b B n N j k, m.impl.heap b = some B → m.impl.heap n = some N →
      B.segmentBase = N.segmentBase → B.ptr + B.size = N.ptr →
        ¬ (b ∈ m.impl.pools j ∧ n ∈ m.impl.pools k)) ∧
    ((∀ p, m.impl.allocatedBlocks.lookup p = none) → ∀ d, d.ErrorFree →
      ∃ m', m.run (.emptyCache d) = some (.done, m') ∧ m'.impl.Empty) := by
  have hwf := (consistent_of_reachable h).impl
  refine ⟨fun b B n N j k hb hn hbase hadj hfree ↦ ?_, fun hlive d hd ↦ ?_⟩
  · have hidle {c : BlockId} {C : CacheBlock} {k : PoolKind} (hC : m.impl.heap c = some C)
        (hc : c ∈ m.impl.pools k) : m.impl.Mergeable .none c :=
      ⟨C, hC, (((hwf.placed.at_block c).pool hC k).mp hc).2.1, by simp⟩
    exact hwf.coalesced b B n hb (hwf.next_of_adjacent hb hn hbase hadj)
      ⟨hidle hb hfree.1, hidle hn hfree.2⟩
  · obtain ⟨t, ht⟩ := hd.synchronizes m.impl
    have hflush : m.impl.releaseCachedBlocksLocked d =
        (.ok (), (t.releasePoolBlocksLocked .small).releasePoolBlocksLocked .large) := by
      simp only [Impl.releaseCachedBlocksLocked, ht]
    obtain ⟨hp, _, hok⟩ := Impl.releaseCachedBlocksLocked_progress hwf hflush
      nofun
    refine ⟨{ m with
      impl := (t.releasePoolBlocksLocked .small).releasePoolBlocksLocked .large }, ?_,
      hp.wellFormed.empty ((hok rfl).2 hlive)⟩
    simp only [Machine.run, Impl.emptyCache, hflush]

theorem oneWaiting_emptyCache_empties :
    ∃ m', oneWaiting.run (.emptyCache {}) = some (.done, m') ∧ m'.impl.Empty := by
  refine (coalesced_and_emptyCache_empties oneWaiting_reachable).2 (fun p ↦ ?_) {} errorFree_default
  have hnone : oneWaiting.impl.allocatedBlocks = ∅ := ext rfl
  rw [hnone, lookup_empty]

/-! ### Bytes -/

namespace Impl

variable {s : Impl} {b : BlockId} {B : CacheBlock}

/-- Bytes of the blocks that wait for events. -/
def waitingBytes (s : Impl) : Nat := (s.queuedBlocks.dedup.map (fun b ↦ (s.deref b).size)).sum

/-- The byte counters are the sums over their containers, and no subtraction has wrapped. -/
structure BytesExact (s : Impl) : Prop where
  cached : s.bytesCached = ((s.pools .small ++ s.pools .large).map (fun b ↦ (s.deref b).size)).sum
  allocated : s.stats.bytesAllocated =
    (s.allocatedBlocks.entries.map (fun e ↦ (s.deref e.2).size)).sum
  reserved : s.stats.bytesReserved = (s.driverSegments.entries.map (fun e ↦ e.2.size)).sum
  split : s.stats.bytesReserved = s.stats.bytesAllocated + s.bytesCached + s.waitingBytes
  no_underflow : s.underflow = false

/-- The sizes of a list of blocks add up to the total of a weight that counts just them. -/
private theorem sum_sizes (h : s.WellFormed .none) {l : List BlockId}
    {f : Nat → CacheBlock → Nat} (hnd : l.Nodup)
    (hin : ∀ b ∈ l, ∃ B, s.heap b = some B ∧ f b B = B.size)
    (hout : ∀ b B, s.heap b = some B → b ∉ l → f b B = 0) :
    (l.map (fun b ↦ (s.deref b).size)).sum = RangeSum.total s.heap f s.nextBlock := by
  have hmap : l.map (fun b ↦ (s.deref b).size) = l.map (weight s.heap f) := by
    refine map_congr_left (fun b hb ↦ ?_)
    obtain ⟨B, hB, hf⟩ := hin b hb
    rw [deref_of hB, weight_of hB, hf]
  rw [hmap]
  refine sum_list hnd (fun b hb ↦ ?_) hout
  obtain ⟨B, hB, _⟩ := hin b hb
  exact h.lt hB

/-- Bytes of a block that waits. -/
private def queuedBytes (_ : BlockId) (B : CacheBlock) : Nat :=
  if B.eventCount ≠ 0 then B.size else 0

namespace WellFormed

/-- The table names the live blocks. -/
theorem mem_allocations (h : s.WellFormed .none) : b ∈ s.allocatedBlocks.entries.map Sigma.snd ↔
    ∃ B, s.heap b = some B ∧ B.allocated = true := by
  rw [mem_map]
  constructor
  · rintro ⟨⟨p, c⟩, he, rfl⟩
    obtain ⟨B, hB, hal, -⟩ := h.live_of_lookup (mem_lookup_iff.mpr he)
    exact ⟨B, hB, hal⟩
  · rintro ⟨B, hB, hal⟩
    have := ((h.placed.at_block b).live hB B.ptr).mpr ⟨hal, rfl⟩
    exact ⟨⟨B.ptr, b⟩, mem_lookup_iff.mp this, rfl⟩

/-- It names each of them once. -/
theorem allocations_nodup (h : s.WellFormed .none) :
    (s.allocatedBlocks.entries.map Sigma.snd).Nodup := by
  refine List.Nodup.map_on (fun e he e' he' heq ↦ ?_) s.allocatedBlocks.nodupKeys.nodup
  obtain ⟨B, hB, _, hp⟩ := h.live_of_lookup (mem_lookup_iff.mpr he)
  obtain ⟨B', hB', _, hp'⟩ := h.live_of_lookup (mem_lookup_iff.mpr he')
  rw [← heq, hB] at hB'
  cases hB'
  exact Sigma.ext (hp.symm.trans hp') (heq_of_eq heq)

theorem bytesExact (h : s.WellFormed .none) : s.BytesExact := by
  have ha := h.accounted
  have hpool {b : BlockId} {B : CacheBlock} (hB : s.heap b = some B) (k : PoolKind) :
      b ∈ s.pools k ↔ B.pool = k ∧ B.Idle := by
    rw [(h.placed.at_block b).pool hB]
    simp
  have hcached : ((s.pools .small ++ s.pools .large).map (fun b ↦ (s.deref b).size)).sum =
      total s.heap (cachedBytes .none) s.nextBlock := by
    refine sum_sizes h ?_ (fun b hb ↦ ?_) (fun b B hB hb ↦ ?_)
    · refine (h.placed.pool_nodup _).append (h.placed.pool_nodup _) (fun b hs hl ↦ ?_)
      obtain ⟨B, hB, hk, _⟩ := h.pool_live hs
      have := ((hpool hB _).mp hl).1
      rw [hk] at this
      cases this
    · rcases mem_append.mp hb with hb | hb
      · obtain ⟨B, hB, _, hi, _⟩ := h.pool_live hb
        exact ⟨B, hB, if_pos ⟨hi, by simp⟩⟩
      · obtain ⟨B, hB, _, hi, _⟩ := h.pool_live hb
        exact ⟨B, hB, if_pos ⟨hi, by simp⟩⟩
    · refine if_neg (fun hi ↦ hb ?_)
      rw [mem_append, hpool hB, hpool hB]
      cases B.pool <;> simp [hi.1]
  have hallocated : (s.allocatedBlocks.entries.map (fun e ↦ (s.deref e.2).size)).sum =
      total s.heap allocatedBytes s.nextBlock := by
    have hmap : s.allocatedBlocks.entries.map (fun e ↦ (s.deref e.2).size) =
        (s.allocatedBlocks.entries.map Sigma.snd).map (fun b ↦ (s.deref b).size) := by
      rw [map_map]
      rfl
    rw [hmap]
    refine sum_sizes h h.allocations_nodup (fun b hb ↦ ?_) (fun b B hB hb ↦ ?_)
    · obtain ⟨B, hB, hal⟩ := h.mem_allocations.mp hb
      exact ⟨B, hB, if_pos hal⟩
    · exact if_neg (fun hal ↦ hb (h.mem_allocations.mpr ⟨B, hB, hal⟩))
  have hwaiting : s.waitingBytes = total s.heap queuedBytes s.nextBlock := by
    have hmem {b : BlockId} {B : CacheBlock} (hB : s.heap b = some B) :
        b ∈ s.queuedBlocks.dedup ↔ B.eventCount ≠ 0 := by
      rw [mem_dedup, ← count_pos_iff, (h.placed.at_block b).count B hB]
      omega
    refine sum_sizes h (nodup_dedup _) (fun b hb ↦ ?_) (fun b B hB hb ↦ ?_)
    · obtain ⟨B, hB⟩ := (h.placed.at_block b).queued_live (mem_dedup.mp hb)
      exact ⟨B, hB, if_pos ((hmem hB).mp hb)⟩
    · exact if_neg (fun he ↦ hb ((hmem hB).mpr he))
  -- a block is cached, live or waiting, and only one of these
  have hsplit : total s.heap sizeBytes s.nextBlock = total s.heap allocatedBytes s.nextBlock +
        total s.heap (cachedBytes .none) s.nextBlock + total s.heap queuedBytes s.nextBlock := by
    rw [← total_add, ← total_add]
    refine total_congr (fun b B hB ↦ ?_)
    have hevents := (h.placed.at_block b).allocated_events B hB
    simp only [sizeBytes, allocatedBytes, cachedBytes, queuedBytes, CacheBlock.Idle]
    by_cases hal : B.allocated = true
    · simp [hal, hevents hal]
    · by_cases he : B.eventCount = 0 <;> simp [hal, he]
  have hc := ha.cached
  simp only [Limbo.views_none, Nat.add_zero] at hc
  refine ⟨hc.trans hcached.symm, ha.allocated.trans hallocated.symm, ha.segments.symm, ?_,
    ha.no_underflow⟩
  rw [ha.reserved, hsplit, hwaiting, ha.allocated, hc]

end WellFormed
end Impl

/-- The byte counters are exact, and no subtraction from one wraps. -/
theorem byte_counters_exact {m : Machine} (h : ordinaryCudaAllocator.Reachable m) :
    m.impl.BytesExact := (consistent_of_reachable h).impl.bytesExact

theorem oneWaiting_bytes_exact : oneWaiting.impl.BytesExact :=
  byte_counters_exact oneWaiting_reachable

/-! ### Events -/

/-- How many events a phase waits for. -/
def BlockPhase.events : BlockPhase → Nat
  | .freeing n => n
  | _ => 0

/-- Whether a free is under way. -/
def BlockPhase.frees : BlockPhase → Nat
  | .freeing _ => 1
  | _ => 0

namespace BlockPhase

variable {b : BlockId} {p q : BlockPhase} {a : BlockAction} {history older newer : List BlockAction}

theorem after_cons (h : after b (a :: history) = some q) :
    ∃ p, after b history = some p ∧ next b p a = some q := Option.bind_eq_some_iff.mp h

private theorem guarded {c : BlockId} {before after : BlockPhase}
    (h : (if c = b then (if p = before then some after else none) else some p) = some q) :
    (c = b ∧ p = before ∧ q = after) ∨ (c ≠ b ∧ q = p) := by
  split at h
  · next hc =>
    split at h
    · next hp => exact .inl ⟨hc, hp, (Option.some.inj h).symm⟩
    · cases h
  · next hc => exact .inr ⟨hc, (Option.some.inj h).symm⟩

/-- One action moves the numbers of recorded events, drained events, frees and returns to
the pool together with the phase. -/
private theorem next_counts (h : next b p a = some q) :
    (if a = .queued b then 1 else 0) + p.events = (if a = .drained b then 1 else 0) + q.events ∧
      (if a = .freed b then 1 else 0) + p.frees = (if a = .pooled b then 1 else 0) + q.frees := by
  cases a with
  | created c => rcases guarded h with ⟨rfl, rfl, rfl⟩ | ⟨_, rfl⟩ <;> simp [events, frees]
  | handedOut c => rcases guarded h with ⟨rfl, rfl, rfl⟩ | ⟨_, rfl⟩ <;> simp [events, frees]
  | freed c => rcases guarded h with ⟨rfl, rfl, rfl⟩ | ⟨hc, rfl⟩ <;> simp [events, frees, *]
  | pooled c => rcases guarded h with ⟨rfl, rfl, rfl⟩ | ⟨hc, rfl⟩ <;> simp [events, frees, *]
  | remainder c => rcases guarded h with ⟨rfl, rfl, rfl⟩ | ⟨_, rfl⟩ <;> simp [events, frees]
  | released c => rcases guarded h with ⟨rfl, rfl, rfl⟩ | ⟨_, rfl⟩ <;> simp [events, frees]
  | merged dst src =>
    simp only [next] at h
    split at h
    · split at h
      · next hp =>
        cases h
        simp [hp, events, frees]
      · cases h
    · split at h
      · split at h
        · cases h
          simp
        · cases h
      · cases h
        simp
  | queued c =>
    simp only [next] at h
    split at h
    · next hc =>
      cases p with
      | freeing n =>
        cases h
        simp [hc, events, frees, Nat.add_comm]
      | _ => cases h
    · next hc =>
      cases h
      simp [hc]
  | drained c =>
    simp only [next] at h
    split at h
    · next hc =>
      cases p with
      | freeing n =>
        cases n with
        | zero => cases h
        | succ n =>
          cases h
          simp [hc, events, frees, Nat.add_comm]
      | _ => cases h
    · next hc =>
      cases h
      simp [hc]

/-- The phase knows how many events are outstanding and whether a free is. -/
theorem counts (h : after b history = some p) :
    history.count (.queued b) = history.count (.drained b) + p.events ∧
      history.count (.freed b) = history.count (.pooled b) + p.frees := by
  induction history generalizing p with
  | nil =>
    cases h
    exact ⟨rfl, rfl⟩
  | cons a history ih =>
    obtain ⟨r, hr, hn⟩ := after_cons h
    have hih := ih hr
    have hc := next_counts hn
    simp only [count_cons, beq_iff_eq]
    omega

/-- Only a block without outstanding events is handed out, absorbs or is absorbed, is
released or returns to its pool; it returns only if it has been freed since. -/
theorem settled (h : next b p a = some q) :
    ((a = .handedOut b ∨ (∃ c, a = .merged b c ∨ a = .merged c b) ∨ a = .released b ∨
      a = .pooled b) → p.events = 0) ∧ (a = .pooled b → p.frees = 1) := by
  constructor
  · rintro (rfl | ⟨c, rfl | rfl⟩ | rfl | rfl)
    · rcases guarded h with ⟨_, rfl, _⟩ | ⟨hc, _⟩
      · rfl
      · exact absurd rfl hc
    · simp only [next] at h
      split at h
      · split at h
        · next hp => rw [hp]; rfl
        · cases h
      · simp only [if_true] at h
        split at h
        · next hp => rw [hp]; rfl
        · cases h
    · simp only [next, if_true] at h
      split at h
      · next hp => rw [hp]; rfl
      · cases h
    · rcases guarded h with ⟨_, rfl, _⟩ | ⟨hc, _⟩
      · rfl
      · exact absurd rfl hc
    · rcases guarded h with ⟨_, rfl, _⟩ | ⟨hc, _⟩
      · rfl
      · exact absurd rfl hc
  · rintro rfl
    rcases guarded h with ⟨_, rfl, _⟩ | ⟨hc, _⟩
    · rfl
    · exact absurd rfl hc

end BlockPhase

namespace Impl

variable {s : Impl} {b : BlockId} {B : CacheBlock}

/-- Between operations a free is under way just for the blocks that wait. -/
private theorem WellFormed.phase (h : s.WellFormed .none) (b : BlockId) :
    (s.phaseOf .none b).events = s.queuedBlocks.count b ∧
      (s.phaseOf .none b).frees = if b ∈ s.queuedBlocks then 1 else 0 := by
  have hat := h.placed.at_block b
  cases hb : s.heap b with
  | none =>
    have hq := hat.not_queued hb
    simp [phaseOf, hb, events, frees, hq, count_eq_zero_of_not_mem hq]
  | some B =>
    have hcount := hat.count B hb
    have hmem : b ∈ s.queuedBlocks ↔ B.eventCount ≠ 0 := by
      rw [← count_pos_iff]
      omega
    have hevents := hat.allocated_events B hb
    rw [phaseOf_of hb]
    by_cases hal : B.allocated = true
    · have he := hevents hal
      simp [hal, events, frees, hmem]
      omega
    · by_cases he : B.eventCount = 0
      · simp [hal, he, events, frees, hmem]
        omega
      · simp [hal, he, events, frees, hmem]
        omega

end Impl

end Hisab.Memory
