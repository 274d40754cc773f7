import Hisab.Memory.AllocatorInvariant

/-!
# What each block operation does to the invariant

The operations of the allocator are sequences of a few updates: a block leaves its pool,
is cut, is published to the program, is freed, absorbs a neighbour, returns to its pool or
goes back to the driver with its segment. Each section says what one of them does to
`WellFormed`.
-/

namespace Hisab.Memory
open Hisab.Base ExtentMap Function RangeSum BlockPhase SizeT OrderedSet

namespace Impl

variable {s : Impl} {l : Limbo} {b : BlockId} {B : CacheBlock} {k : PoolKind}

/-! ### The pool sets -/

namespace WellFormed

/-- The comparator separates different blocks. -/
theorem eq_of_equiv (h : s.WellFormed l) {a b : BlockId} {A B : CacheBlock}
    (ha : s.heap a = some A) (hb : s.heap b = some B)
    (he : OrderedSet.equiv s.blockLt a b = true) : a = b := by
  simp only [equiv, blockLt, deref_of ha, deref_of hb, Bool.and_eq_true, Bool.not_eq_true'] at he
  exact h.ptr_inj ha hb (ptr_eq_of_equiv he.1 he.2)

theorem pool_live (h : s.WellFormed l) (hm : b ∈ s.pools k) :
    ∃ B, s.heap b = some B ∧ B.pool = k ∧ B.Idle ∧ l.block ≠ some b :=
  ((h.placed.at_block b).pool_iff k).mp hm

/-- Erasing by key removes the block itself. -/
theorem erase_perm (h : s.WellFormed l) (hm : b ∈ s.pools k) :
    (s.pools k).Perm (b :: OrderedSet.erase s.blockLt b (s.pools k)) := by
  obtain ⟨B, hB, _⟩ := h.pool_live hm
  apply OrderedSet.erase_perm hm
  · exact cacheBlockComparator_irrefl _
  · intro c hc he
    obtain ⟨C, hC, _⟩ := h.pool_live hc
    exact (h.eq_of_equiv hB hC he).symm

theorem mem_erase (h : s.WellFormed l) (hm : b ∈ s.pools k) (c : BlockId) :
    c ∈ OrderedSet.erase s.blockLt b (s.pools k) ↔ c ∈ s.pools k ∧ c ≠ b := by
  have hp := h.erase_perm hm
  have hnd := hp.nodup_iff.mp (h.placed.pool_nodup k)
  grind

/-- A pooled block is part of the cached bytes. -/
theorem pooled_le (h : s.WellFormed .none) (hB : s.heap b = some B) (hm : b ∈ s.pools k) :
    B.size ≤ s.bytesCached ∧ s.bytesCached ≤ s.stats.bytesReserved := by
  obtain ⟨-, hidle, -⟩ := ((h.placed.at_block b).pool hB k).mp hm
  have hw : cachedBytes .none b B = B.size := if_pos ⟨hidle, by simp⟩
  have htotal := le_total (f := cachedBytes .none) (h.lt hB) hB
  have hcached := h.accounted.cached
  have hle := h.cached_le
  simp only [Limbo.views_none] at hcached hle
  omega

/-- A live block is part of the allocated bytes. -/
theorem live_le (h : s.WellFormed l) (hB : s.heap b = some B) (hal : B.allocated = true) :
    B.size ≤ s.stats.bytesAllocated := by
  have hw : allocatedBytes b B = B.size := if_pos hal
  have htotal := le_total (f := allocatedBytes) (h.lt hB) hB
  have hallocated := h.accounted.allocated
  omega

/-- Blocks that were there before still have no free neighbour. -/
theorem coalesced_of_subset {s' : Impl} {l' : Limbo} (h : s.WellFormed .none)
    (hsub : ∀ x X, s'.heap x = some X → s.heap x = some X) (c : BlockId) (C : CacheBlock)
    (n : BlockId) (hC : s'.heap c = some C) (hn : C.next = some n) :
    ¬ (s'.Mergeable l' c ∧ s'.Mergeable l' n) := by
  intro ⟨⟨C', hC', hi, _⟩, N, hN, hj, _⟩
  apply h.coalesced c C n (hsub c C hC) hn
  constructor
  · exact ⟨C', hsub c C' hC', hi, by simp⟩
  · exact ⟨N, hsub n N hN, hj, by simp⟩

end WellFormed

/-! ### Taking a block out of its pool -/

/-- `b` leaves its pool and the cache. -/
def take (s : Impl) (k : PoolKind) (b : BlockId) : Impl :=
  let s' := { s with pools := update s.pools k ((s.pools k).erase b) }
  (s'.subBytesCached (s.deref b).size).log (.handedOut b)

/-- A block `get_free_block_locked` returns is one of the stream's, is large enough and
leaves its pool; otherwise nothing changes. -/
theorem getFreeBlockLocked_cases (s : Impl) (k : PoolKind) (stream : Stream) (size : Nat) :
    s.getFreeBlockLocked k stream size = (none, s) ∨
    ∃ b, s.getFreeBlockLocked k stream size = (some b, s.take k b) ∧ b ∈ s.pools k ∧
      (s.deref b).stream = stream ∧ size ≤ (s.deref b).size := by
  unfold getFreeBlockLocked
  dsimp only
  split
  · exact .inl rfl
  · next b hlb =>
    split
    · exact .inl rfl
    · next hst =>
      have hst : (s.deref b).stream = stream := by simpa using hst
      refine .inr ⟨b, rfl, mem_of_lowerBound hlb, hst, ?_⟩
      have hnb := not_before_of_lowerBound hlb
      unfold cacheBlockComparator at hnb
      grind

namespace WellFormed

theorem take (h : s.WellFormed .none) (hm : b ∈ s.pools k) : (s.take k b).WellFormed (.taken b) ∧
      ∀ c, c ≠ b → Unaffected .none (.taken b) s (s.take k b) c := by
  obtain ⟨B, hB, hk, hidle, -⟩ := h.pool_live hm
  have ha := h.accounted
  have hat := h.placed.at_block b
  have hnd := h.placed.pool_nodup
  have hw : cachedBytes .none b B = B.size := if_pos ⟨hidle, by simp⟩
  obtain ⟨hle, hreserved⟩ := h.pooled_le hB hm
  have hmod : s.bytesCached < modulus := Nat.lt_of_le_of_lt hreserved h.reserved_lt
  have hbytes : (s.take k b).bytesCached = s.bytesCached - B.size := by
    simp only [Impl.take, deref_of hB]
    exact sub_eq hle hmod
  have hpools (k' : PoolKind) (c : BlockId) :
      c ∈ (s.take k b).pools k' ↔ c ∈ s.pools k' ∧ c ≠ b := by
    have := hat.pool_iff k'
    simp only [Impl.take, log, subBytesCached, update_apply]
    split
    · next hk' => rw [(hnd k).mem_erase_iff, hk', and_comm]
    · grind
  have hu (c : BlockId) (hc : c ≠ b) : Unaffected .none (.taken b) s (s.take k b) c := by
    constructor
    case pools => simp [hpools, hc]
    case history => simp [Impl.take, log, subBytesCached, after, next, hc.symm]
    case after => simpa using hc.symm
    all_goals simp [Impl.take, log, subBytesCached, queuedBlocks, queueEntries]
  refine ⟨⟨h.layout, h.segment, ?_, ?_, ?_⟩, hu⟩
  case refine_1 =>
    refine h.placed.change hu ?_ ?_ h.placed.handles
    · constructor
      case pool_iff => simp [hpools]
      case no_uses => exact hat.no_uses
      case limbo_idle => exact fun _ ↦ ⟨B, hB, hidle⟩
      case lifecycle =>
        have hl := hat.lifecycle
        simp only [phaseOf, hB, hidle.1] at hl
        change after b (.handedOut b :: s.history) = some (s.phaseOf (.taken b) b)
        simp [after, hl, next, phaseOf, hB, hidle.2]
      case fresh => exact hat.fresh
      case allocated_iff => exact hat.allocated_iff
      case allocated_events => exact hat.allocated_events
      case count => exact hat.count
      case queued_live => exact hat.queued_live
    · intro k'
      simp only [Impl.take, log, subBytesCached, update_apply]
      split
      · exact (hnd k).erase b
      · exact hnd k'
  case refine_2 => exact h.coalesced_of_subset fun _ _ hx ↦ hx
  case refine_3 =>
    refine ha.change hu (h.lt hB) (.inl rfl) ?_ rfl rfl ha.segments ?_
    · have hw' : cachedBytes (.taken b) b B = 0 := by simp [cachedBytes]
      rw [weight_of hB, weight_of (show (s.take k b).heap b = some B from hB)]
      simp only [Limbo.views_none, Limbo.views_taken]
      omega
    · simp only [Impl.take, log, subBytesCached, deref_of hB, ha.no_underflow, Bool.false_or,
        decide_eq_false_iff_not]
      omega

end WellFormed
/-! ### Cutting a block -/

theorem modify?_eq (s : Impl) (p : Option BlockId) (f : CacheBlock → CacheBlock) :
    s.modify? p f = { s with
      heap := fun x ↦ if p = some x then (s.heap x).map f else s.heap x } := by
  cases p with
  | none => simp [modify?]
  | some p =>
    have hheap : update s.heap p ((s.heap p).map f) =
        fun x ↦ if some p = some x then (s.heap x).map f else s.heap x := by
      grind
    rw [modify?, modify, hheap]

/-- The low `n` bytes of block `b`, cut off as a block of its own. -/
def front (B : CacheBlock) (b : BlockId) (n : Nat) : CacheBlock :=
  { ptr := B.ptr, size := n, stream := B.stream, pool := B.pool, prev := B.prev, next := some b
    segmentBase := B.segmentBase, vmBacked := B.vmBacked
    registrationCounter := B.registrationCounter }

/-- What is left of a block after its low `n` bytes became block `c`. -/
def rest (B : CacheBlock) (c : BlockId) (n : Nat) : CacheBlock :=
  { B with prev := some c, ptr := B.ptr + n, size := B.size - n }

/-- The heap after `splitBlock`. -/
def splitHeap (s : Impl) (b : BlockId) (n : Nat) (B : CacheBlock) : BlockId → Option CacheBlock :=
  fun x ↦
    if x = s.nextBlock then some (front B b n)
    else if x = b then some (rest B s.nextBlock n)
    else if B.prev = some x then (s.heap x).map (fun P ↦ { P with next := some s.nextBlock })
    else s.heap x

/-- A set insertion of a block that is not in the set. -/
theorem poolInsert_perm {t : Impl} {seg : Regions} (hp : Partitioned t.extents seg)
    (hlive : ∀ c ∈ t.pools k, ∃ C, t.heap c = some C) (hb : t.heap b = some B)
    (hm : b ∉ t.pools k) :
    (OrderedSet.insert t.blockLt b (t.pools k)).Perm (b :: t.pools k) := by
  apply insert_perm
  intro c hc
  obtain ⟨C, hC⟩ := hlive c hc
  by_contra he
  simp only [Bool.not_eq_false] at he
  simp only [equiv, blockLt, deref_of hb, deref_of hC, Bool.and_eq_true, Bool.not_eq_true'] at he
  have := hp.start_inj (extents_of hb) (extents_of hC) (ptr_eq_of_equiv he.1 he.2)
  exact hm (this ▸ hc)

/-- The state after `splitBlock`, the pool of the remainder being `p`. -/
def cut (s : Impl) (b : BlockId) (n : Nat) (B : CacheBlock) (p : List BlockId) : Impl :=
  { s with
    heap := s.splitHeap b n B
    nextBlock := s.nextBlock + 1
    pools := update s.pools B.pool p
    bytesCached := SizeT.add s.bytesCached (B.size - n)
    history := .remainder b :: .created s.nextBlock :: s.history }

private theorem splitBlock_eq {n : Nat} (hb : s.heap b = some B) (hne : b ≠ s.nextBlock)
    (hprev : B.prev ≠ some b ∧ B.prev ≠ some s.nextBlock) (hn : n ≤ B.size)
    (hB : B.size < SizeT.modulus) :
    s.splitBlock b n = s.cut b n B
      (OrderedSet.insert (s.cut b n B []).blockLt b (s.pools B.pool)) := by
  have hsub : sub B.size n = B.size - n := sub_eq hn hB
  have hcut : ((s.newBlock
      { ptr := B.ptr, size := n, stream := B.stream, pool := B.pool
        registrationCounter := B.registrationCounter, segmentBase := B.segmentBase
        vmBacked := B.vmBacked, prev := B.prev, next := some b }).modify? B.prev
          (fun p ↦ { p with next := some s.nextBlock })).modify b
          (fun r ↦ { r with prev := some s.nextBlock, ptr := r.ptr + n, size := sub r.size n }) =
      { s with
        heap := s.splitHeap b n B
        nextBlock := s.nextBlock + 1
        history := .created s.nextBlock :: s.history } := by
    rw [modify?_eq]
    simp only [newBlock, modify, Impl.mk.injEq, true_and, and_true]
    funext x
    simp only [splitHeap, front, rest]
    grind
  unfold splitBlock
  simp only [deref_of hb, hcut]
  have hself : (s.cut b n B []).deref b = rest B s.nextBlock n := by
    apply deref_of
    simp [cut, splitHeap, hne]
  simp only [poolInsert, log, addBytesCached]
  simp only [cut, Impl.mk.injEq, true_and, and_true]
  exact ⟨congrArg (fun X : CacheBlock ↦ add s.bytesCached X.size) hself, rfl⟩

/-- The split of a block in hand. -/
theorem WellFormed.splitBlock_cut (h : s.WellFormed (.taken b)) (hb : s.heap b = some B) {n : Nat}
    (hn : n ≤ B.size) : s.splitBlock b n = s.cut b n B
      (OrderedSet.insert (s.cut b n B []).blockLt b (s.pools B.pool)) := by
  have hfresh := h.nextBlock_none
  have hbound := h.bounds hb
  have hprev : B.prev ≠ some b ∧ B.prev ≠ some s.nextBlock := by
    refine ⟨fun hl ↦ h.layout.prev_ne (extents_of hb) hl rfl, fun hl ↦ ?_⟩
    obtain ⟨P, hP, _⟩ := h.layout.prev_link b _ _ (extents_of hb) hl
    simp [extents, hfresh] at hP
  exact splitBlock_eq hb (Nat.ne_of_lt (h.lt hb)) hprev hn (by omega)

private theorem extents_cut {n : Nat} (s : Impl) (b : BlockId) (B : CacheBlock) (p : List BlockId) :
    (s.cut b n B p).extents = ExtentMap.split s.extents b s.nextBlock n B.extent := by
  funext x
  simp only [extents, cut, splitHeap, front, rest, ExtentMap.split]
  cases s.heap x <;> split_ifs <;> simp_all [CacheBlock.extent]

namespace WellFormed

/-- A block outside the cache still fits beside it. -/
theorem cached_add_le (h : s.WellFormed l) (hb : s.heap b = some B)
    (hl : cachedBytes l b B = 0) : s.bytesCached + l.owed + B.size ≤ s.stats.bytesReserved := by
  rw [h.accounted.cached, h.accounted.reserved]
  refine total_add_le (h.lt hb) hb (by simp [hl, sizeBytes]) ?_
  intro c C _
  unfold cachedBytes sizeBytes
  split <;> omega

/-- A block that is not live still fits beside the live ones. -/
theorem allocated_add_le (h : s.WellFormed l) (hb : s.heap b = some B)
    (ha : B.allocated = false) : s.stats.bytesAllocated + B.size ≤ s.stats.bytesReserved := by
  rw [h.accounted.allocated, h.accounted.reserved]
  refine total_add_le (h.lt hb) hb (by simp [ha, sizeBytes, allocatedBytes]) ?_
  intro c C _
  unfold allocatedBytes sizeBytes
  split <;> omega

private theorem placed_cut (h : s.WellFormed (.taken b)) (hb : s.heap b = some B) {n : Nat}
    {p : List BlockId} (hp : p.Perm (b :: s.pools B.pool)) (hbpool : b ∉ s.pools B.pool)
    (hu : ∀ c, c ≠ s.nextBlock → c ≠ b →
      Unaffected (.taken b) (.carved s.nextBlock) s (s.cut b n B p) c) :
    (s.cut b n B p).Placed (.carved s.nextBlock) := by
  have hne : b ≠ s.nextBlock := Nat.ne_of_lt (h.lt hb)
  have hidle := h.idle rfl hb
  have hfront : (s.cut b n B p).heap s.nextBlock = some (front B b n) := by simp [cut, splitHeap]
  have hself : (s.cut b n B p).heap b = some (rest B s.nextBlock n) := by simp [cut, splitHeap, hne]
  refine h.placed.change_two hu ?_ ?_ ?_ h.placed.handles
  · have hat := h.placed.at_block s.nextBlock
    have hnone := h.nextBlock_none
    refine .of_some hfront (Nat.lt_succ_self _) ?_ ?_ (fun _ ↦ rfl) (fun _ ↦ rfl)
      (fun _ ↦ ⟨rfl, rfl⟩) ?_ ?_
    · have hm := hp.mem_iff (a := s.nextBlock)
      have hout (k : PoolKind) : s.nextBlock ∉ s.pools k := by simp [hat.pool_iff, hnone]
      intro k
      simp only [cut, update_apply]
      split
      · simp [hm, hne.symm, hout]
      · simp [hout]
    · intro q
      change s.allocatedBlocks.lookup q = some s.nextBlock ↔ _
      simp [hat.allocated_iff, hnone, front]
    · have := List.count_eq_zero.mpr (hat.not_queued hnone)
      change (0 : Int) = s.queuedBlocks.count s.nextBlock
      rw [this]
      rfl
    · rw [phaseOf_of hfront]
      have hl := hat.lifecycle
      simp only [phaseOf, hnone] at hl
      simp [cut, after, hl, next, hne, front]
  · have hat := h.placed.at_block b
    refine .of_some hself (Nat.lt_succ_of_lt (h.lt hb)) ?_ ?_ ?_ (fun _ ↦ hidle.2)
      (fun _ ↦ hidle) (hat.count B hb) ?_
    · have hm := hp.mem_iff (a := b)
      intro k
      have := hat.pool hb k
      simp only [cut, update_apply, rest]
      split
      · next hk => simpa [hm, hk, hne.symm, CacheBlock.Idle] using hidle
      · next hk => simpa [this] using fun he ↦ absurd he.symm hk
    · intro q
      change s.allocatedBlocks.lookup q = some b ↔ _
      simp [hat.live hb, hidle.1, rest]
    · exact hat.no_uses B hb
    · rw [phaseOf_of hself]
      have hl := hat.lifecycle
      simp only [phaseOf_of hb] at hl
      simp [cut, after, hl, next, hne.symm, rest, hidle.1, hidle.2]
  · intro k
    simp only [cut, update_apply]
    split
    · exact hp.nodup_iff.mpr (List.nodup_cons.mpr ⟨hbpool, h.placed.pool_nodup _⟩)
    · exact h.placed.pool_nodup k

/-- The low part of a taken block is carved off; the remainder is back in its pool. -/
theorem splitBlock (h : s.WellFormed (.taken b)) (hb : s.heap b = some B) {n : Nat}
    (hn : 0 < n) (hlt : n < B.size) :
    (s.splitBlock b n).WellFormed (.carved s.nextBlock) ∧
      (s.splitBlock b n).heap = s.splitHeap b n B ∧
      ∀ c, c ≠ s.nextBlock → c ≠ b →
        Unaffected (.taken b) (.carved s.nextBlock) s (s.splitBlock b n) c := by
  have ha := h.accounted
  have hidle := h.idle rfl hb
  have hfresh := h.nextBlock_none
  have hne : b ≠ s.nextBlock := Nat.ne_of_lt (h.lt hb)
  have hlay (p : List BlockId) : Partitioned (s.cut b n B p).extents s.regions := by
    rw [extents_cut]
    exact h.layout.split (extents_of hb) (by simp [extents, hfresh]) hn hlt
  have hbpool : b ∉ s.pools B.pool := by
    intro hm
    obtain ⟨_, _, _, _, hl⟩ := h.pool_live hm
    exact hl rfl
  rw [h.splitBlock_cut hb (by omega)]
  have hperm : (insert (s.cut b n B []).blockLt b (s.pools B.pool)).Perm (b :: s.pools B.pool) := by
    refine poolInsert_perm (t := { s.cut b n B [] with pools := s.pools })
      (hlay []) ?_ (B := rest B s.nextBlock n) (by simp [cut, splitHeap, hne]) hbpool
    intro c hc
    obtain ⟨C, hC, _⟩ := h.pool_live hc
    simp only [cut, splitHeap, hC]
    split_ifs <;> exact ⟨_, rfl⟩
  generalize insert (s.cut b n B []).blockLt b (s.pools B.pool) = p at hperm
  have hadd : add s.bytesCached (B.size - n) = s.bytesCached + (B.size - n) := by
    apply add_eq
    have := h.cached_add_le hb (by simp [cachedBytes])
    have := h.reserved_lt
    omega
  have hu (c : BlockId) (hcf : c ≠ s.nextBlock) (hcb : c ≠ b) :
      Unaffected (.taken b) (.carved s.nextBlock) s (s.cut b n B p) c := by
    constructor
    case heap =>
      change (s.splitHeap b n B c).map CacheBlock.unlinked = _
      rw [splitHeap, if_neg hcf, if_neg hcb]
      cases hC : s.heap c <;> split <;> simp [CacheBlock.unlinked]
    case pools =>
      simp only [cut]
      grind
    case history => simp [cut, after, next, hcf.symm, hcb.symm]
    case before => simpa using hcb.symm
    case after => simpa using hcf.symm
    all_goals simp [cut, queuedBlocks, queueEntries]
  refine ⟨⟨hlay p, h.segment, placed_cut h hb hperm hbpool hu, ?_, ?_⟩, rfl, hu⟩
  case refine_1 =>
    -- a mergeable block was mergeable before
    have old {c : BlockId} (hm : (s.cut b n B p).Mergeable (.carved s.nextBlock) c) :
        c ≠ s.nextBlock ∧ s.Mergeable (.taken b) c := by
      obtain ⟨C, hC, hi, hx⟩ := hm
      have hcf : c ≠ s.nextBlock := fun he ↦ hx (by rw [he]; rfl)
      refine ⟨hcf, ?_⟩
      by_cases hcb : c = b
      · exact ⟨B, hcb ▸ hb, hidle, by simp⟩
      · simp only [cut, splitHeap, hcf, hcb, if_false] at hC
        split at hC
        · obtain ⟨P, hP, rfl⟩ := Option.map_eq_some_iff.mp hC
          exact ⟨P, hP, hi, by simp⟩
        · exact ⟨C, hC, hi, by simp⟩
    rintro c C m hC hm ⟨hfc, hfm⟩
    obtain ⟨hcf, hoc⟩ := old hfc
    obtain ⟨hmf, hom⟩ := old hfm
    change s.splitHeap b n B c = some C at hC
    by_cases hcb : c = b
    · subst hcb
      rw [splitHeap, if_neg hcf, if_pos rfl] at hC
      cases hC
      exact h.coalesced c B m hb hm ⟨hoc, hom⟩
    · rw [splitHeap, if_neg hcf, if_neg hcb] at hC
      split at hC
      · obtain ⟨P, hP, rfl⟩ := Option.map_eq_some_iff.mp hC
        cases hm
        exact hmf rfl
      · exact h.coalesced c C m hC hm ⟨hoc, hom⟩
  case refine_2 =>
    have hfront : (s.cut b n B p).heap s.nextBlock = some (front B b n) := by simp [cut, splitHeap]
    have hself : (s.cut b n B p).heap b = some (rest B s.nextBlock n) := by
      simp [cut, splitHeap, hne]
    have hlt' : b < s.nextBlock + 1 := Nat.lt_succ_of_lt (h.lt hb)
    refine ha.change_two (fun c hcb hcf ↦ hu c hcf hcb) hne hlt' (Nat.lt_succ_self _)
      (.inr ⟨rfl, hfresh⟩) ?_ ?_ ?_ ha.segments ha.no_underflow
    · have hcb : cachedBytes (.carved s.nextBlock) b (rest B s.nextBlock n) = B.size - n :=
        if_pos ⟨hidle, by simpa using hne.symm⟩
      have hcf : cachedBytes (.carved s.nextBlock) s.nextBlock (front B b n) = 0 := by
        simp [cachedBytes]
      have hcB : cachedBytes (.taken b) b B = 0 := by simp [cachedBytes]
      rw [weight_of hb, weight_none hfresh, weight_of hfront, weight_of hself]
      simp only [cut, Limbo.views_taken, Limbo.views_carved]
      omega
    · rw [weight_of hb, weight_none hfresh, weight_of hfront, weight_of hself]
      simp [cut, allocatedBytes, front, rest, hidle.1]
    · rw [weight_of hb, weight_none hfresh, weight_of hfront, weight_of hself]
      simp only [cut, sizeBytes, front, rest]
      omega

end WellFormed
/-! ### Publishing a block -/

/-- An assignment that leaves range, links, stream and pool alone. -/
theorem extents_update {X : CacheBlock} (hb : s.heap b = some B) (hX : X.extent = B.extent) :
    (fun x ↦ (update s.heap b (some X) x).map CacheBlock.extent) = s.extents := by
  funext x
  by_cases hx : x = b
  · subst hx
    rw [update_self, Option.map_some, hX, extents_of hb]
  · rw [update_of_ne hx, extents]

/-- No new link and no newly mergeable block. -/
theorem coalesced_mono {s' : Impl} {l' : Limbo}
    (h : ∀ b B n, s.heap b = some B → B.next = some n → ¬ (s.Mergeable l b ∧ s.Mergeable l n))
    (hext : s'.extents = s.extents) (hm : ∀ c, s'.Mergeable l' c → s.Mergeable l c) (c : BlockId)
    (C : CacheBlock) (n : BlockId) (hC : s'.heap c = some C) (hn : C.next = some n) :
    ¬ (s'.Mergeable l' c ∧ s'.Mergeable l' n) := by
  rintro ⟨hc, hm'⟩
  obtain ⟨D, hD, he⟩ := exists_of_extents (hext ▸ extents_of hC : s.extents c = some C.extent)
  exact h c D n hD ((congrArg Extent.next he).trans hn) ⟨hm c hc, hm n hm'⟩

/-- The state in which block `b` is live. -/
private def published (s : Impl) (b : BlockId) (size : Nat) (B : CacheBlock) : Impl :=
  { s with
    heap := update s.heap b (some { B with allocated := true, requestedSize := size })
    allocatedBlocks := s.allocatedBlocks.insert B.ptr b
    stats := { s.stats with bytesAllocated := s.stats.bytesAllocated + B.size } }

private theorem publishBlock_eq (hb : s.heap b = some B) (hnew : B.ptr ∉ s.allocatedBlocks)
    (hadd : s.stats.bytesAllocated + B.size < SizeT.modulus) (size : Nat) :
    (s.publishBlock b size).core = (s.published b size B).core := by
  have hd : (s.modify b (fun b ↦ { b with allocated := true, requestedSize := size })).deref b =
      { B with allocated := true, requestedSize := size } := by
    simp [deref, modify, hb]
  simp only [Impl.publishBlock, hd]
  simp [modify, hb, hnew, published, core, bumpPeakAllocated, add_eq hadd]

namespace WellFormed

/-- Without a free neighbour or with one, a block in hand may be published. -/
theorem carved (h : s.WellFormed (.taken b)) : s.WellFormed (.carved b) := by
  have hp := h.placed
  have ha := h.accounted
  refine ⟨h.layout, h.segment, ⟨fun c ↦ ?_, hp.pool_nodup, hp.handles⟩, ?_,
    ⟨ha.cached, ha.allocated, ha.reserved, ha.segments, ha.no_underflow⟩⟩
  · have hat := hp.at_block c
    exact ⟨hat.fresh, hat.pool_iff, hat.allocated_iff, hat.no_uses, hat.allocated_events,
      hat.limbo_idle, hat.count, hat.queued_live, hat.lifecycle⟩
  · rintro c C n hC hn ⟨⟨C', hC', hi, _⟩, N, hN, hj, _⟩
    exact h.coalesced c C n hC hn ⟨⟨C', hC', hi, by simp⟩, N, hN, hj, by simp⟩

/-- The block in hand becomes a live allocation. -/
theorem publishBlock (h : s.WellFormed (.carved b)) (hb : s.heap b = some B) (size : Nat) :
    (s.publishBlock b size).WellFormed .none ∧ (s.publishBlock b size).heap = update s.heap b
        (some { B with allocated := true, requestedSize := size }) ∧
      (s.publishBlock b size).allocatedBlocks = s.allocatedBlocks.insert B.ptr b ∧
      ∀ c, c ≠ b → Unaffected (.carved b) .none s (s.publishBlock b size) c := by
  have ha := h.accounted
  have hat := h.placed.at_block b
  have hidle := h.idle rfl hb
  have hnew : B.ptr ∉ s.allocatedBlocks := by
    intro hm
    obtain ⟨c, hc⟩ := Option.isSome_iff_exists.mp (AList.lookup_isSome.mpr hm)
    obtain ⟨C, hC, hal, hptr⟩ := ((h.placed.at_block c).allocated_iff _).mp hc
    cases h.ptr_inj hC hb hptr
    rw [hb] at hC
    cases hC
    rw [hidle.1] at hal
    cases hal
  have heq := publishBlock_eq hb hnew
    (Nat.lt_of_le_of_lt (h.allocated_add_le hb hidle.1) h.reserved_lt) size
  have hext : (s.published b size B).extents = s.extents := extents_update hb rfl
  have hX : (s.published b size B).heap b =
      some { B with allocated := true, requestedSize := size } := by simp [published]
  have hlookup (p : Nat) (c : BlockId) : (s.published b size B).allocatedBlocks.lookup p = some c ↔
        if p = B.ptr then b = c else s.allocatedBlocks.lookup p = some c := by
    by_cases hp : p = B.ptr
    · rw [hp]
      simp [published]
    · simp [published, hp]
  have hu (c : BlockId) (hc : c ≠ b) : Unaffected (.carved b) .none s (s.published b size B) c := by
    constructor
    case heap => simp [published, hc]
    case live =>
      intro p
      rw [hlookup]
      split
      · next hp =>
        refine ⟨fun he ↦ absurd he.symm hc, fun hl ↦ ?_⟩
        exact absurd (AList.lookup_isSome.mp (Option.isSome_iff_exists.mpr ⟨c, hl⟩)) (hp ▸ hnew)
      · rfl
    case before => simpa using hc.symm
    all_goals simp [published, queuedBlocks, queueEntries]
  refine ⟨congr ?_ heq, congrArg heap heq,
    congrArg allocatedBlocks heq, fun c hc ↦ (hu c hc).congr rfl heq⟩
  refine ⟨by rw [hext]; exact h.layout, h.segment, ?_, coalesced_mono h.coalesced hext ?_, ?_⟩
  · refine h.placed.change hu (.of_some hX (h.lt hb) ?_ ?_ ?_ ?_ ?_ (hat.count B hb) ?_)
      h.placed.pool_nodup h.placed.handles
    · intro k
      change b ∈ s.pools k ↔ _
      simp [hat.pool hb, CacheBlock.Idle]
    · intro p
      rw [hlookup]
      split
      · next hp => simp [hp]
      · next hp => simp [hat.live hb, Ne.symm hp]
    · simp
    · exact fun _ ↦ hidle.2
    · simp
    · have hl := hat.lifecycle
      rw [phaseOf_of hb] at hl
      rw [phaseOf_of hX]
      simpa [published, hidle.1, hidle.2] using hl
  · rintro c ⟨C, hC, hi, _⟩
    change update s.heap b _ c = some C at hC
    by_cases hc : c = b
    · subst hc
      rw [update_self] at hC
      cases hC
      cases hi.1
    · rw [update_of_ne hc] at hC
      exact ⟨C, hC, hi, by simpa using Ne.symm hc⟩
  · refine ha.change hu (h.lt hb) (.inl rfl) ?_ ?_ ?_ ha.segments ha.no_underflow
    · rw [weight_of hb, weight_of hX]
      simp [published, cachedBytes, CacheBlock.Idle]
    · rw [weight_of hb, weight_of hX]
      simp [published, allocatedBytes, hidle.1]
    · rw [weight_of hb, weight_of hX]
      rfl

end WellFormed
end Impl
end Hisab.Memory
