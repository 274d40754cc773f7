import Hisab.Memory.BlockSteps
import Hisab.Memory.CudaAllocatorMachine

/-!
# Freeing a block

A live block is taken back from the program, absorbs its free neighbours and returns to
its pool. The invariant that no two neighbours are free is suspended for the block on its
way and restored when it arrives: what it did not absorb is not free.
-/

namespace Hisab.Memory
open Hisab.Base ExtentMap Function RangeSum BlockPhase SizeT

namespace Impl

variable {s : Impl} {l : Limbo} {b dst src : BlockId} {B D S L R : CacheBlock} {owed : Nat}

/-! ### Taking a block back -/

/-- `deallocate` up to the decision whether the block must wait. -/
def beginFree (s : Impl) (ptr : Nat) (block : BlockId) (hint : Stream) : Impl :=
  let s := { s with allocatedBlocks := s.allocatedBlocks.erase ptr }
  let s := (s.modify block (fun b ↦ { b with allocated := false })).log (.freed block)
  let s := { s with stats := { s.stats with
    successfulFrees := SizeT.add s.stats.successfulFrees 1 } }
  let s := s.subBytesAllocated (s.deref block).size
  if hint ≠ 0 ∧ hint ≠ (s.deref block).stream then
    s.modify block (fun b ↦ { b with streamUses := insertStream hint b.streamUses })
  else s

theorem deallocateBlock_eq (d : DriverAnswers) (s : Impl) (ptr : Nat) (b : BlockId)
    (hint : Stream) :
    s.deallocateBlock d ptr b hint =
      if ((s.beginFree ptr b hint).deref b).streamUses.isEmpty then
        (.done, ((s.beginFree ptr b hint).freeBlockLocked b).trimCacheLocked)
      else
        match (s.beginFree ptr b hint).insertEventsLocked d b with
        | (.error e, s) => (.threw e, s)
        | (.ok (), s) => (.done, s.trimCacheLocked) := rfl

/-- The streams a block handed back with a hint has to wait for. -/
def usesWith (B : CacheBlock) (hint : Stream) : List Stream :=
  if hint ≠ 0 ∧ hint ≠ B.stream then insertStream hint B.streamUses else B.streamUses

private def detached (s : Impl) (b : BlockId) (B : CacheBlock) : Impl :=
  { s with
    heap := update s.heap b (some { B with allocated := false, streamUses := [] })
    allocatedBlocks := s.allocatedBlocks.erase B.ptr
    history := .freed b :: s.history
    stats := { s.stats with bytesAllocated := s.stats.bytesAllocated - B.size } }

theorem beginFree_heap (hb : s.heap b = some B) (hint : Stream) :
    (s.beginFree B.ptr b hint).heap = update s.heap b
      (some { B with allocated := false, streamUses := usesWith B hint }) := by
  by_cases hh : hint ≠ 0 ∧ hint ≠ B.stream
  · simp [beginFree, modify, hb, deref, log, subBytesAllocated, hh, usesWith]
  · simp [beginFree, modify, hb, deref, log, subBytesAllocated, hh, usesWith]

theorem beginFree_fixed (s : Impl) (ptr : Nat) (b : BlockId) (hint : Stream) :
    (s.beginFree ptr b hint).cudaEvents = s.cudaEvents ∧
      (s.beginFree ptr b hint).recorded = s.recorded ∧
      (s.beginFree ptr b hint).submitted = s.submitted ∧
      (s.beginFree ptr b hint).driverSegments = s.driverSegments ∧
      (s.beginFree ptr b hint).allocatedBlocks = s.allocatedBlocks.erase ptr := by
  unfold beginFree
  dsimp only
  split <;> exact ⟨rfl, rfl, rfl, rfl, rfl⟩

/-- `beginFree` and then forgetting the streams, which `insert_events_locked` does first. -/
private theorem beginFree_eq (hb : s.heap b = some B)
    (hle : B.size ≤ s.stats.bytesAllocated) (hlt : s.stats.bytesAllocated < SizeT.modulus)
    (hint : Stream) :
    ((s.beginFree B.ptr b hint).modify b (fun b ↦ { b with streamUses := [] })).core =
      (s.detached b B).core := by
  have huf : (s.underflow || decide (s.stats.bytesAllocated < B.size)) = s.underflow := by
    rw [decide_eq_false (by omega), Bool.or_false]
  by_cases hh : hint ≠ 0 ∧ hint ≠ B.stream
  · simp [beginFree, modify, hb, deref, log, subBytesAllocated, hh, core, detached,
      sub_eq hle hlt, huf]
  · simp [beginFree, modify, hb, deref, log, subBytesAllocated, hh, core, detached,
      sub_eq hle hlt, huf]

/-- What holds of a state in which the live block has been taken back, waiting for nothing. -/
structure TakenBack (s t : Impl) (b : BlockId) (B : CacheBlock) : Prop where
  wellFormed : t.WellFormed (.freeing b B.size)
  heap : t.heap = update s.heap b (some { B with allocated := false, streamUses := [] })
  unaffected : ∀ c, c ≠ b → Unaffected .none (.freeing b B.size) s t c

private theorem WellFormed.detached (h : s.WellFormed .none) (hb : s.heap b = some B)
    (hal : B.allocated = true) : TakenBack s (s.detached b B) b B := by
  have ha := h.accounted
  have hat := h.placed.at_block b
  have haB : allocatedBytes b B = B.size := if_pos hal
  have hX : (s.detached b B).heap b =
      some { B with allocated := false, streamUses := [] } := by simp [Impl.detached]
  have hlookup (p : Nat) (c : BlockId) : (s.detached b B).allocatedBlocks.lookup p = some c ↔
      p ≠ B.ptr ∧ s.allocatedBlocks.lookup p = some c := by
    by_cases hp : p = B.ptr
    · rw [hp]
      simp [Impl.detached]
    · simp [Impl.detached, hp]
  have hBp : s.allocatedBlocks.lookup B.ptr = some b := (hat.live hb _).mpr ⟨hal, rfl⟩
  have hu (c : BlockId) (hc : c ≠ b) :
      Unaffected .none (.freeing b B.size) s (s.detached b B) c := by
    constructor
    case heap => simp [Impl.detached, hc]
    case live =>
      intro p
      rw [hlookup, and_iff_right_iff_imp]
      rintro hl rfl
      rw [hBp] at hl
      exact hc (Option.some.inj hl).symm
    case history => simp [Impl.detached, after, next, hc.symm]
    case after => simpa using hc.symm
    all_goals simp [Impl.detached, queuedBlocks, queueEntries]
  have hext : (s.detached b B).extents = s.extents := extents_update hb rfl
  refine ⟨⟨by rw [hext]; exact h.layout, h.segment, ?_, coalesced_mono h.coalesced hext ?_, ?_⟩,
    rfl, hu⟩
  · refine h.placed.change hu (.of_some hX (h.lt hb) ?_ ?_ ?_ ?_ ?_ (hat.count B hb) ?_)
      h.placed.pool_nodup h.placed.handles
    · intro k
      change b ∈ s.pools k ↔ _
      simp [hat.pool hb, CacheBlock.Idle, hal]
    · intro p
      rw [hlookup, hat.live hb]
      simp only [Bool.false_eq_true, false_and, iff_false]
      rintro ⟨hp, _, rfl⟩
      exact hp rfl
    · simp
    · simp
    · exact fun _ ↦ ⟨rfl, hat.allocated_events B hb hal⟩
    · have hl := hat.lifecycle
      rw [phaseOf_of hb] at hl
      rw [phaseOf_of hX]
      simp only [hal] at hl
      simp [Impl.detached, after, hl, next, hat.allocated_events B hb hal]
  · rintro c ⟨C, hC, hi, he⟩
    have hc : c ≠ b := by
      rintro rfl
      exact he rfl
    exact ⟨C, by simpa [Impl.detached, hc] using hC, hi, by simp⟩
  · refine ha.change hu (h.lt hb) (.inl rfl) ?_ ?_ ?_ ha.segments ha.no_underflow
    · rw [weight_of hb, weight_of hX]
      simp [Impl.detached, cachedBytes, CacheBlock.Idle, hal, hat.allocated_events B hb hal]
    · have hle := h.live_le hb hal
      rw [weight_of hb, weight_of hX, haB]
      simp only [Impl.detached, allocatedBytes, Bool.false_eq_true, if_false]
      omega
    · rw [weight_of hb, weight_of hX]
      rfl

/-- The block of a free, once its streams have been read, is on its way to its pool, for
which all its bytes are due. -/
theorem WellFormed.beginWait (h : s.WellFormed .none) (hb : s.heap b = some B)
    (hal : B.allocated = true) (hint : Stream) :
    TakenBack s ((s.beginFree B.ptr b hint).modify b (fun b ↦ { b with streamUses := [] })) b B := by
  have hle := h.live_le hb hal
  have hlt := Nat.lt_of_le_of_lt h.allocated_le h.reserved_lt
  have heq := beginFree_eq hb hle hlt hint
  have ht := h.detached hb hal
  exact ⟨ht.wellFormed.congr heq, congrArg heap heq, fun c hc ↦ (ht.unaffected c hc).congr rfl heq⟩

/-- So is a block that has no stream to wait for. -/
theorem WellFormed.beginFree (h : s.WellFormed .none) (hb : s.heap b = some B)
    (hal : B.allocated = true) (hint : Stream) (huses : usesWith B hint = []) :
    TakenBack s (s.beginFree B.ptr b hint) b B := by
  have hheap := beginFree_heap hb hint
  have hself : (s.beginFree B.ptr b hint).modify b (fun b ↦ { b with streamUses := [] }) =
      s.beginFree B.ptr b hint := by
    simp only [modify, hheap, update_self, Option.map_some, update_idem]
    rw [← huses, ← hheap]
  exact hself ▸ h.beginWait hb hal hint

/-! ### Absorbing a neighbour -/

/-- Block `dst` after it absorbed its neighbour, the two being `L` and `R` in address order. -/
def absorb (D L R : CacheBlock) : CacheBlock :=
  { D with ptr := L.ptr, size := L.size + R.size, prev := L.prev, next := R.next }

private def mergeHeap (s : Impl) (dst src : BlockId) (D L R : CacheBlock) :
    BlockId → Option CacheBlock := fun x ↦
  if x = src then none
  else if x = dst then some (absorb D L R)
  else if L.prev = some x then (s.heap x).map (fun P ↦ { P with next := some dst })
  else if R.next = some x then (s.heap x).map (fun N ↦ { N with prev := some dst })
  else s.heap x

/-- The state after `try_merge_locked`, the pool of the neighbour being `p`. -/
private def mergedState (s : Impl) (dst src : BlockId) (D L R : CacheBlock) (p : List BlockId) :
    Impl :=
  { s with
    heap := s.mergeHeap dst src D L R
    pools := update s.pools D.pool p
    history := .merged dst src :: s.history }

private theorem extents_merged (p : List BlockId) (hbase : D.segmentBase = L.segmentBase)
    (htag : (D.stream, D.pool) = (L.stream, L.pool)) :
    (s.mergedState dst src D L R p).extents =
      ExtentMap.join s.extents dst src L.extent R.extent := by
  funext x
  simp only [extents, mergedState, mergeHeap, ExtentMap.join]
  split
  · rfl
  · split
    · simp [absorb, CacheBlock.extent, hbase, htag]
    · cases s.heap x <;> split_ifs <;> simp_all [CacheBlock.extent]

/-- The heap while `dst` has absorbed its neighbour, which is still there. -/
private def joining (s : Impl) (dst : BlockId) (X : CacheBlock) (side : Option BlockId)
    (g : CacheBlock → CacheBlock) : Impl :=
  { s with heap := fun x ↦
      if x = dst then some X else if side = some x then (s.heap x).map g else s.heap x }

private theorem joining_eq {f g k : CacheBlock → CacheBlock} {side : Option BlockId}
    (hD : s.heap dst = some D) (hside : side ≠ some dst) :
    ((s.modify dst f).modify? side g).modify dst k = s.joining dst (k (f D)) side g := by
  rw [modify?_eq]
  simp only [modify, joining, Impl.mk.injEq, true_and, and_true]
  funext x
  by_cases hx : x = dst
  · subst hx
    simp [hside, hD]
  · simp [hx]

private theorem joining_merged (p : List BlockId) (side : Option BlockId)
    (g : CacheBlock → CacheBlock) (hne : dst ≠ src)
    (hg : ∀ x, x ≠ dst → x ≠ src → (if side = some x then (s.heap x).map g else s.heap x) =
      if L.prev = some x then (s.heap x).map (fun P ↦ { P with next := some dst })
      else if R.next = some x then (s.heap x).map (fun N ↦ { N with prev := some dst })
      else s.heap x) :
    (({ s.joining dst (absorb D L R) side g with
      pools := update s.pools D.pool p } : Impl).deleteBlock src).log (.merged dst src) =
      s.mergedState dst src D L R p := by
  simp only [joining, deleteBlock, log, mergedState, Impl.mk.injEq, true_and, and_true]
  funext x
  by_cases hx : x = src
  · simp [mergeHeap, hx]
  · by_cases hxd : x = dst
    · simp [mergeHeap, hxd, hne]
    · simpa only [mergeHeap, update_of_ne hx, hx, hxd, if_false] using hg x hxd hx

/-- Block `src` is the neighbour of `dst` on one side; `L` and `R` are the two in order. -/
def Beside (dst src : BlockId) (D S L R : CacheBlock) : Prop :=
  (D.next = some src ∧ L = D ∧ R = S) ∨ (S.next = some dst ∧ L = S ∧ R = D)

namespace WellFormed

private theorem beside_facts (h : s.WellFormed l) (hD : s.heap dst = some D)
    (hS : s.heap src = some S) (hLR : Beside dst src D S L R) :
    dst ≠ src ∧ S.pool = D.pool ∧ D.segmentBase = L.segmentBase ∧
      (D.stream, D.pool) = (L.stream, L.pool) ∧ L.size + R.size = D.size + S.size ∧
      ∃ l r, Neighbours s.extents l r dst src L.extent R.extent := by
  rcases hLR with ⟨hn, rfl, rfl⟩ | ⟨hn, rfl, rfl⟩
  · obtain ⟨E, hE, _, _, hbase, htag⟩ := h.layout.next_link dst _ src (extents_of hD) hn
    rw [extents_of hS] at hE
    cases hE
    exact ⟨(h.layout.next_ne (extents_of hD) hn).symm, congrArg Prod.snd htag, rfl, rfl, rfl,
      dst, src, extents_of hD, extents_of hS, hn, .inl ⟨rfl, rfl⟩⟩
  · obtain ⟨E, hE, _, _, hbase, htag⟩ := h.layout.next_link src _ dst (extents_of hS) hn
    rw [extents_of hD] at hE
    cases hE
    exact ⟨h.layout.next_ne (extents_of hS) hn, (congrArg Prod.snd htag).symm, hbase, htag,
      Nat.add_comm _ _, src, dst, extents_of hS, extents_of hD, hn, .inr ⟨rfl, rfl⟩⟩

/-- Absorbing a free neighbour keeps the invariant and leaves everything else alone. -/
private theorem merged (h : s.WellFormed (.freeing dst owed)) (hD : s.heap dst = some D)
    (hS : s.heap src = some S) (hLR : Beside dst src D S L R) (hi : S.Idle)
    {p : List BlockId} (hp : (s.pools D.pool).Perm (src :: p)) :
    (s.mergedState dst src D L R p).WellFormed (.freeing dst owed) ∧
      ∀ c, c ≠ dst → c ≠ src → Unaffected (.freeing dst owed) (.freeing dst owed) s
        (s.mergedState dst src D L R p) c := by
  obtain ⟨hne, hpool, hbase, htag, hsize, x, y, hN⟩ := h.beside_facts hD hS hLR
  have ha := h.accounted
  have hat := h.placed.at_block dst
  have hatS := h.placed.at_block src
  have hidle := h.idle rfl hD
  have hX : (s.mergedState dst src D L R p).heap dst = some (absorb D L R) := by
    simp [mergedState, mergeHeap, hne]
  have hY : (s.mergedState dst src D L R p).heap src = none := by simp [mergedState, mergeHeap]
  have hnd := hp.nodup_iff.mp (h.placed.pool_nodup D.pool)
  have hmem (k : PoolKind) (c : BlockId) :
      c ∈ (s.mergedState dst src D L R p).pools k ↔ c ∈ s.pools k ∧ c ≠ src := by
    have hm := hp.mem_iff (a := c)
    simp only [mergedState, update_apply]
    split
    · next hk =>
      rw [hk, hm, List.mem_cons]
      have := (List.nodup_cons.mp hnd).1
      constructor
      · intro hc
        exact ⟨.inr hc, by rintro rfl; exact this hc⟩
      · rintro ⟨rfl | hc, hcs⟩
        · exact absurd rfl hcs
        · exact hc
    · next hk =>
      rw [iff_self_and]
      rintro hc rfl
      exact hk (((hatS.pool hS k).mp hc).1.symm.trans hpool)
  have hu (c : BlockId) (hcd : c ≠ dst) (hcs : c ≠ src) :
      Unaffected (.freeing dst owed) (.freeing dst owed) s (s.mergedState dst src D L R p) c := by
    constructor
    case heap =>
      change (s.mergeHeap dst src D L R c).map CacheBlock.unlinked = _
      rw [mergeHeap, if_neg hcs, if_neg hcd]
      cases s.heap c <;> split_ifs <;> simp [CacheBlock.unlinked]
    case pools => simp [hmem, hcs]
    case history => simp [mergedState, after, next, hcd.symm, hcs.symm]
    case before => simpa using hcd.symm
    case after => simpa using hcd.symm
    all_goals simp [mergedState, queuedBlocks, queueEntries]
  refine ⟨⟨?_, h.segment, ?_, ?_, ?_⟩, hu⟩
  · rw [extents_merged p hbase htag]
    exact h.layout.join hN
  · refine h.placed.change_two hu (.of_some hX (h.lt hD) ?_ ?_ ?_ ?_ ?_ (hat.count D hD) ?_)
      (.of_none hY ?_ ?_ ?_ ?_ ?_) ?_ h.placed.handles
    · intro k
      rw [hmem, hat.pool hD]
      simp
    · intro q
      change s.allocatedBlocks.lookup q = some dst ↔ _
      simp [hat.live hD, hidle.1, absorb]
    · exact hat.no_uses D hD
    · exact fun _ ↦ hidle.2
    · exact fun _ ↦ hidle
    · have hl := hat.lifecycle
      rw [phaseOf_of hD] at hl
      rw [phaseOf_of hX]
      simp [mergedState, after, hl, next, hne.symm, absorb, hidle.1, hidle.2]
    · simp [hmem]
    · intro q
      change s.allocatedBlocks.lookup q ≠ some src
      simp [hatS.live hS, hi.1]
    · simpa using hne
    · rw [← List.count_eq_zero]
      have := hatS.count S hS
      rw [hi.2] at this
      exact Int.ofNat_eq_zero.mp this.symm
    · have hl := hatS.lifecycle
      rw [phaseOf_of hS] at hl
      simp only [hi.1, hi.2] at hl
      simp [hne] at hl
      simp [mergedState, after, hl, next]
    · intro k
      simp only [mergedState, update_apply]
      split
      · exact (List.nodup_cons.mp hnd).2
      · exact h.placed.pool_nodup k
  · have old {c : BlockId} (hm : (s.mergedState dst src D L R p).Mergeable (.freeing dst owed) c) :
        c ≠ dst ∧ c ≠ src ∧ s.Mergeable (.freeing dst owed) c := by
      obtain ⟨C, hC, _, hx⟩ := id hm
      have hcd : c ≠ dst := by
        rintro rfl
        exact hx rfl
      have hcs : c ≠ src := by
        rintro rfl
        rw [hY] at hC
        cases hC
      exact ⟨hcd, hcs, (hu c hcd hcs).mergeable hm⟩
    rintro c C m hC hm ⟨hfc, hfm⟩
    obtain ⟨hcd, hcs, hoc⟩ := old hfc
    obtain ⟨hmd, _, hom⟩ := old hfm
    change s.mergeHeap dst src D L R c = some C at hC
    rw [mergeHeap, if_neg hcs, if_neg hcd] at hC
    split at hC
    · obtain ⟨P, hP, rfl⟩ := Option.map_eq_some_iff.mp hC
      cases hm
      exact hmd rfl
    · split at hC
      · obtain ⟨N, hN', rfl⟩ := Option.map_eq_some_iff.mp hC
        exact h.coalesced c N m hN' hm ⟨hoc, hom⟩
      · exact h.coalesced c C m hC hm ⟨hoc, hom⟩
  · refine ha.change_two hu hne (h.lt hD) (h.lt hS) (.inl rfl) ?_ ?_ ?_ ha.segments
      ha.no_underflow
    · rw [weight_of hD, weight_of hS, weight_of hX, weight_none hY]
      have hc : cachedBytes (.freeing dst owed) dst D = D.size := if_pos ⟨hidle, by simp⟩
      have hc' : cachedBytes (.freeing dst owed) src S = S.size := if_pos ⟨hi, by simp⟩
      have hc'' : cachedBytes (.freeing dst owed) dst (absorb D L R) = L.size + R.size :=
        if_pos ⟨hidle, by simp⟩
      rw [hc, hc', hc'', hsize]
      rfl
    · rw [weight_of hD, weight_of hS, weight_of hX, weight_none hY]
      simp [mergedState, allocatedBytes, absorb, hidle.1, hi.1]
    · rw [weight_of hD, weight_of hS, weight_of hX, weight_none hY]
      simp only [absorb, hsize]
      rfl

/-- The neighbour after a block has the block as its predecessor. -/
private theorem map_prev (h : s.WellFormed l) (hD : s.heap dst = some D) {x : BlockId}
    (hx : D.next = some x) :
    (s.heap x).map (fun N ↦ { N with prev := some dst }) = s.heap x := by
  obtain ⟨E, hE, hp, _⟩ := h.layout.next_link dst _ x (extents_of hD) hx
  obtain ⟨N, hN, rfl⟩ := exists_of_extents hE
  cases N
  simp_all [CacheBlock.extent]

/-- The neighbour before a block has the block as its successor. -/
private theorem map_next (h : s.WellFormed l) (hD : s.heap dst = some D) {x : BlockId}
    (hx : D.prev = some x) :
    (s.heap x).map (fun P ↦ { P with next := some dst }) = s.heap x := by
  obtain ⟨E, hE, hn⟩ := h.layout.prev_link dst _ x (extents_of hD) hx
  obtain ⟨P, hP, rfl⟩ := exists_of_extents hE
  cases P
  simp_all [CacheBlock.extent]

/-- Erasing the neighbour while only `dst` has changed size and start. -/
private theorem erase_src_perm (h : s.WellFormed (.freeing dst owed)) (hS : s.heap src = some S)
    (hne : dst ≠ src) (hm : src ∈ s.pools S.pool) {t : Impl}
    (ht : ∀ c, c ≠ dst → (t.heap c).map CacheBlock.ptr = (s.heap c).map CacheBlock.ptr) :
    (s.pools S.pool).Perm (src :: OrderedSet.erase t.blockLt src (s.pools S.pool)) := by
  apply OrderedSet.erase_perm hm
  · exact cacheBlockComparator_irrefl _
  · intro c hc he
    obtain ⟨C, hC, _, _, hcd⟩ := h.pool_live hc
    have hcd : c ≠ dst := by
      rintro rfl
      exact hcd rfl
    have hptr {x : BlockId} {X : CacheBlock} (hx : s.heap x = some X) (hxd : x ≠ dst) :
        (t.deref x).ptr = X.ptr := by
      have := ht x hxd
      rw [hx] at this
      obtain ⟨Y, hY, hp⟩ := Option.map_eq_some_iff.mp this
      rw [deref_of hY, hp]
    simp only [OrderedSet.equiv, Bool.and_eq_true, Bool.not_eq_true'] at he
    have := ptr_eq_of_equiv he.1 he.2
    rw [hptr hS hne.symm, hptr hC hcd] at this
    exact (h.ptr_inj hS hC this).symm

private theorem tryMergeLocked_prev (h : s.WellFormed (.freeing dst owed))
    (hD : s.heap dst = some D) (hS : s.heap src = some S) (hprev : D.prev = some src)
    (hfree : S.allocated = false ∧ S.eventCount = 0 ∧ S.streamUses = []) :
    ∃ p, Beside dst src D S S D ∧ (s.pools D.pool).Perm (src :: p) ∧
      s.tryMergeLocked dst (some src) = s.mergedState dst src D S D p := by
  obtain ⟨P, hP, hnext, hstart, hbase, htag⟩ := h.layout.prev_extent (extents_of hD) hprev
  rw [extents_of hS] at hP
  cases hP
  have hne : dst ≠ src := h.layout.next_ne (extents_of hS) hnext
  have hpool : S.pool = D.pool := (congrArg Prod.snd htag).symm
  have hm : src ∈ s.pools S.pool := by
    rw [(h.placed.at_block src).pool hS]
    exact ⟨rfl, ⟨hfree.1, hfree.2.1⟩, by simpa using hne⟩
  have hside : S.prev ≠ some dst := fun hx ↦ h.layout.prev_ne_next (extents_of hS) hx hnext rfl
  have hsum : add D.size S.size = S.size + D.size := by
    have := h.bounds hS
    have := h.bounds hD
    simp only [CacheBlock.extent] at hstart
    rw [add_eq (by omega), Nat.add_comm]
  have hd : (s.joining dst (absorb D S D) S.prev
      (fun p ↦ { p with next := some dst })).deref dst = absorb D S D :=
    deref_of (by simp [joining])
  have hperm := h.erase_src_perm hS hne hm
    (t := s.joining dst (absorb D S D) S.prev (fun p ↦ { p with next := some dst })) (by
      intro c hc
      simp only [joining, hc, if_false]
      split
      · cases s.heap c <;> rfl
      · rfl)
  rw [hpool] at hperm
  refine ⟨_, .inr ⟨hnext, rfl, rfl⟩, hperm, ?_⟩
  rw [← joining_merged _ S.prev (fun p ↦ { p with next := some dst }) hne]
  · have habs : ({ D with ptr := S.ptr, prev := S.prev, size := add D.size S.size } :
        CacheBlock) = absorb D S D := by rw [hsum]; rfl
    simp only [tryMergeLocked, deref_of hS, deref_of hD, hprev, hfree.1, hfree.2.1, hfree.2.2,
      if_true, joining_eq hD hside, habs, hd]
    rfl
  · intro x hxd hx
    split
    · rfl
    · split
      · next hn => exact (h.map_prev hD hn).symm
      · rfl

private theorem tryMergeLocked_next (h : s.WellFormed (.freeing dst owed))
    (hD : s.heap dst = some D) (hS : s.heap src = some S) (hnext : D.next = some src)
    (hfree : S.allocated = false ∧ S.eventCount = 0 ∧ S.streamUses = []) :
    ∃ p, Beside dst src D S D S ∧ (s.pools D.pool).Perm (src :: p) ∧
      s.tryMergeLocked dst (some src) = s.mergedState dst src D D S p := by
  obtain ⟨E, hE, hprev, hstart, hbase, htag⟩ := h.layout.next_link dst _ src (extents_of hD) hnext
  rw [extents_of hS] at hE
  cases hE
  have hne : dst ≠ src := (h.layout.next_ne (extents_of hD) hnext).symm
  have hpool : S.pool = D.pool := congrArg Prod.snd htag
  have hm : src ∈ s.pools S.pool := by
    rw [(h.placed.at_block src).pool hS]
    exact ⟨rfl, ⟨hfree.1, hfree.2.1⟩, by simpa using hne⟩
  have hside : S.next ≠ some dst := fun hx ↦ h.layout.prev_ne_next (extents_of hS) hprev hx rfl
  have hDprev : D.prev ≠ some src := fun hx ↦ h.layout.prev_ne_next (extents_of hD) hx hnext rfl
  have hsum : add D.size S.size = D.size + S.size := by
    have := h.bounds hS
    have := h.bounds hD
    simp only [CacheBlock.extent] at hstart
    rw [add_eq (by omega)]
  -- no block lies both before `dst` and after `src`
  have hapart {x : BlockId} (hx : D.prev = some x) : S.next ≠ some x := by
    intro hn
    obtain ⟨P, hP, _, hPs, _⟩ := h.layout.prev_extent (extents_of hD) hx
    obtain ⟨N, hN, _, hNs, _⟩ := h.layout.next_link src _ x (extents_of hS) hn
    rw [hP] at hN
    cases hN
    have := h.layout.pos _ _ (extents_of hD)
    omega
  have hd : (s.joining dst (absorb D D S) S.next
      (fun n ↦ { n with prev := some dst })).deref dst = absorb D D S :=
    deref_of (by simp [joining])
  have hperm := h.erase_src_perm hS hne hm
    (t := s.joining dst (absorb D D S) S.next (fun n ↦ { n with prev := some dst })) (by
      intro c hc
      simp only [joining, hc, if_false]
      split
      · cases s.heap c <;> rfl
      · rfl)
  rw [hpool] at hperm
  refine ⟨_, .inl ⟨hnext, rfl, rfl⟩, hperm, ?_⟩
  rw [← joining_merged _ S.next (fun n ↦ { n with prev := some dst }) hne]
  · have habs : ({ D with next := S.next, size := add D.size S.size } : CacheBlock) =
        absorb D D S := by rw [hsum]; rfl
    simp only [tryMergeLocked, deref_of hS, deref_of hD, hDprev, hfree.1, hfree.2.1, hfree.2.2,
      if_false, joining_eq hD hside, habs, hd]
    rfl
  · intro x hxd hx
    split
    · next hn =>
      split
      · next hp => exact absurd hn (hapart hp)
      · rfl
    · split
      · next hp => exact (h.map_next hD hp).symm
      · rfl

/-- A neighbour that is live or waits for events is not absorbed. -/
private theorem tryMergeLocked_busy (h : s.WellFormed l) (hS : s.heap src = some S)
    (hi : ¬ S.Idle) : s.tryMergeLocked dst (some src) = s := by
  have hcount := (h.placed.at_block src).count S hS
  have hbusy : (S.allocated || decide (0 < S.eventCount) || !S.streamUses.isEmpty) = true := by
    cases ha : S.allocated with
    | true => rfl
    | false =>
      have he : S.eventCount ≠ 0 := fun he ↦ hi ⟨ha, he⟩
      have : 0 < S.eventCount := by omega
      simp [this]
  simp only [tryMergeLocked, deref_of hS, hbusy, if_true]

/-- What one attempt to absorb a neighbour leaves. -/
structure Merged (s s' : Impl) (dst : BlockId) (owed : Nat) (D D' : CacheBlock) : Prop where
  wellFormed : s'.WellFormed (.freeing dst owed)
  heap : s'.heap dst = some D'
  pool : D'.pool = D.pool
  keepsBusy : s.KeepsBusy s'
  mergeable : ∀ q, s'.Mergeable (.freeing dst owed) q → s.Mergeable (.freeing dst owed) q

private theorem Merged.refl (h : s.WellFormed (.freeing dst owed)) (hD : s.heap dst = some D) :
    Merged s s dst owed D D :=
  ⟨h, hD, rfl, .refl s, fun _ hq ↦ hq⟩

private theorem merged_spec (h : s.WellFormed (.freeing dst owed)) (hD : s.heap dst = some D)
    (hS : s.heap src = some S) (hLR : Beside dst src D S L R) (hi : S.Idle)
    {p : List BlockId} (hp : (s.pools D.pool).Perm (src :: p)) :
    Merged s (s.mergedState dst src D L R p) dst owed D (absorb D L R) := by
  obtain ⟨hne, _⟩ := h.beside_facts hD hS hLR
  obtain ⟨hwf, hu⟩ := h.merged hD hS hLR hi hp
  refine ⟨hwf, by simp [mergedState, mergeHeap, hne], rfl, ?_, fun q hq ↦ ?_⟩
  · refine .of_unaffected (.freeing dst owed) (.freeing dst owed) (fun c C hC hc ↦ hu c ?_ ?_)
    · rintro rfl
      rw [hD] at hC
      cases hC
      exact hc (h.idle rfl hD)
    · rintro rfl
      rw [hS] at hC
      cases hC
      exact hc hi
  · obtain ⟨X, hX, _, hx⟩ := id hq
    have hqd : q ≠ dst := by
      rintro rfl
      exact hx rfl
    have hqs : q ≠ src := by
      rintro rfl
      simp [mergedState, mergeHeap] at hX
    exact (hu q hqd hqs).mergeable hq

/-- The neighbour before a block on its way is absorbed if it is free; the new neighbour on
that side is not free. -/
theorem mergePrev (h : s.WellFormed (.freeing dst owed)) (hD : s.heap dst = some D) :
    ∃ D', Merged s (s.tryMergeLocked dst D.prev) dst owed D D' ∧
      ∀ q, D'.prev = some q → ¬ (s.tryMergeLocked dst D.prev).Mergeable (.freeing dst owed) q := by
  cases hprev : D.prev with
  | none => exact ⟨D, .refl h hD, fun q hq ↦ by rw [hprev] at hq; cases hq⟩
  | some src =>
    obtain ⟨E, hE, hnext, _⟩ := h.layout.prev_extent (extents_of hD) hprev
    obtain ⟨S, hS, rfl⟩ := exists_of_extents hE
    have hne : dst ≠ src := h.layout.next_ne hE hnext
    by_cases hi : S.Idle
    · have huses := (h.placed.at_block src).no_uses S hS hi.1
      obtain ⟨p, hLR, hp, heq⟩ := h.tryMergeLocked_prev hD hS hprev ⟨hi.1, hi.2, huses⟩
      have hm := h.merged_spec hD hS hLR hi hp
      rw [heq]
      refine ⟨_, hm, fun q hq hmq ↦ ?_⟩
      -- the neighbour beyond the absorbed one was not free beside it
      obtain ⟨F, hF, hFn, _⟩ := h.layout.prev_extent hE hq
      obtain ⟨Q, hQ, rfl⟩ := exists_of_extents hF
      exact h.coalesced q Q src hQ hFn ⟨hm.mergeable q hmq, S, hS, hi, by simpa using hne⟩
    · rw [h.tryMergeLocked_busy hS hi]
      refine ⟨D, .refl h hD, fun q hq hmq ↦ ?_⟩
      rw [hprev] at hq
      cases hq
      obtain ⟨S', hS', hi', _⟩ := hmq
      rw [hS] at hS'
      cases hS'
      exact hi hi'

/-- The neighbour after a block on its way is absorbed if it is free; then neither
neighbour is free if the one before was not. -/
theorem mergeNext (h : s.WellFormed (.freeing dst owed)) (hD : s.heap dst = some D)
    (hprev : ∀ q, D.prev = some q → ¬ s.Mergeable (.freeing dst owed) q) :
    ∃ D', Merged s (s.tryMergeLocked dst D.next) dst owed D D' ∧
      (∀ q, D'.prev = some q → ¬ (s.tryMergeLocked dst D.next).Mergeable (.freeing dst owed) q) ∧
      ∀ q, D'.next = some q → ¬ (s.tryMergeLocked dst D.next).Mergeable (.freeing dst owed) q := by
  cases hnext : D.next with
  | none => exact ⟨D, .refl h hD, hprev, fun q hq ↦ by rw [hnext] at hq; cases hq⟩
  | some src =>
    obtain ⟨E, hE, _⟩ := h.layout.next_link dst _ src (extents_of hD) hnext
    obtain ⟨S, hS, rfl⟩ := exists_of_extents hE
    have hne : src ≠ dst := h.layout.next_ne (extents_of hD) hnext
    by_cases hi : S.Idle
    · have huses := (h.placed.at_block src).no_uses S hS hi.1
      obtain ⟨p, hLR, hp, heq⟩ := h.tryMergeLocked_next hD hS hnext ⟨hi.1, hi.2, huses⟩
      have hm := h.merged_spec hD hS hLR hi hp
      rw [heq]
      refine ⟨_, hm, fun q hq hmq ↦ hprev q hq (hm.mergeable q hmq), fun q hq hmq ↦ ?_⟩
      exact h.coalesced src S q hS hq ⟨⟨S, hS, hi, by simpa using hne.symm⟩, hm.mergeable q hmq⟩
    · rw [h.tryMergeLocked_busy hS hi]
      refine ⟨D, .refl h hD, hprev, fun q hq hmq ↦ ?_⟩
      rw [hnext] at hq
      cases hq
      obtain ⟨S', hS', hi', _⟩ := hmq
      rw [hS] at hS'
      cases hS'
      exact hi hi'

end WellFormed

/-! ### Back in the pool -/

private def pooledState (s : Impl) (b : BlockId) (B : CacheBlock) (owed : Nat) (p : List BlockId) :
    Impl :=
  { s with
    pools := update s.pools B.pool p
    bytesCached := s.bytesCached + owed
    history := .pooled b :: s.history }

namespace WellFormed

private theorem pooled (h : s.WellFormed (.freeing b owed)) (hb : s.heap b = some B)
    {p : List BlockId} (hp : p.Perm (b :: s.pools B.pool))
    (hprev : ∀ q, B.prev = some q → ¬ s.Mergeable (.freeing b owed) q)
    (hnext : ∀ q, B.next = some q → ¬ s.Mergeable (.freeing b owed) q) :
    (s.pooledState b B owed p).WellFormed .none ∧ s.KeepsBusy (s.pooledState b B owed p) := by
  have ha := h.accounted
  have hat := h.placed.at_block b
  have hidle := h.idle rfl hb
  have hbpool : b ∉ s.pools B.pool := by simp [hat.pool hb]
  have hmem (k : PoolKind) (c : BlockId) :
      c ∈ (s.pooledState b B owed p).pools k ↔ c ∈ s.pools k ∨ (k = B.pool ∧ c = b) := by
    have hm := hp.mem_iff (a := c)
    simp only [pooledState, update_apply]
    split
    · next hk => simp [hk, hm, or_comm]
    · next hk => simp [hk]
  have hu (c : BlockId) (hc : c ≠ b) :
      Unaffected (.freeing b owed) .none s (s.pooledState b B owed p) c := by
    constructor
    case pools => simp [hmem, hc]
    case history => simp [pooledState, after, next, hc.symm]
    case before => simpa using hc.symm
    all_goals simp [pooledState, queuedBlocks, queueEntries]
  refine ⟨⟨h.layout, h.segment, ?_, ?_, ?_⟩, .refl s⟩
  · refine h.placed.change hu (.of_some hb (h.lt hb) ?_ (hat.live hb) (hat.no_uses B hb)
      (hat.allocated_events B hb) (fun _ ↦ hidle) (hat.count B hb) ?_) ?_ h.placed.handles
    · intro k
      rw [hmem, hat.pool hb]
      simp [hidle, eq_comm]
    · have hl := hat.lifecycle
      rw [phaseOf_of hb] at hl
      rw [phaseOf_of (s := s.pooledState b B owed p) hb]
      simp [pooledState, after, next, hidle.1, hidle.2] at hl ⊢
      simp [hl]
    · intro k
      simp only [pooledState, update_apply]
      split
      · exact hp.nodup_iff.mpr (List.nodup_cons.mpr ⟨hbpool, h.placed.pool_nodup _⟩)
      · exact h.placed.pool_nodup k
  · rintro c C n hC hn ⟨hmc, hmn⟩
    by_cases hcb : c = b
    · subst hcb
      rw [show s.heap c = some C from hC] at hb
      cases hb
      have hne : n ≠ c := h.layout.next_ne (extents_of hC) hn
      exact hnext n hn ((hu n hne).mergeable hmn)
    · by_cases hnb : n = b
      · subst hnb
        obtain ⟨E, hE, hEp, _⟩ := h.layout.next_link c _ n (extents_of hC) hn
        rw [extents_of hb] at hE
        cases hE
        exact hprev c hEp ((hu c hcb).mergeable hmc)
      · exact h.coalesced c C n hC hn ⟨(hu c hcb).mergeable hmc, (hu n hnb).mergeable hmn⟩
  · refine ha.change hu (h.lt hb) (.inl rfl) ?_ ?_ ?_ ha.segments ha.no_underflow
    · rfl
    · rfl
    · rfl

/-- A block on its way arrives in its pool. -/
theorem freeBlockLocked (h : s.WellFormed (.freeing b B.size)) (hb : s.heap b = some B) :
    (s.freeBlockLocked b).WellFormed .none ∧ s.KeepsBusy (s.freeBlockLocked b) := by
  obtain ⟨D, hm, hprev⟩ := h.mergePrev hb
  obtain ⟨X, hm', hprev', hnext'⟩ := hm.wellFormed.mergeNext hm.heap hprev
  have hu := hm'.wellFormed
  have hX := hm'.heap
  have hf : (s.freeBlockLocked b).core =
      ((((s.tryMergeLocked b B.prev).tryMergeLocked b D.next).poolInsert X.pool b).log
        (.pooled b) |>.addBytesCached B.size).core := by
    simp only [Impl.freeBlockLocked, deref_of hb, deref_of hm.heap, deref_of hX]
    rfl
  generalize (s.tryMergeLocked b B.prev).tryMergeLocked b D.next = u at *
  have hadd : add u.bytesCached B.size = u.bytesCached + B.size := by
    apply add_eq
    have := hu.cached_le
    have := hu.reserved_lt
    simp only [Limbo.views_freeing] at *
    omega
  have hperm := poolInsert_perm (k := X.pool) hu.layout (fun c hc ↦ by
    obtain ⟨C, hC, _⟩ := hu.pool_live hc
    exact ⟨C, hC⟩) hX (by simp [(hu.placed.at_block b).pool hX])
  obtain ⟨hwf, hk⟩ := hu.pooled hX hperm hprev' hnext'
  have heq : (s.freeBlockLocked b).core = (u.pooledState b X B.size
      (OrderedSet.insert u.blockLt b (u.pools X.pool))).core := by
    rw [hf]
    simp [poolInsert, log, addBytesCached, pooledState, hadd]
  refine ⟨hwf.congr heq, hm.keepsBusy.trans (hm'.keepsBusy.trans ?_)⟩
  have hheap : (s.freeBlockLocked b).core.heap = u.heap := by
    rw [heq]
    rfl
  intro c C hC _
  rw [show (s.freeBlockLocked b).heap = u.heap from hheap, hC, Option.map_some]

end WellFormed

/-! ### Block updates and the event queues do not see each other -/

/-- Other event queues. -/
def withQueues (s : Impl) (queues : List (Stream × EventQueue)) : Impl :=
  { s with cudaEvents := queues }

theorem modify?_withQueues (s : Impl) (q : List (Stream × EventQueue)) (b : Option BlockId)
    (f : CacheBlock → CacheBlock) : (s.withQueues q).modify? b f = (s.modify? b f).withQueues q := by
  cases b <;> rfl

theorem tryMergeLocked_withQueues (s : Impl) (q : List (Stream × EventQueue)) (dst : BlockId)
    (src : Option BlockId) :
    (s.withQueues q).tryMergeLocked dst src = (s.tryMergeLocked dst src).withQueues q := by
  cases src with
  | none => rfl
  | some src =>
    have hd (b : BlockId) : (s.withQueues q).deref b = s.deref b := rfl
    have hm (b : BlockId) (f : CacheBlock → CacheBlock) :
        (s.withQueues q).modify b f = (s.modify b f).withQueues q := rfl
    simp only [tryMergeLocked, hd, hm, modify?_withQueues]
    split
    · rfl
    · split <;> rfl

theorem freeBlockLocked_withQueues (s : Impl) (q : List (Stream × EventQueue)) (b : BlockId) :
    (s.withQueues q).freeBlockLocked b = (s.freeBlockLocked b).withQueues q := by
  have hd (t : Impl) (b : BlockId) : (t.withQueues q).deref b = t.deref b := rfl
  simp only [freeBlockLocked, hd, tryMergeLocked_withQueues]
  rfl

private theorem modify_sameEvents (s : Impl) (b : BlockId) (f : CacheBlock → CacheBlock) :
    SameEvents s (s.modify b f) := ⟨rfl, rfl, rfl, rfl⟩

private theorem modify?_sameEvents (s : Impl) (b : Option BlockId) (f : CacheBlock → CacheBlock) :
    SameEvents s (s.modify? b f) := by
  cases b <;> exact ⟨rfl, rfl, rfl, rfl⟩

private theorem drop_sameEvents (s : Impl) (k : PoolKind) (b : BlockId) (a : BlockAction) :
    SameEvents s (((s.poolErase k b).deleteBlock b).log a) := ⟨rfl, rfl, rfl, rfl⟩

theorem tryMergeLocked_sameEvents (s : Impl) (dst : BlockId) (src : Option BlockId) :
    SameEvents s (s.tryMergeLocked dst src) := by
  cases src with
  | none => exact ⟨rfl, rfl, rfl, rfl⟩
  | some src =>
    simp only [tryMergeLocked]
    split
    · exact ⟨rfl, rfl, rfl, rfl⟩
    · split
      · exact (((modify_sameEvents s ..).trans (modify?_sameEvents ..)).trans
          (modify_sameEvents ..)).trans (drop_sameEvents ..)
      · exact (((modify_sameEvents s ..).trans (modify?_sameEvents ..)).trans
          (modify_sameEvents ..)).trans (drop_sameEvents ..)

theorem tryMergeLocked_driverSegments (s : Impl) (dst : BlockId) (src : Option BlockId) :
    (s.tryMergeLocked dst src).driverSegments = s.driverSegments := by
  have hm (t : Impl) (b : Option BlockId) (f : CacheBlock → CacheBlock) :
      (t.modify? b f).driverSegments = t.driverSegments := by cases b <;> rfl
  cases src with
  | none => rfl
  | some src =>
    simp only [tryMergeLocked]
    split
    · rfl
    · split
      · exact hm ..
      · exact hm ..

theorem freeBlockLocked_driverSegments (s : Impl) (b : BlockId) :
    (s.freeBlockLocked b).driverSegments = s.driverSegments :=
  (tryMergeLocked_driverSegments ..).trans (tryMergeLocked_driverSegments ..)

theorem freeBlockLocked_sameEvents (s : Impl) (b : BlockId) : SameEvents s (s.freeBlockLocked b) :=
  ((tryMergeLocked_sameEvents ..).trans (tryMergeLocked_sameEvents ..)).trans ⟨rfl, rfl, rfl, rfl⟩

end Impl
end Hisab.Memory
