import Hisab.Memory.BlockFields
import Hisab.Memory.FreeRelations

/-!
# The order of the pool sets

A pool is a `std::set` of pointers ordered by fields of the blocks they point to. Its order
survives because a block is out of the pool whenever one of these fields changes: each operation
leaves the sets strictly ascending, and every block with the stream, pool, segment and
registration counter it was made with.
-/

namespace Hisab.Memory
open Hisab.Base CachingConfig Function OrderedSet

/-- What `cache_block_comparator` reads. -/
def CacheBlock.orderKey (B : CacheBlock) : Stream × Nat × Int × Nat :=
  (B.stream, B.size, B.registrationCounter, B.ptr)

/-- What is set when the block is made. -/
def CacheBlock.birth (B : CacheBlock) : Stream × PoolKind × Nat × Int :=
  (B.stream, B.pool, B.segmentBase, B.registrationCounter)

theorem steady_birth : Steady CacheBlock.birth := ⟨fun _ _ _ _ _ _ _ _ ↦ rfl⟩

theorem cacheBlockComparator_congr {A A' B B' : CacheBlock} (hA : A'.orderKey = A.orderKey)
    (hB : B'.orderKey = B.orderKey) : cacheBlockComparator A' B' = cacheBlockComparator A B := by
  simp only [CacheBlock.orderKey, Prod.mk.injEq] at hA hB
  obtain ⟨hst, hsize, hcounter, hptr⟩ := hA
  obtain ⟨kst, ksize, kcounter, kptr⟩ := hB
  simp only [cacheBlockComparator, hst, hsize, hcounter, hptr, kst, ksize, kcounter, kptr]

theorem cacheBlockComparator_trans {A B C : CacheBlock} (hAB : cacheBlockComparator A B = true)
    (hBC : cacheBlockComparator B C = true) : cacheBlockComparator A C = true := by
  unfold cacheBlockComparator at hAB hBC ⊢
  grind

theorem orderKey_of_unlinked {A B : CacheBlock} (h : A.unlinked = B.unlinked) :
    A.orderKey = B.orderKey := by
  have hkey (X : CacheBlock) : X.orderKey = X.unlinked.orderKey := rfl
  rw [hkey A, hkey B, h]

namespace Impl

variable {s t r : Impl} {b c : BlockId} {B C : CacheBlock} {k : PoolKind} {d : DriverAnswers}

/-- Each pool is strictly ascending. -/
def PoolsSorted (s : Impl) : Prop := ∀ k, (s.pools k).Pairwise (fun a b ↦ s.blockLt a b = true)

/-- Blocks leave the pools, and those that stay compare as before. -/
theorem PoolsSorted.of_sublist (h : s.PoolsSorted) (hsub : ∀ k, (t.pools k).Sublist (s.pools k))
    (hkey : ∀ k, ∀ b ∈ t.pools k, (t.deref b).orderKey = (s.deref b).orderKey) :
    t.PoolsSorted := by
  intro k
  apply ((h k).sublist (hsub k)).imp_of_mem
  intro a b ha hb hlt
  rw [blockLt, cacheBlockComparator_congr (hkey k a ha) (hkey k b hb)]
  exact hlt

theorem PoolsSorted.poolInsert (h : s.PoolsSorted) (k : PoolKind) (b : BlockId) :
    (s.poolInsert k b).PoolsSorted := by
  intro j
  have htrans (x y z : BlockId) (hxy : s.blockLt x y = true) (hyz : s.blockLt y z = true) :
      s.blockLt x z = true := cacheBlockComparator_trans hxy hyz
  simp only [Impl.poolInsert, update_apply]
  split
  · exact insert_pairwise htrans (h k)
  · exact h j

/-- No block is made, none changes what it was made with, and the pools stay ascending. -/
structure Orderly (s t : Impl) : Prop where
  keeps : KeepsField CacheBlock.birth s t
  next : t.nextBlock = s.nextBlock
  counter : t.registrationCounterGlobal = s.registrationCounterGlobal
  sorted : s.PoolsSorted → t.PoolsSorted

namespace Orderly

theorem trans (h : Orderly s t) (k : Orderly t r) : Orderly s r :=
  ⟨h.keeps.trans k.keeps, k.next.trans h.next, k.counter.trans h.counter,
    fun hs ↦ k.sorted (h.sorted hs)⟩

theorem of_heap (hh : t.heap = s.heap) (hp : t.pools = s.pools) (hn : t.nextBlock = s.nextBlock)
    (hc : t.registrationCounterGlobal = s.registrationCounterGlobal) : Orderly s t := by
  refine ⟨.of_heap hn hh, hn, hc, fun hs ↦ hs.of_sublist (fun k ↦ by rw [hp]) (fun k b _ ↦ ?_)⟩
  rw [deref, deref, hh]

theorem refl (s : Impl) : Orderly s s := of_heap rfl rfl rfl rfl

/-- One block is assigned to, but for what it was made with and is compared by. -/
theorem of_update {X : CacheBlock} (hB : s.heap b = some B) (hkey : X.orderKey = B.orderKey)
    (hbirth : X.birth = B.birth) (hh : t.heap = update s.heap b (some X))
    (hp : t.pools = s.pools) (hn : t.nextBlock = s.nextBlock)
    (hc : t.registrationCounterGlobal = s.registrationCounterGlobal) : Orderly s t := by
  refine ⟨⟨Nat.le_of_eq hn.symm, fun c _ C hC ↦ ?_⟩, hn, hc, fun hs ↦
    hs.of_sublist (fun k ↦ by rw [hp]) (fun k c _ ↦ ?_)⟩
  · rw [hh, update_apply] at hC
    split at hC
    · next hcb =>
      subst hcb
      cases hC
      exact ⟨B, hB, hbirth⟩
    · exact ⟨C, hC, rfl⟩
  · by_cases hcb : c = b
    · subst hcb
      rw [deref_of hB, deref_of (by rw [hh, update_self]), hkey]
    · rw [deref, deref, hh, update_of_ne hcb]

theorem modify (s : Impl) (b : BlockId) {g : CacheBlock → CacheBlock}
    (hkey : ∀ B, (g B).orderKey = B.orderKey) (hbirth : ∀ B, (g B).birth = B.birth) :
    Orderly s (s.modify b g) := by
  cases hB : s.heap b with
  | none =>
    apply of_heap (s := s) (t := s.modify b g) _ rfl rfl rfl
    funext c
    by_cases hcb : c = b
    · subst hcb
      simp [Impl.modify, hB]
    · simp [Impl.modify, hcb]
  | some B =>
    apply of_update (t := s.modify b g) hB (hkey B) (hbirth B) _ rfl rfl rfl
    simp [Impl.modify, hB]

end Orderly

/-! ### Freeing -/

theorem tryMergeLocked_pools (s : Impl) (dst : BlockId) (src? : Option BlockId) (k : PoolKind) :
    ((s.tryMergeLocked dst src?).pools k).Sublist (s.pools k) := by
  unfold tryMergeLocked
  cases src? with
  | none => exact .refl _
  | some src =>
    dsimp only
    split
    · exact .refl _
    · simp only [log, deleteBlock, poolErase, modify?_eq, update_apply]
      split
      · split
        · next hk =>
          subst hk
          exact erase_sublist ..
        · exact .refl _
      · split
        · next hk =>
          subst hk
          exact erase_sublist ..
        · exact .refl _

theorem tryMergeLocked_counters (s : Impl) (dst : BlockId) (src? : Option BlockId) :
    (s.tryMergeLocked dst src?).nextBlock = s.nextBlock ∧
      (s.tryMergeLocked dst src?).registrationCounterGlobal = s.registrationCounterGlobal := by
  unfold tryMergeLocked
  cases src? with
  | none => exact ⟨rfl, rfl⟩
  | some src =>
    dsimp only
    split
    · exact ⟨rfl, rfl⟩
    · simp only [log, deleteBlock, poolErase, modify?_eq]
      split
      · exact ⟨rfl, rfl⟩
      · exact ⟨rfl, rfl⟩

/-- Of the other blocks a merge changes the links only. -/
theorem tryMergeLocked_other {dst : BlockId} {src? : Option BlockId} (hc : c ≠ dst)
    (hC : (s.tryMergeLocked dst src?).heap c = some C) :
    ∃ B, s.heap c = some B ∧ C.unlinked = B.unlinked := by
  have hlink {side : Option BlockId} {g : CacheBlock → CacheBlock} {t : Impl}
      (hg : ∀ B, (g B).unlinked = B.unlinked)
      (h : (t.modify? side g).heap c = some C) : ∃ B, t.heap c = some B ∧ C.unlinked = B.unlinked := by
    rw [modify?_eq] at h
    dsimp only at h
    split at h
    · obtain ⟨B, hB, rfl⟩ := Option.map_eq_some_iff.mp h
      exact ⟨B, hB, hg B⟩
    · exact ⟨C, h, rfl⟩
  have hself (t : Impl) (f : CacheBlock → CacheBlock) : (t.modify dst f).heap c = t.heap c := by
    simp [Impl.modify, hc]
  unfold tryMergeLocked at hC
  cases src? with
  | none => exact ⟨C, hC, rfl⟩
  | some src =>
    dsimp only at hC
    split at hC
    · exact ⟨C, hC, rfl⟩
    · simp only [log, deleteBlock, poolErase, update_apply] at hC
      split at hC
      · cases hC
      · rw [hself] at hC
        split at hC
        · rw [← hself s (fun D ↦ { D with ptr := (s.deref src).ptr, prev := (s.deref src).prev })]
          exact hlink (g := fun P ↦ { P with next := some dst }) (fun _ ↦ rfl) hC
        · rw [← hself s (fun D ↦ { D with next := (s.deref src).next })]
          exact hlink (g := fun N ↦ { N with prev := some dst }) (fun _ ↦ rfl) hC

/-- The block being freed is in no pool while it absorbs a neighbour. -/
theorem WellFormed.Merged.sorted {dst : BlockId} {src? : Option BlockId} {owed : Nat} {D D' : CacheBlock}
    (h : WellFormed.Merged s (s.tryMergeLocked dst src?) dst owed D D') (hs : s.PoolsSorted) :
    (s.tryMergeLocked dst src?).PoolsSorted := by
  apply hs.of_sublist (fun k ↦ tryMergeLocked_pools s dst src? k)
  intro k b hb
  obtain ⟨X, hX, -, -, hlimbo⟩ := h.wellFormed.pool_live hb
  have hne : b ≠ dst := by
    rintro rfl
    exact hlimbo rfl
  obtain ⟨B, hB, hu⟩ := tryMergeLocked_other hne hX
  rw [deref_of hX, deref_of hB]
  exact orderKey_of_unlinked hu

theorem freeBlockLocked_orderly (h : s.WellFormed (.freeing b B.size)) (hb : s.heap b = some B) :
    Orderly s (s.freeBlockLocked b) := by
  obtain ⟨D, hm, hprev⟩ := h.mergePrev hb
  obtain ⟨X, hm', -, -⟩ := hm.wellFormed.mergeNext hm.heap hprev
  refine ⟨freeBlockLocked_keeps steady_birth s b, ?_, ?_, fun hs ↦ ?_⟩
  · exact (tryMergeLocked_counters ..).1.trans (tryMergeLocked_counters ..).1
  · exact (tryMergeLocked_counters ..).2.trans (tryMergeLocked_counters ..).2
  · unfold Impl.freeBlockLocked
    rw [deref_of hb]
    dsimp only
    rw [deref_of hm.heap]
    exact (hm'.sorted (hm.sorted hs)).poolInsert _ b

theorem freeClosed_orderly : FreeClosed Orderly := by
  constructor
  case refl => exact .refl
  case trans => exact fun _ _ _ h k ↦ h.trans k
  case queues => exact fun _ _ ↦ .of_heap rfl rfl rfl rfl
  case counted => exact fun _ _ ↦ .of_heap rfl rfl rfl rfl
  case cleared => exact fun s b ↦ .modify s b (fun _ ↦ rfl) (fun _ ↦ rfl)
  case retired =>
    intro s e b B hB
    exact .of_update (X := { B with eventCount := B.eventCount - 1 }) hB rfl rfl rfl rfl rfl rfl
  case enqueued =>
    intro s b B stream e pool n hB
    exact .of_update (X := { B with eventCount := B.eventCount + 1 }) hB rfl rfl rfl rfl rfl rfl
  case free => exact fun _ _ _ h hB ↦ freeBlockLocked_orderly h hB

theorem releaseClosed_orderly : ReleaseClosed Orderly := by
  constructor
  case refl => exact .refl
  case trans => exact fun _ _ _ h k ↦ h.trans k
  case release =>
    intro s b B k h hB hm hsplit
    simp only [CacheBlock.isSplit, Bool.or_eq_false_iff, Option.isSome_eq_false_iff,
      Option.isNone_iff_eq_none] at hsplit
    obtain ⟨hwf, hheap, -⟩ := h.releaseBlock hB hm hsplit.1 hsplit.2
    refine ⟨.of_delete rfl hheap, rfl, rfl, fun hs ↦ hs.of_sublist (fun j ↦ ?_) (fun j c hc ↦ ?_)⟩
    · change (update s.pools k (erase s.blockLt b (s.pools k)) j).Sublist _
      rw [update_apply]
      split
      · next hj =>
        subst hj
        exact erase_sublist ..
      · exact .refl _
    · obtain ⟨C, hC, -⟩ := hwf.pool_live hc
      rw [deref_of hC]
      rw [hheap, update_apply] at hC
      split at hC
      · cases hC
      · rw [deref_of hC]

/-! ### Handing out -/

theorem take_orderly (s : Impl) (k : PoolKind) (b : BlockId) : Orderly s (s.take k b) := by
  refine ⟨.of_heap rfl rfl, rfl, rfl, fun hs ↦ hs.of_sublist (fun j ↦ ?_) (fun _ _ _ ↦ rfl)⟩
  change (update s.pools k ((s.pools k).erase b) j).Sublist _
  rw [update_apply]
  split
  · next hj =>
    subst hj
    exact List.erase_sublist
  · exact .refl _

theorem publishBlock_orderly (s : Impl) (b : BlockId) (size : Nat) :
    Orderly s (s.publishBlock b size) :=
  (Orderly.modify s b (g := fun B ↦ { B with allocated := true, requestedSize := size })
    (fun _ ↦ rfl) (fun _ ↦ rfl)).trans (.of_heap rfl rfl rfl rfl)

/-- The remainder of a split goes to its place in the pool. -/
theorem splitBlock_sorted (h : s.WellFormed (.taken b)) (hb : s.heap b = some B) {n : Nat}
    (hn : n ≤ B.size) (hs : s.PoolsSorted) : (s.splitBlock b n).PoolsSorted := by
  have hcut : ({ s.cut b n B [] with pools := s.pools } : Impl).PoolsSorted := by
    refine PoolsSorted.of_sublist hs
      (fun k ↦ .refl _) ?_
    intro k c hc
    obtain ⟨C, hC, -, -, hlimbo⟩ := h.pool_live hc
    have hcb : c ≠ b := by
      rintro rfl
      exact hlimbo rfl
    have hcn : c ≠ s.nextBlock := Nat.ne_of_lt (h.lt hC)
    have hX : ((s.splitHeap b n B) c).map CacheBlock.unlinked = some C.unlinked := by
      simp only [splitHeap, if_neg hcn, if_neg hcb]
      split
      · rw [hC]
        rfl
      · rw [hC]
        rfl
    obtain ⟨X, hX, hu⟩ := Option.map_eq_some_iff.mp hX
    rw [deref_of hC, deref_of hX]
    exact orderKey_of_unlinked hu
  rw [h.splitBlock_cut hb hn]
  exact hcut.poolInsert B.pool b

end Impl
end Hisab.Memory
