import Hisab.Memory.FreeSteps

/-!
# Fields that no free changes

The stream, pool, segment and registration counter of a block are set when it is made, and its
requested size when it is handed out. Merging, pooling, queueing, draining and releasing assign to
other fields only: whatever such a function leaves on the heap was there before with the same
values.
-/

namespace Hisab.Memory
open Hisab.Base CachingConfig Function

universe u

/-- The value does not depend on range, links, flags and counts of the block. -/
structure Steady {α : Type u} (f : CacheBlock → α) : Prop where
  same : ∀ (B : CacheBlock) (ptr size : Nat) (allocated : Bool) (prev next : Option BlockId)
    (eventCount : Int) (streamUses : List Stream),
    f { B with ptr, size, allocated, prev, next, eventCount, streamUses } = f B

namespace Impl

variable {α : Type u} {f : CacheBlock → α} {s t r : Impl} {b : BlockId} {d : DriverAnswers}

/-- The old blocks that are left have the value they had. -/
structure KeepsField (f : CacheBlock → α) (s t : Impl) : Prop where
  next : s.nextBlock ≤ t.nextBlock
  heap : ∀ c < s.nextBlock, ∀ C, t.heap c = some C → ∃ B, s.heap c = some B ∧ f C = f B

namespace KeepsField

theorem of_heap (hn : t.nextBlock = s.nextBlock) (hh : t.heap = s.heap) : KeepsField f s t := by
  refine ⟨Nat.le_of_eq hn.symm, fun c _ C hC ↦ ⟨C, ?_, rfl⟩⟩
  rw [← hh]
  exact hC

theorem refl (s : Impl) : KeepsField f s s := of_heap rfl rfl

theorem trans (h : KeepsField f s t) (k : KeepsField f t r) : KeepsField f s r := by
  refine ⟨Nat.le_trans h.next k.next, fun c hc C hC ↦ ?_⟩
  obtain ⟨B, hB, hf⟩ := k.heap c (Nat.lt_of_lt_of_le hc h.next) C hC
  obtain ⟨A, hA, hg⟩ := h.heap c hc B hB
  exact ⟨A, hA, hf.trans hg⟩

/-- Nothing more happens to the heap. -/
theorem same (h : KeepsField f s t) (hn : r.nextBlock = t.nextBlock) (hh : r.heap = t.heap) :
    KeepsField f s r := h.trans (of_heap hn hh)

/-- Nothing happens to the heap before. -/
theorem before (h : KeepsField f t r) (hn : t.nextBlock = s.nextBlock) (hh : t.heap = s.heap) :
    KeepsField f s r := (of_heap hn hh).trans h

/-- An assignment that the value does not see. -/
theorem modify (s : Impl) (b : BlockId) {g : CacheBlock → CacheBlock}
    (hg : ∀ B, f (g B) = f B) : KeepsField f s (s.modify b g) := by
  refine ⟨Nat.le_refl _, fun c _ C hC ↦ ?_⟩
  simp only [Impl.modify, update_apply] at hC
  split at hC
  · next hc =>
    obtain ⟨B, hB, rfl⟩ := Option.map_eq_some_iff.mp hC
    exact ⟨B, hc ▸ hB, hg B⟩
  · exact ⟨C, hC, rfl⟩

theorem modify? (s : Impl) (b : Option BlockId) {g : CacheBlock → CacheBlock}
    (hg : ∀ B, f (g B) = f B) : KeepsField f s (s.modify? b g) := by
  cases b with
  | none => exact refl s
  | some b => exact modify s b hg

/-- A block is deleted. -/
theorem of_delete (hn : t.nextBlock = s.nextBlock) (hh : t.heap = update s.heap b none) :
    KeepsField f s t := by
  refine ⟨Nat.le_of_eq hn.symm, fun c _ C hC ↦ ?_⟩
  rw [hh, update_apply] at hC
  split at hC
  · cases hC
  · exact ⟨C, hC, rfl⟩

end KeepsField

/-! ### Freeing -/

variable (hf : Steady f)
include hf

theorem tryMergeLocked_keeps (s : Impl) (dst : BlockId) (src? : Option BlockId) :
    KeepsField f s (s.tryMergeLocked dst src?) := by
  have hset (B : CacheBlock) (ptr : Nat) (prev : Option BlockId) :
      f { B with ptr, prev } = f B := hf.same B _ _ _ _ _ _ _
  have hnext (B : CacheBlock) (next : Option BlockId) : f { B with next } = f B :=
    hf.same B _ _ _ _ _ _ _
  have hprev (B : CacheBlock) (prev : Option BlockId) : f { B with prev } = f B :=
    hf.same B _ _ _ _ _ _ _
  have hsize (B : CacheBlock) (size : Nat) : f { B with size } = f B := hf.same B _ _ _ _ _ _ _
  unfold tryMergeLocked
  cases src? with
  | none => exact .refl s
  | some src =>
    dsimp only
    split
    · exact .refl s
    · -- The neighbour's range and links go over to `dst`, then it is erased and deleted.
      have hdrop (t : Impl) (size : CacheBlock → Nat) : KeepsField f t
          ((((t.modify dst (fun D ↦ { D with size := size D })).poolErase
            ((t.modify dst (fun D ↦ { D with size := size D })).deref dst).pool src).deleteBlock
            src).log (.merged dst src)) := by
        apply (KeepsField.modify t dst (fun B ↦ hsize B (size B))).trans
        exact .of_delete rfl rfl
      apply KeepsField.trans ?_ (hdrop _ _)
      split
      · exact (KeepsField.modify s dst (fun B ↦ hset B _ _)).trans
          (.modify? _ _ (fun B ↦ hnext B _))
      · exact (KeepsField.modify s dst (fun B ↦ hnext B _)).trans (.modify? _ _ (fun B ↦ hprev B _))

theorem freeBlockLocked_keeps (s : Impl) (b : BlockId) : KeepsField f s (s.freeBlockLocked b) := by
  unfold freeBlockLocked
  apply (tryMergeLocked_keeps hf s b _).trans
  apply (tryMergeLocked_keeps hf _ b _).trans
  exact .of_heap rfl rfl

end Impl
end Hisab.Memory
