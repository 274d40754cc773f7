import Hisab.Memory.CudaAllocatorMachine

/-!
# What draining and flushing leave alone

A relation between states that every free of a block respects is respected by the functions that
free many: the drain of completed events and the wait for all of them. What a flush releases
besides is a matter of `releasePoolBlock`.
-/

namespace Hisab.Memory
open Hisab.Base

namespace Impl

/-- A relation that holds when a block is pooled, a queue or the ready events change, or the
bookkeeping of a block's events does. -/
structure DrainClosed (R : Impl → Impl → Prop) : Prop where
  refl : ∀ s, R s s
  trans : ∀ s t r, R s t → R t r → R s r
  queues : ∀ s queues, R s { s with cudaEvents := queues }
  retire : ∀ s event block, R s (s.retireEvent event block)

namespace DrainClosed

variable {R : Impl → Impl → Prop} {d : DriverAnswers}

theorem drainQueue (h : DrainClosed R) {done rest : List (Stream × EventQueue)} {stream : Stream}
    (q : EventQueue) (s : Impl) : R s (Impl.drainQueue d done stream rest q s).2 := by
  induction q generalizing s with
  | nil => exact h.refl s
  | cons entry q ih =>
    obtain ⟨event, block⟩ := entry
    unfold Impl.drainQueue
    split
    · exact h.trans _ _ _ (h.trans _ _ _ (h.queues s _) (h.retire _ event block)) (ih _)
    · exact h.refl s
    · exact h.refl s

theorem processQueues (h : DrainClosed R) (queues done : List (Stream × EventQueue)) (s : Impl) :
    R s (Impl.processQueues d done queues s).2 := by
  induction queues generalizing done s with
  | nil => exact h.refl s
  | cons queue queues ih =>
    obtain ⟨stream, q⟩ := queue
    have hq : R s (Impl.drainQueue d done stream queues q s).2 := h.drainQueue q s
    unfold Impl.processQueues
    split
    · next he =>
      rw [he] at hq
      exact hq
    · next he =>
      rw [he] at hq
      exact h.trans _ _ _ (h.trans _ _ _ hq (h.queues _ _)) (ih _ _)
    · next he =>
      rw [he] at hq
      exact h.trans _ _ _ hq (ih _ _)

/-- Draining the completed events. -/
theorem processEventsLocked (h : DrainClosed R) (s : Impl) : R s (s.processEventsLocked d).2 := by
  unfold Impl.processEventsLocked
  split
  · exact h.refl s
  · exact h.processQueues ..

theorem synchronizeQueue (h : DrainClosed R) (q : EventQueue) (s : Impl) :
    R s (Impl.synchronizeQueue d q s).2 := by
  induction q generalizing s with
  | nil => exact h.refl s
  | cons entry q ih =>
    obtain ⟨event, block⟩ := entry
    unfold Impl.synchronizeQueue
    split
    · exact h.refl s
    · exact h.trans _ _ _ (h.retire s event block) (ih _)

theorem synchronizeQueues (h : DrainClosed R) (queues : List (Stream × EventQueue)) (s : Impl) :
    R s (Impl.synchronizeQueues d queues s).2 := by
  induction queues generalizing s with
  | nil => exact h.refl s
  | cons queue queues ih =>
    obtain ⟨stream, q⟩ := queue
    have hq := h.synchronizeQueue (d := d) q s
    unfold Impl.synchronizeQueues
    split
    · next he =>
      rw [he] at hq
      exact hq
    · next he =>
      rw [he] at hq
      exact h.trans _ _ _ (h.trans _ _ _ hq (h.queues _ _)) (ih _)

/-- Waiting for all events, after the wait has been counted. -/
theorem synchronizeAndFreeEventsLocked (h : DrainClosed R) (s : Impl)
    (hcount : R s { s with stats := { s.stats with
      numSyncAllStreams := SizeT.add s.stats.numSyncAllStreams 1 } }) :
    R s (s.synchronizeAndFreeEventsLocked d).2 := by
  unfold Impl.synchronizeAndFreeEventsLocked
  split
  · exact hcount
  · exact h.trans _ _ _ hcount (h.synchronizeQueues _ _)

end DrainClosed

/-! ### Statistics -/

@[simp] theorem modify?_stats (s : Impl) (b : Option BlockId) (f : CacheBlock → CacheBlock) :
    (s.modify? b f).stats = s.stats := by
  cases b with
  | none | some b => rfl

@[simp] theorem tryMergeLocked_stats (s : Impl) (dst : BlockId) (src : Option BlockId) :
    (s.tryMergeLocked dst src).stats = s.stats := by
  unfold tryMergeLocked
  cases src with
  | none => rfl
  | some src =>
    dsimp only
    split
    · rfl
    · simp only [log, deleteBlock]
      split
      · exact modify?_stats ..
      · exact modify?_stats ..

@[simp] theorem freeBlockLocked_stats (s : Impl) (b : BlockId) :
    (s.freeBlockLocked b).stats = s.stats :=
  (tryMergeLocked_stats ..).trans (tryMergeLocked_stats ..)

end Impl
end Hisab.Memory
