import Hisab.Memory.DrainFrames
import Hisab.Memory.FreeSteps

/-!
# The two caps

No function writes the cap on cached bytes or the cap on reserved bytes, except
`set_max_cached_bytes` and `set_memory_fraction`, each its own.
-/

namespace Hisab.Memory
open Hisab.Base CachingConfig

namespace Impl

variable {d : DriverAnswers} {s r : Impl}

/-- `max_cached_bytes_` and `allowed_memory_maximum_`. -/
def caps (s : Impl) : Nat × Nat := (s.maxCachedBytes, s.allowedMemoryMaximum)

/-! ### Nothing else writes the caps -/

@[simp] theorem modify?_caps (s : Impl) (b : Option BlockId) (f : CacheBlock → CacheBlock) :
    (s.modify? b f).caps = s.caps := by
  cases b <;> rfl

@[simp] theorem tryMergeLocked_caps (s : Impl) (dst : BlockId) (src : Option BlockId) :
    (s.tryMergeLocked dst src).caps = s.caps := by
  unfold tryMergeLocked
  cases src with
  | none => rfl
  | some src =>
    dsimp only
    split
    · rfl
    · simp only [deleteBlock, poolErase, modify]
      split <;> exact modify?_caps ..

@[simp] theorem freeBlockLocked_caps (s : Impl) (b : BlockId) :
    (s.freeBlockLocked b).caps = s.caps :=
  (tryMergeLocked_caps ..).trans (tryMergeLocked_caps ..)

@[simp] theorem retireEvent_caps (s : Impl) (event : Event) (b : BlockId) :
    (s.retireEvent event b).caps = s.caps := by
  simp only [retireEvent]
  split
  · exact freeBlockLocked_caps ..
  · rfl

theorem drainClosed_caps : DrainClosed (fun s t ↦ t.caps = s.caps) :=
  ⟨fun _ ↦ rfl, fun _ _ _ h k ↦ k.trans h, fun _ _ ↦ rfl, retireEvent_caps⟩

@[simp] theorem processEventsLocked_caps (s : Impl) :
    (s.processEventsLocked d).2.caps = s.caps := drainClosed_caps.processEventsLocked s

@[simp] theorem synchronizeAndFreeEventsLocked_caps (s : Impl) :
    (s.synchronizeAndFreeEventsLocked d).2.caps = s.caps :=
  drainClosed_caps.synchronizeAndFreeEventsLocked s rfl

theorem releasePoolBlocksLocked_caps (s : Impl) (k : PoolKind) :
    (s.releasePoolBlocksLocked k).caps = s.caps := by
  unfold releasePoolBlocksLocked
  generalize s.pools k = l
  induction l generalizing s with
  | nil => rfl
  | cons b l ih =>
    refine (ih _).trans ?_
    unfold releasePoolBlock
    dsimp only
    split <;> rfl

@[simp] theorem releaseCachedBlocksLocked_caps (s : Impl) :
    (s.releaseCachedBlocksLocked d).2.caps = s.caps := by
  have hs := synchronizeAndFreeEventsLocked_caps (d := d) s
  unfold releaseCachedBlocksLocked
  split
  · next he => rwa [he] at hs
  · next he =>
    rw [he] at hs
    exact ((releasePoolBlocksLocked_caps ..).trans (releasePoolBlocksLocked_caps ..)).trans hs

@[simp] theorem trimCacheLocked_caps (s : Impl) : s.trimCacheLocked.caps = s.caps := by
  have hloop (n : Nat) (s : Impl) : (trimLoop n s).caps = s.caps := by
    induction n generalizing s with
    | zero => rfl
    | succ n ih =>
      unfold trimLoop
      split
      · split
        · rfl
        · exact ih _
      · rfl
  unfold trimCacheLocked
  split
  · rfl
  · exact hloop _ _

theorem publishBlock_caps (s : Impl) (b : BlockId) (n : Nat) :
    (s.publishBlock b n).caps = s.caps := rfl

theorem splitBlock_caps (s : Impl) (b : BlockId) (n : Nat) : (s.splitBlock b n).caps = s.caps :=
  modify?_caps ..

@[simp] theorem finishAllocate_caps (s : Impl) (b : BlockId) (rounded size : Nat) :
    (s.finishAllocate b rounded size).2.caps = s.caps := by
  unfold finishAllocate allocFoundBlockLocked
  rw [trimCacheLocked_caps]
  split
  · exact (publishBlock_caps ..).trans (splitBlock_caps ..)
  · exact publishBlock_caps ..

theorem acquireEventLocked_caps (s : Impl) (stream : Stream) :
    (s.acquireEventLocked d stream).2.caps = s.caps := by
  unfold acquireEventLocked
  split
  · rfl
  · split <;> rfl

theorem insertEventsLoop_caps (b : BlockId) (streams : List Stream) (s : Impl) :
    (insertEventsLoop d b streams s).2.caps = s.caps := by
  have hone (stream : Stream) (s : Impl) : (s.insertEvent d b stream).2.caps = s.caps := by
    have ha := acquireEventLocked_caps (d := d) s stream
    unfold insertEvent
    split
    · next he => rwa [he] at ha
    · next he =>
      rw [he] at ha
      split <;> exact ha
  induction streams generalizing s with
  | nil => rfl
  | cons stream streams ih =>
    have hs := hone stream s
    unfold insertEventsLoop
    split
    · next he => rwa [he] at hs
    · next he =>
      rw [he] at hs
      exact (ih _).trans hs

@[simp] theorem insertEventsLocked_caps (s : Impl) (b : BlockId) :
    (s.insertEventsLocked d b).2.caps = s.caps := by
  unfold insertEventsLocked
  split
  · rfl
  · dsimp only
    have hl := insertEventsLoop_caps (d := d) b (s.deref b).streamUses
      (s.modify b (fun b ↦ { b with streamUses := [] }))
    split
    · next he => rwa [he] at hl
    · next he =>
      rw [he] at hl
      split
      · exact (freeBlockLocked_caps ..).trans hl
      · exact hl

theorem missCache_caps (s : Impl) (request : SegmentRequest) :
    (s.missCache d request).2.caps = s.caps := by
  have hdrop (s : Impl) : (s.dropLock request).2.caps = s.caps := by
    unfold dropLock
    split <;> rfl
  unfold missCache
  dsimp only
  split
  · split
    · next he => exact (congrArg (fun r ↦ r.2.caps) he :).symm.trans (releaseCachedBlocksLocked_caps _)
    · next he =>
      have hs := (congrArg (fun r ↦ r.2.caps) he :).symm.trans (releaseCachedBlocksLocked_caps _)
      split
      · exact hs
      · exact (hdrop _).trans hs
  · exact hdrop _

theorem getFreeBlockLocked_caps (s : Impl) (pool : PoolKind) (stream : Stream) (size : Nat) :
    (s.getFreeBlockLocked pool stream size).2.caps = s.caps := by
  unfold getFreeBlockLocked
  dsimp only
  split
  · rfl
  · split <;> rfl

theorem allocate_caps (s : Impl) (size : Nat) (stream : Stream) :
    (s.allocate d size stream).2.caps = s.caps := by
  have hp := processEventsLocked_caps (d := d) s
  unfold allocate
  split
  · rfl
  · split
    · next he => rwa [he] at hp
    · next t he =>
      rw [he] at hp
      have hg := getFreeBlockLocked_caps t (segmentRequest size stream).pool stream
        (segmentRequest size stream).rounded
      dsimp only
      split
      · next hf =>
        rw [hf] at hg
        exact (finishAllocate_caps ..).trans (hg.trans hp)
      · next hf =>
        rw [hf] at hg
        exact (missCache_caps ..).trans (hg.trans hp)

theorem resumeAllocate_caps (s : Impl) (request : SegmentRequest) (answer : MallocAnswer) :
    (s.resumeAllocate d request answer).2.caps = s.caps := by
  have hr := releaseCachedBlocksLocked_caps (d := d) s
  unfold resumeAllocate
  split
  · exact finishAllocate_caps ..
  · split
    · rfl
    · split
      · rfl
      · split
        · next he => rwa [he] at hr
        · next he =>
          rw [he] at hr
          exact hr
  · split <;> rfl

theorem deallocate_caps (s : Impl) (ptr : Nat) (hint : Stream) :
    (s.deallocate d ptr hint).2.caps = s.caps := by
  have hbegin (s : Impl) (b : BlockId) : (s.beginFree ptr b hint).caps = s.caps := by
    unfold beginFree
    dsimp only
    split <;> rfl
  have hblock (s : Impl) (b : BlockId) : (s.deallocateBlock d ptr b hint).2.caps = s.caps := by
    rw [deallocateBlock_eq]
    have hi := (insertEventsLocked_caps (d := d) (s.beginFree ptr b hint) b).trans (hbegin s b)
    split
    · exact ((trimCacheLocked_caps _).trans (freeBlockLocked_caps ..)).trans (hbegin s b)
    · split
      · next he => rwa [he] at hi
      · next he =>
        rw [he] at hi
        exact (trimCacheLocked_caps _).trans hi
  have hp := processEventsLocked_caps (d := d) s
  unfold deallocate
  split
  · rfl
  · split
    · next he => rwa [he] at hp
    · next he =>
      rw [he] at hp
      split
      · exact hp
      · split
        · exact (hblock ..).trans hp
        · exact hp

theorem recordStream_caps (s : Impl) (ptr : Nat) (stream : Stream) :
    (s.recordStream ptr stream).2.caps = s.caps := by
  unfold recordStream
  split
  · rfl
  · split
    · rfl
    · split <;> rfl

theorem emptyCache_caps (s : Impl) : (s.emptyCache d).2.caps = s.caps := by
  have hr := releaseCachedBlocksLocked_caps (d := d) s
  unfold emptyCache
  split
  · next he => rwa [he] at hr
  · next he => rwa [he] at hr

end Impl
end Hisab.Memory
