import Hisab.Memory.DeallocateSteps

/-!
# Relations kept by freeing and releasing

The functions that free or release many blocks do it one after another, each time from a state of
the invariant. A relation between states that is kept by one free, or one release, is kept by the
drain of completed events, the wait for all of them, the flush and the trim.
-/

namespace Hisab.Memory
open Hisab.Base CachingConfig Impl

namespace Impl

variable {R : Impl → Impl → Prop} {s t : Impl} {d : DriverAnswers} {b : BlockId} {B : CacheBlock}

/-- Kept by the bookkeeping of events and by the free of one block. -/
structure FreeClosed (R : Impl → Impl → Prop) : Prop where
  refl : ∀ s, R s s
  trans : ∀ s t r, R s t → R t r → R s r
  queues : ∀ s queues, R s (s.withQueues queues)
  counted : ∀ s n, R s { s with stats := { s.stats with numSyncAllStreams := n } }
  cleared : ∀ s b, R s (s.modify b (fun B ↦ { B with streamUses := [] }))
  retired : ∀ s e b B, s.heap b = some B → R s (s.retired e b B)
  enqueued : ∀ s b B stream e pool n, s.heap b = some B → R s (s.enqueued b B stream e pool n)
  free : ∀ s b B, s.WellFormed (.freeing b B.size) → s.heap b = some B → R s (s.freeBlockLocked b)

namespace FreeClosed

theorem retireEvent (h : FreeClosed R) {qs : List (Stream × EventQueue)} {e : Event}
    (hwf : s.WellFormed .none) (hq : s.queueEntries.Perm ((e, b) :: qs.flatMap Prod.snd)) :
    R s ((s.withQueues qs).retireEvent e b) := by
  have hm : (e, b) ∈ s.queueEntries := hq.mem_iff.mpr (by simp)
  obtain ⟨B, hB⟩ := (hwf.placed.at_block b).queued_live (List.mem_map_of_mem hm)
  obtain ⟨hretired, -⟩ := hwf.retired hB hq
  have hstart : R s ((s.withQueues qs).retired e b B) :=
    h.trans _ _ _ (h.queues s qs) (h.retired _ e b B hB)
  rw [retireEvent_eq (s := s.withQueues qs) hB]
  split
  · next he =>
    have hheld : Limbo.held b { B with eventCount := B.eventCount - 1 } = .freeing b B.size :=
      if_pos he
    rw [hheld] at hretired
    apply h.trans _ _ _ hstart
    exact h.free _ b { B with eventCount := B.eventCount - 1 } hretired (by simp [Impl.retired])
  · exact hstart

theorem drainQueue (h : FreeClosed R) {before after : List (Stream × EventQueue)}
    {stream : Stream} {q : EventQueue} (hwf : s.WellFormed .none)
    (hq : s.cudaEvents = before ++ (stream, q) :: after) :
    R s (Impl.drainQueue d before stream after q s).2 := by
  induction q generalizing s with
  | nil => exact h.refl s
  | cons entry q ih =>
    obtain ⟨e, b⟩ := entry
    have hperm : s.queueEntries.Perm
        ((e, b) :: (before ++ (stream, q) :: after).flatMap Prod.snd) := by
      rw [queueEntries, hq]
      simp only [List.flatMap_append]
      exact List.perm_middle
    obtain ⟨hnext, -, hqs, -⟩ := hwf.retireEvent hperm
    unfold drainQueue
    split
    · exact h.trans _ _ _ (h.retireEvent hwf hperm) (ih hnext hqs)
    · exact h.refl s
    · exact h.refl s

theorem processQueues (h : FreeClosed R) {before queues : List (Stream × EventQueue)}
    (hwf : s.WellFormed .none) (hq : s.cudaEvents = before ++ queues) :
    R s (Impl.processQueues d before queues s).2 := by
  induction queues generalizing s before with
  | nil => exact h.refl s
  | cons queue queues ih =>
    obtain ⟨stream, q⟩ := queue
    have hdrain := h.drainQueue (d := d) hwf hq
    unfold processQueues
    rcases hd : Impl.drainQueue d before stream queues q s with ⟨drained, t⟩
    obtain ⟨hp, -, hqs⟩ := drainQueue_progress hwf hq hd
    rw [hd] at hdrain
    rcases drained with e | _ | ⟨entry, rest⟩
    · exact hdrain
    · have hempty : ((before ++ queues).flatMap Prod.snd).Perm t.queueEntries := by
        rw [queueEntries, hqs [] rfl]
        simp
      have hreq : Progress (fun _ ↦ False) t (t.withQueues (before ++ queues)) :=
        .requeue hp.wellFormed hempty
      exact h.trans _ _ _ (h.trans _ _ _ hdrain (h.queues t _)) (ih hreq.wellFormed rfl)
    · exact h.trans _ _ _ hdrain (ih hp.wellFormed (by simp [hqs _ rfl]))

/-- Draining the completed events. -/
theorem processEventsLocked (h : FreeClosed R) (hwf : s.WellFormed .none) :
    R s (s.processEventsLocked d).2 := by
  unfold Impl.processEventsLocked
  split
  · exact h.refl s
  · exact h.processQueues hwf rfl

/-- The invariant is that of the state whose queue is cut down to the entries still to come. -/
theorem synchronizeQueue (h : FreeClosed R) {after : List (Stream × EventQueue)}
    {stream : Stream} {q : EventQueue}
    (hwf : (s.withQueues ((stream, q) :: after)).WellFormed .none) :
    R s (Impl.synchronizeQueue d q s).2 := by
  induction q generalizing s with
  | nil => exact h.refl s
  | cons entry q ih =>
    obtain ⟨e, b⟩ := entry
    unfold synchronizeQueue
    split
    · exact h.refl s
    · have hentries : (s.withQueues ((stream, (e, b) :: q) :: after)).queueEntries.Perm
          ((e, b) :: List.flatMap Prod.snd ((stream, q) :: after)) := .refl _
      have hretire := h.retireEvent hwf hentries
      obtain ⟨hnext, -⟩ := hwf.retireEvent hentries
      have hcomm : ((s.withQueues ((stream, (e, b) :: q) :: after)).withQueues
          ((stream, q) :: after)).retireEvent e b =
            (s.retireEvent e b).withQueues ((stream, q) :: after) :=
        retireEvent_withQueues s _ e b
      rw [hcomm] at hretire hnext
      have hstep : R s (s.retireEvent e b) :=
        h.trans _ _ _ (h.trans _ _ _ (h.queues s _) hretire)
          (h.queues _ (s.retireEvent e b).cudaEvents)
      exact h.trans _ _ _ hstep (ih hnext)

theorem synchronizeQueues (h : FreeClosed R) {queues : List (Stream × EventQueue)}
    (hwf : s.WellFormed .none) (hq : s.cudaEvents = queues) :
    R s (Impl.synchronizeQueues d queues s).2 := by
  induction queues generalizing s with
  | nil => exact h.refl s
  | cons queue queues ih =>
    obtain ⟨stream, q⟩ := queue
    have hself : s.withQueues ((stream, q) :: queues) = s := by
      rw [← hq]
      rfl
    have hqueue := h.synchronizeQueue (d := d) (hself.symm ▸ hwf)
    unfold synchronizeQueues
    rcases hs : Impl.synchronizeQueue d q s with ⟨_ | _, t⟩
    · rw [hs] at hqueue
      exact hqueue
    · rw [hs] at hqueue
      obtain ⟨hp, -⟩ := synchronizeQueue_progress (hself.symm ▸ hwf) hs
      exact h.trans _ _ _ (h.trans _ _ _ hqueue (h.queues t queues)) (ih hp.wellFormed rfl)

/-- Waiting for all events. -/
theorem synchronizeAndFreeEventsLocked (h : FreeClosed R) (hwf : s.WellFormed .none) :
    R s (s.synchronizeAndFreeEventsLocked d).2 := by
  have hcounted : Impl.WellFormed .none { s with stats := { s.stats with
      numSyncAllStreams := SizeT.add s.stats.numSyncAllStreams 1 } } := hwf.congr rfl
  unfold Impl.synchronizeAndFreeEventsLocked
  split
  · exact h.counted s _
  · exact h.trans _ _ _ (h.counted s _) (h.synchronizeQueues hcounted rfl)

theorem insertEventsLoop (h : FreeClosed R) {streams : List Stream}
    (hrec : ∀ st, d.record st = .success) (hB : s.heap b = some B) :
    R s (Impl.insertEventsLoop d b streams s).2 := by
  induction streams generalizing s B with
  | nil => exact h.refl s
  | cons stream streams ih =>
    unfold insertEventsLoop
    rcases hi : s.insertEvent d b stream with ⟨first, t⟩
    rcases insertEvent_cases hB hi with ⟨x, rfl, rfl⟩ | ⟨x, rfl, -, hne⟩ |
        ⟨e, pool, n, -, rfl, rfl⟩
    · exact h.refl _
    · exact absurd (hrec stream) hne
    · exact h.trans _ _ _ (h.enqueued s b B stream e pool n hB)
        (ih (B := { B with eventCount := B.eventCount + 1 }) (by simp [Impl.enqueued]))

/-- A block that is handed back goes to its pool or waits for events. -/
theorem freed (h : FreeClosed R) (hint : Stream) (hwf : s.WellFormed .none)
    (hB : s.heap b = some B) (hal : B.allocated = true)
    (hguard : deviceGuard d.insertGuard = .ok ()) (hrec : ∀ st, d.record st = .success) :
    (usesWith B hint = [] →
      R (s.beginFree B.ptr b hint) ((s.beginFree B.ptr b hint).freeBlockLocked b)) ∧
    R (s.beginFree B.ptr b hint) ((s.beginFree B.ptr b hint).insertEventsLocked d b).2 := by
  constructor
  · intro huses
    have htaken := hwf.beginFree hB hal hint huses
    apply h.free _ b { B with allocated := false, streamUses := [] } htaken.wellFormed
    rw [htaken.heap, Function.update_self]
  · have htaken := hwf.beginWait hB hal hint
    have hcleared := h.cleared (s.beginFree B.ptr b hint) b
    unfold insertEventsLocked
    rw [hguard]
    dsimp only
    generalize (s.beginFree B.ptr b hint).modify b (fun B ↦ { B with streamUses := [] }) = t
      at htaken hcleared
    generalize ((s.beginFree B.ptr b hint).deref b).streamUses = streams
    have hX : t.heap b = some { B with allocated := false, streamUses := [] } := by
      rw [htaken.heap, Function.update_self]
    have hheld : Limbo.held b { B with allocated := false, streamUses := [] } =
        .freeing b B.size := if_pos ((hwf.placed.at_block b).allocated_events B hB hal)
    have hloop : R t (Impl.insertEventsLoop d b streams t).2 := h.insertEventsLoop hrec hX
    rcases hl : Impl.insertEventsLoop d b streams t with ⟨_ | _, u⟩
    · rw [hl] at hloop
      obtain ⟨n, hu, hY, -⟩ := insertEventsLoop_spec (hheld ▸ htaken.wellFormed) hX rfl hl
        (fun _ _ _ ↦ hrec)
      dsimp only
      rw [deref_of hY]
      split
      · next hz =>
        have hfree : Limbo.held b { B with
            allocated := false, streamUses := [], eventCount := B.eventCount + n } =
              .freeing b B.size := if_pos hz
        apply h.trans _ _ _ (h.trans _ _ _ hcleared hloop)
        exact h.free u b _ (hfree ▸ hu) hY
      · exact h.trans _ _ _ hcleared hloop
    · rw [hl] at hloop
      exact h.trans _ _ _ hcleared hloop

end FreeClosed

/-- Kept by the release of one segment. -/
structure ReleaseClosed (R : Impl → Impl → Prop) : Prop where
  refl : ∀ s, R s s
  trans : ∀ s t r, R s t → R t r → R s r
  release : ∀ s b B k, s.WellFormed .none → s.heap b = some B → b ∈ s.pools k →
    B.isSplit = false → R s (s.releaseBlock k b)

namespace ReleaseClosed

theorem releasePoolBlock (h : ReleaseClosed R) {k : PoolKind} (hwf : s.WellFormed .none)
    (hB : s.heap b = some B) (hm : b ∈ s.pools k) : R s (s.releasePoolBlock k b) := by
  cases hs : B.isSplit with
  | true =>
    rw [Impl.releasePoolBlock, deref_of hB, hs]
    exact h.refl s
  | false =>
    rw [Impl.releasePoolBlock, deref_of hB, hs]
    have hrelease := h.release s b B k hwf hB hm hs
    rwa [releaseBlock, deref_of hB] at hrelease

theorem foldl (h : ReleaseClosed R) {k : PoolKind} {l : List BlockId} (hwf : s.WellFormed .none)
    (hnd : l.Nodup) (hl : ∀ b ∈ l, b ∈ s.pools k) :
    R s (l.foldl (fun s b ↦ s.releasePoolBlock k b) s) := by
  induction l generalizing s with
  | nil => exact h.refl s
  | cons b l ih =>
    obtain ⟨hbl, hnd'⟩ := List.nodup_cons.mp hnd
    have hm := hl b (by simp)
    obtain ⟨B, hB, -⟩ := hwf.pool_live hm
    obtain ⟨hr, -⟩ := releasePoolBlock_releases hwf hB hm
    apply h.trans _ _ _ (h.releasePoolBlock hwf hB hm)
    apply ih hr.wellFormed hnd'
    intro c hc
    have hcb : c ∉ [b] := fun hx ↦ hbl (List.mem_singleton.mp hx ▸ hc)
    rw [(hr.unaffected c hcb).pools]
    exact hl c (by simp [hc])

/-- Releasing both pools. -/
theorem releasePools (h : ReleaseClosed R) (hwf : s.WellFormed .none) :
    R s ((s.releasePoolBlocksLocked .small).releasePoolBlocksLocked .large) := by
  obtain ⟨hr, -⟩ := releasePoolBlocksLocked_releases hwf .small
  exact h.trans _ _ _ (h.foldl hwf (hwf.placed.pool_nodup _) (fun _ hb ↦ hb))
    (h.foldl hr.wellFormed (hr.wellFormed.placed.pool_nodup _) (fun _ hb ↦ hb))

theorem trimLoop (h : ReleaseClosed R) (n : Nat) (hwf : s.WellFormed .none) :
    R s (Impl.trimLoop n s) := by
  induction n generalizing s with
  | zero => exact h.refl s
  | succ n ih =>
    unfold trimLoop
    split
    · split
      · exact h.refl s
      · next v hv =>
        obtain ⟨hm, hsplit⟩ := largestReleasable_spec hv
        obtain ⟨k, hm⟩ : ∃ k, v ∈ s.pools k := by
          rcases List.mem_append.mp hm with hm | hm
          · exact ⟨_, hm⟩
          · exact ⟨_, hm⟩
        obtain ⟨V, hV, hk, -⟩ := hwf.pool_live hm
        rw [deref_of hV] at hsplit ⊢
        obtain ⟨hr, -⟩ := releaseBlock_releases hwf hV hm hsplit
        have he : ((s.subBytesCached V.size).poolErase V.pool v).releaseSegmentLocked v =
            s.releaseBlock k v := by
          rw [releaseBlock, deref_of hV, hk]
        rw [he]
        exact h.trans _ _ _ (h.release s v V k hwf hV hm hsplit) (ih hr.wellFormed)
    · exact h.refl s

theorem trimCacheLocked (h : ReleaseClosed R) (hwf : s.WellFormed .none) :
    R s s.trimCacheLocked := by
  unfold Impl.trimCacheLocked
  split
  · exact h.refl s
  · exact h.trimLoop _ hwf

end ReleaseClosed

/-- A flush frees and then releases. -/
theorem releaseCachedBlocksLocked_closed {Q : Impl → Impl → Prop} (hR : FreeClosed R)
    (hQ : ReleaseClosed Q) (hwf : s.WellFormed .none) {result : Except Exn Unit} {r : Impl}
    (hr : s.releaseCachedBlocksLocked d = (result, r)) :
    ∃ t, (s.synchronizeAndFreeEventsLocked d).2 = t ∧ R s t ∧
      (r = t ∨ t.WellFormed .none ∧ Q t r) := by
  have hsync := hR.synchronizeAndFreeEventsLocked (d := d) hwf
  unfold releaseCachedBlocksLocked at hr
  rcases hs : s.synchronizeAndFreeEventsLocked d with ⟨_ | _, t⟩
  · rw [hs] at hr hsync
    cases hr
    exact ⟨_, rfl, hsync, .inl rfl⟩
  · rw [hs] at hr hsync
    cases hr
    obtain ⟨hp, -⟩ := synchronizeAndFreeEventsLocked_progress hwf hs nofun
    exact ⟨t, rfl, hsync, .inr ⟨hp.wellFormed, hQ.releasePools hp.wellFormed⟩⟩

end Impl
end Hisab.Memory
