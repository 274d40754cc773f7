import Hisab.Memory.EventSteps

/-!
# Draining the event queues

`process_events_locked` takes entries out of the queues one by one, so the invariant holds
between two entries whatever the driver answers. `synchronize_and_free_events_locked`
leaves the entries of a queue in place until it has retired all of them: the invariant
holds for the state whose queue is cut down to the entries still to come.
-/

namespace Hisab.Memory
open Hisab.Base ExtentMap

namespace Impl

variable {s t r : Impl} {done : Event → Prop} {d : DriverAnswers} {stream : Stream} {q : EventQueue}
  {before after : List (Stream × EventQueue)} {before queues : List (Stream × EventQueue)}
  {result : Except Exn Unit}

/-- A state of the invariant, reached from `s` without a new segment. -/
structure Progress (done : Event → Prop) (s s' : Impl) : Prop where
  wellFormed : s'.WellFormed .none
  evolves : Evolves done s s'
  segments : ∀ base raw, s'.driverSegments.lookup base = some raw →
    s.driverSegments.lookup base = some raw
  allocations : s'.allocatedBlocks = s.allocatedBlocks

namespace Progress

theorem refl (h : s.WellFormed .none) : Progress done s s := ⟨h, .refl s, fun _ _ hr ↦ hr, rfl⟩

theorem trans (h : Progress done s t) (k : Progress done t r) : Progress done s r :=
  ⟨k.wellFormed, h.evolves.trans k.evolves, fun b x hr ↦ h.segments b x (k.segments b x hr),
    k.allocations.trans h.allocations⟩

theorem mono {done' : Event → Prop} (h : Progress done s t) (hd : ∀ e, done e → done' e) :
    Progress done' s t := ⟨h.wellFormed, h.evolves.mono hd, h.segments, h.allocations⟩

/-- Statistics and caps do not matter. -/
theorem of_core (h : s.WellFormed .none) (he : t.core = s.core) (hr : t.recorded = s.recorded)
    (hs : t.submitted = s.submitted) : Progress done s t := by
  have hheap : t.core.heap = s.core.heap := by rw [he]
  have hqueues : t.core.cudaEvents = s.core.cudaEvents := by rw [he]
  have hsegments : t.core.driverSegments = s.core.driverSegments := by rw [he]
  change t.heap = s.heap at hheap
  have hlive : t.core.allocatedBlocks = s.core.allocatedBlocks := by rw [he]
  refine ⟨h.congr he, .of_keepsBusy h ?_ hqueues hr hs, fun _ _ hx ↦ hsegments ▸ hx, hlive⟩
  intro c C hC _
  rw [hheap, hC, Option.map_some]

end Progress

/-- Retiring the first event of a queue. -/
private theorem retire_progress (before : List (Stream × EventQueue)) (h : s.WellFormed .none)
    {after : List (Stream × EventQueue)} {e : Event} {b : BlockId}
    (hq : s.cudaEvents = before ++ (stream, (e, b) :: q) :: after) :
    Progress (· = e) s ((s.withQueues (before ++ (stream, q) :: after)).retireEvent e b) ∧
      ((s.withQueues (before ++ (stream, q) :: after)).retireEvent e b).cudaEvents =
        before ++ (stream, q) :: after ∧
      ((s.withQueues (before ++ (stream, q) :: after)).retireEvent e b).recorded = s.recorded := by
  have hperm : s.queueEntries.Perm
      ((e, b) :: (before ++ (stream, q) :: after).flatMap Prod.snd) := by
    rw [queueEntries, hq]
    simp only [List.flatMap_append]
    exact List.perm_middle
  obtain ⟨hwf, hev, hqs, hrec, hseg, hlive⟩ := h.retireEvent hperm
  exact ⟨⟨hwf, hev, fun _ _ hr ↦ hseg ▸ hr, hlive⟩, hqs, hrec⟩

/-- The queue loses a prefix of entries whose events have completed. -/
theorem drainQueue_progress {result : Except Exn EventQueue} (h : s.WellFormed .none)
    (hq : s.cudaEvents = before ++ (stream, q) :: after)
    (hr : drainQueue d before stream after q s = (result, r)) :
    Progress (fun e ↦ d.query e = .success) s r ∧ r.recorded = s.recorded ∧
      ∀ q', result = .ok q' → r.cudaEvents = before ++ (stream, q') :: after := by
  induction q generalizing s with
  | nil =>
    cases hr
    exact ⟨.refl h, rfl, fun q' he ↦ by cases he; exact hq⟩
  | cons entry q ih =>
    obtain ⟨e, b⟩ := entry
    unfold drainQueue at hr
    cases ha : d.query e with
    | success =>
      simp only [ha] at hr
      obtain ⟨hp, hqs, hrec⟩ := retire_progress before h hq
      obtain ⟨hp', hrec', hq'⟩ := ih hp.wellFormed hqs hr
      exact ⟨(hp.mono (fun e' he ↦ he ▸ ha)).trans hp', hrec'.trans hrec, hq'⟩
    | notReady =>
      simp only [ha] at hr
      cases hr
      exact ⟨.refl h, rfl, fun q' he ↦ by cases he; exact hq⟩
    | memoryAllocation | other code =>
      simp only [ha] at hr
      cases hr
      exact ⟨.refl h, rfl, nofun⟩

/-- The order of the queues, and empty queues, do not matter. -/
theorem Progress.requeue (h : s.WellFormed .none) {queues : List (Stream × EventQueue)}
    (hq : (queues.flatMap Prod.snd).Perm s.queueEntries) :
    Progress done s (s.withQueues queues) := by
  have hp := h.placed
  have ha := h.accounted
  have hb : (s.withQueues queues).queuedBlocks.Perm s.queuedBlocks := hq.map Prod.snd
  refine ⟨⟨h.layout, h.segment, ⟨fun b ↦ ?_, hp.pool_nodup, ?_⟩, h.coalesced,
    ⟨ha.cached, ha.allocated, ha.reserved, ha.segments, ha.no_underflow⟩⟩, ?_, fun _ _ hr ↦ hr, rfl⟩
  · have hat := hp.at_block b
    exact ⟨hat.fresh, hat.pool_iff, hat.allocated_iff, hat.no_uses, hat.allocated_events,
      hat.limbo_idle, fun B hB ↦ by rw [hb.count_eq]; exact hat.count B hB,
      fun hm ↦ hat.queued_live (hb.mem_iff.mp hm), hat.lifecycle⟩
  · exact ((hq.map Prod.fst).append_right s.eventPool).trans hp.handles
  · exact ⟨fun c C hC _ ↦ by rw [withQueues, hC, Option.map_some],
      fun b B e hB he ↦ .inr ⟨hq.mem_iff.mpr he, rfl, B, hB, rfl, rfl⟩, rfl⟩

/-- Every queue loses a prefix of entries whose events have completed, whether or not a
driver call fails on the way. -/
theorem processQueues_progress (h : s.WellFormed .none) (hq : s.cudaEvents = before ++ queues)
    (hr : processQueues d before queues s = (result, r)) :
    Progress (fun e ↦ d.query e = .success) s r ∧ r.recorded = s.recorded := by
  induction queues generalizing s before with
  | nil =>
    cases hr
    exact ⟨.refl h, rfl⟩
  | cons queue queues ih =>
    obtain ⟨stream, q⟩ := queue
    unfold processQueues at hr
    rcases hd : drainQueue d before stream queues q s with ⟨drained, t⟩
    obtain ⟨hp, hrec, hqs⟩ := drainQueue_progress h hq hd
    rw [hd] at hr
    match drained with
    | .error e =>
      cases hr
      exact ⟨hp, hrec⟩
    | .ok [] =>
      have hempty : ((before ++ queues).flatMap Prod.snd).Perm t.queueEntries := by
        rw [queueEntries, hqs [] rfl]
        simp
      have hreq : Progress (fun e ↦ d.query e = .success) _ _ := .requeue hp.wellFormed hempty
      obtain ⟨hp', hrec'⟩ := ih hreq.wellFormed rfl hr
      exact ⟨(hp.trans hreq).trans hp', hrec'.trans hrec⟩
    | .ok (entry :: rest) =>
      obtain ⟨hp', hrec'⟩ := ih hp.wellFormed (by simp [hqs _ rfl]) hr
      exact ⟨hp.trans hp', hrec'.trans hrec⟩

theorem processEventsLocked_progress (h : s.WellFormed .none)
    (hr : s.processEventsLocked d = (result, r)) :
    Progress (fun e ↦ d.query e = .success) s r ∧ r.recorded = s.recorded := by
  unfold processEventsLocked at hr
  split at hr
  · cases hr
    exact ⟨.refl h, rfl⟩
  · exact processQueues_progress h rfl hr

/-! ### Synchronizing -/

theorem retireEvent_withQueues (s : Impl) (queues : List (Stream × EventQueue)) (e : Event)
    (b : BlockId) :
    (s.withQueues queues).retireEvent e b = (s.retireEvent e b).withQueues queues := by
  let t := (({ s with eventPool := s.eventPool ++ [e] } : Impl).modify b
    (fun b ↦ { b with eventCount := b.eventCount - 1 })).log (.drained b)
  have hl : (s.withQueues queues).retireEvent e b = if (t.deref b).eventCount = 0
      then (t.withQueues queues).freeBlockLocked b else t.withQueues queues := rfl
  rw [hl, freeBlockLocked_withQueues]
  exact (apply_ite (fun u : Impl ↦ u.withQueues queues) ..).symm

/-- A queue whose entries have all been retired can go. -/
theorem synchronizeQueue_progress {after : List (Stream × EventQueue)}
    (h : (s.withQueues ((stream, q) :: after)).WellFormed .none)
    (hr : synchronizeQueue d q s = (.ok (), r)) :
    Progress (fun e ↦ d.synchronize e = .success) (s.withQueues ((stream, q) :: after))
      (r.withQueues after) ∧ r.recorded = s.recorded := by
  induction q generalizing s with
  | nil =>
    cases hr
    exact ⟨.requeue h (.refl _), rfl⟩
  | cons entry q ih =>
    obtain ⟨e, b⟩ := entry
    unfold synchronizeQueue at hr
    by_cases ha : d.synchronize e = .success
    · simp only [ha] at hr
      have hret := retire_progress [] h rfl
      have hcomm : ((s.withQueues ((stream, (e, b) :: q) :: after)).withQueues
          ([] ++ (stream, q) :: after)).retireEvent e b =
            (s.retireEvent e b).withQueues ((stream, q) :: after) :=
        retireEvent_withQueues s _ e b
      rw [hcomm] at hret
      obtain ⟨hp, -, hrec⟩ := hret
      obtain ⟨hp', hrec'⟩ := ih hp.wellFormed hr
      exact ⟨(hp.mono (fun e' he ↦ he ▸ ha)).trans hp', hrec'.trans hrec⟩
    · simp only [ha, throwOnCudaError] at hr
      cases hr

/-- Only the first event of a queue may fail to synchronize. -/
def FrontFails (d : DriverAnswers) (queues : List (Stream × EventQueue)) : Prop :=
  ∀ queue ∈ queues, ∀ entry ∈ queue.2.tail, d.synchronize entry.1 = .success

/-- What the failing synchronization of an event throws. -/
def SynchronizeFailure (x : Exn) : Prop := ∃ code, x = .runtimeError "cudaEventSynchronize" code

private theorem synchronizeQueue_threw {x : Exn} (hr : synchronizeQueue d q s = (.error x, r)) :
    SynchronizeFailure x := by
  induction q generalizing s with
  | nil => cases hr
  | cons entry q ih =>
    obtain ⟨e, b⟩ := entry
    unfold synchronizeQueue at hr
    by_cases ha : d.synchronize e = .success
    · simp only [ha] at hr
      exact ih hr
    · simp only [ha, throwOnCudaError] at hr
      cases hr
      exact ⟨_, rfl⟩

private theorem synchronizeQueue_error {x : Exn}
    (hf : ∀ entry ∈ q.tail, d.synchronize entry.1 = .success)
    (hr : synchronizeQueue d q s = (.error x, r)) : r = s := by
  have hok (q : EventQueue) (s : Impl) (hall : ∀ entry ∈ q, d.synchronize entry.1 = .success) :
      (synchronizeQueue d q s).1 = .ok () := by
    induction q generalizing s with
    | nil => rfl
    | cons entry q ih =>
      obtain ⟨e, b⟩ := entry
      have he := hall (e, b) (by simp)
      unfold synchronizeQueue
      simp only [he]
      exact ih _ (fun entry hm ↦ hall entry (by simp [hm]))
  cases q with
  | nil => cases hr
  | cons entry q =>
    obtain ⟨e, b⟩ := entry
    unfold synchronizeQueue at hr
    by_cases ha : d.synchronize e = .success
    · simp only [ha, throwOnCudaError, if_true] at hr
      have := hok q (s.retireEvent e b) hf
      rw [hr] at this
      cases this
    · simp only [ha, throwOnCudaError] at hr
      cases hr
      rfl

theorem synchronizeQueues_progress {queues : List (Stream × EventQueue)} (h : s.WellFormed .none)
    (hq : s.cudaEvents = queues) (hr : synchronizeQueues d queues s = (result, r))
    (hf : ∀ x, result = .error x → SynchronizeFailure x → FrontFails d queues) :
    Progress (fun e ↦ d.synchronize e = .success) s r ∧ r.recorded = s.recorded ∧
      (result = .ok () → r.cudaEvents = []) := by
  induction queues generalizing s with
  | nil =>
    cases hr
    exact ⟨.refl h, rfl, fun _ ↦ hq⟩
  | cons queue queues ih =>
    obtain ⟨stream, q⟩ := queue
    unfold synchronizeQueues at hr
    rcases hs : synchronizeQueue d q s with ⟨_ | _, t⟩
    · rw [hs] at hr
      cases hr
      have hfront := hf _ rfl (synchronizeQueue_threw hs)
      cases synchronizeQueue_error (hfront (stream, q) (by simp)) hs
      exact ⟨.refl h, rfl, nofun⟩
    · rw [hs] at hr
      have hself : s.withQueues ((stream, q) :: queues) = s := by
        rw [← hq]
        rfl
      obtain ⟨hp, hrec⟩ := synchronizeQueue_progress (hself.symm ▸ h) hs
      rw [hself] at hp
      obtain ⟨hp', hrec', hqs⟩ := ih hp.wellFormed rfl hr
        (fun x hx hfail queue hm ↦ hf x hx hfail queue (by simp [hm]))
      exact ⟨hp.trans hp', hrec'.trans hrec, hqs⟩

theorem synchronizeAndFreeEventsLocked_progress (h : s.WellFormed .none)
    (hr : s.synchronizeAndFreeEventsLocked d = (result, r))
    (hf : ∀ x, result = .error x → SynchronizeFailure x → FrontFails d s.cudaEvents) :
    Progress (fun e ↦ d.synchronize e = .success) s r ∧ r.recorded = s.recorded ∧
      (result = .ok () → r.cudaEvents = []) := by
  unfold synchronizeAndFreeEventsLocked at hr
  have hp : Progress (fun e ↦ d.synchronize e = .success) s { s with stats := { s.stats with
      numSyncAllStreams := SizeT.add s.stats.numSyncAllStreams 1 } } :=
    .of_core h rfl rfl rfl
  split at hr
  · cases hr
    exact ⟨hp, rfl, nofun⟩
  · obtain ⟨hp', hrec, hqs⟩ := synchronizeQueues_progress hp.wellFormed rfl hr hf
    exact ⟨hp.trans hp', hrec, hqs⟩

/-! ### What draining leaves -/

/-- The queues once the entries at the front whose events are ready have gone. -/
def unready (d : DriverAnswers) (queues : List (Stream × EventQueue)) :
    List (Stream × EventQueue) :=
  queues.map (fun queue ↦
    (queue.1, queue.2.dropWhile (fun entry ↦ decide (d.query entry.1 = .success))))

theorem retireEvent_cudaEvents (s : Impl) (e : Event) (b : BlockId) :
    (s.retireEvent e b).cudaEvents = s.cudaEvents := by
  unfold retireEvent
  dsimp only
  split
  · exact (freeBlockLocked_sameEvents ..).queues
  · rfl

private theorem drainQueue_rest {q q' : EventQueue}
    (hq : s.cudaEvents = before ++ (stream, q) :: after)
    (hr : drainQueue d before stream after q s = (.ok q', r)) :
    q' = q.dropWhile (fun entry ↦ decide (d.query entry.1 = .success)) ∧
      r.cudaEvents = before ++ (stream, q') :: after := by
  induction q generalizing s with
  | nil =>
    cases hr
    exact ⟨rfl, hq⟩
  | cons entry q ih =>
    obtain ⟨e, b⟩ := entry
    unfold drainQueue at hr
    cases ha : d.query e with
    | success =>
      simp only [ha] at hr
      obtain ⟨hdrop, hqs⟩ := ih (retireEvent_cudaEvents ..) hr
      refine ⟨?_, hqs⟩
      rw [List.dropWhile_cons_of_pos (by simpa using ha)]
      exact hdrop
    | notReady =>
      simp only [ha] at hr
      cases hr
      refine ⟨?_, hq⟩
      rw [List.dropWhile_cons_of_neg (by simp [ha])]
    | memoryAllocation | other code => simp [ha] at hr

/-- Draining without an error leaves the entries that are not ready. -/
theorem mem_processQueues (hq : s.cudaEvents = before ++ queues)
    (hr : processQueues d before queues s = (.ok (), r)) {queue : Stream × EventQueue}
    (hm : queue ∈ r.cudaEvents) : queue ∈ before ∨ queue ∈ unready d queues := by
  induction queues generalizing s before with
  | nil =>
    cases hr
    rw [hq, List.append_nil] at hm
    exact .inl hm
  | cons first queues ih =>
    obtain ⟨stream, q⟩ := first
    unfold processQueues at hr
    rcases hd : drainQueue d before stream queues q s with ⟨drained, t⟩
    rw [hd] at hr
    match drained with
    | .error e => cases hr
    | .ok [] => exact (ih rfl hr).imp_right (fun h ↦ by simp [unready] at h ⊢; exact .inr h)
    | .ok (entry :: rest) =>
      obtain ⟨hdrop, hqs⟩ := drainQueue_rest hq hd
      rcases ih (by simp [hqs]) hr with h | h
      · rcases List.mem_append.mp h with h | h
        · exact .inl h
        · rw [List.mem_singleton.mp h, hdrop]
          exact .inr (by simp [unready])
      · refine .inr ?_
        simp only [unready, List.map_cons, List.mem_cons] at h ⊢
        exact .inr h

/-- Whether only the first entries can fail is settled by the state before draining. -/
theorem FrontFails.drained (hf : FrontFails d (unready d s.cudaEvents))
    (hr : s.processEventsLocked d = (.ok (), r)) : FrontFails d r.cudaEvents := by
  unfold processEventsLocked at hr
  split at hr
  · cases hr
  · intro queue hm
    have hqs : s.cudaEvents = [] ++ s.cudaEvents := rfl
    rcases mem_processQueues hqs hr hm with h | h
    · cases h
    · exact hf queue h

end Impl
end Hisab.Memory
