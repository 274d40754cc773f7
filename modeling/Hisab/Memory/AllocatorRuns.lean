import Hisab.Memory.DeallocateSteps

/-!
# Runs of the caching allocator

Every step of the transition system keeps the invariant and does to blocks and entries no
more than `Retains` allows, as long as the step is `Safe`: rounding the request does not
wrap, and no driver call fails where the code cannot recover.
-/

namespace Hisab.Memory
open Hisab.Base CachingConfig Function Impl

/-- The answers of the runtime an operation gets. -/
def Operation.answers : Operation → Option DriverAnswers
  | .allocate _ _ _ d => some d
  | .resume _ d => some d
  | .deallocate _ _ d => some d
  | .emptyCache d => some d
  | _ => none

/-- The runtime tells the operation that the event is complete. -/
def Operation.Completes (op : Operation) (e : Event) : Prop :=
  ∃ d, op.answers = some d ∧ Impl.Completes d e

/-- The operation hands the memory at `p` back. -/
def Operation.Gives (op : Operation) (p : Nat) : Prop := ∃ hint d, op = .deallocate p hint d

/-- The call ended by such an exception. -/
def Reply.Threw (reply : Reply) (P : Exn → Prop) : Prop := ∃ x, reply = .threw x ∧ P x

/-- No failure of the step is one the code cannot recover from. -/
def Operation.Safe (m : Machine) (reply : Reply) : Operation → Prop
  | .allocate _ size _ d => RoundingFits size ∧
    (reply.Threw Impl.SynchronizeFailure → Impl.FrontFails d (Impl.unready d m.impl.cudaEvents))
  | .resume _ d => reply.Threw Impl.SynchronizeFailure → Impl.FrontFails d m.impl.cudaEvents
  | .deallocate _ _ d => deviceGuard d.insertGuard = .ok () ∧
    (reply.Threw Impl.RecordFailure → ∀ st, d.record st = .success)
  | .emptyCache d => reply.Threw Impl.SynchronizeFailure → Impl.FrontFails d m.impl.cudaEvents
  | _ => True

/-- What a thread asked of the driver. -/
def ThreadState.request : ThreadState → Option SegmentRequest
  | .idle => none
  | .inDriver request => some request
  | .fromDriver request _ => some request

/-- A segment on its way to the allocator, and the size asked for. -/
def ThreadState.pending : ThreadState → Option (Nat × RawSegment)
  | .fromDriver request (.segment raw) => some (request.allocSize, raw)
  | _ => none

namespace Machine

/-- The invariant between operations: the allocator is well formed, and what the threads
inside the driver carry fits it. -/
structure Consistent (m : Machine) : Prop where
  impl : m.impl.WellFormed .none
  requests : ∀ t request, (m.threads t).request = some request → request.Valid
  pending : ∀ t size raw, (m.threads t).pending = some (size, raw) →
    0 < raw.ptr ∧ size ≤ raw.size ∧ raw.ptr + raw.size ≤ SizeT.modulus ∧
      ∀ base r, m.impl.driverSegments.lookup base = some r →
        raw.ptr + raw.size ≤ base ∨ base + r.size ≤ raw.ptr
  apart : ∀ t t' size raw size' raw', t ≠ t' → (m.threads t).pending = some (size, raw) →
    (m.threads t').pending = some (size', raw') →
      raw.ptr + raw.size ≤ raw'.ptr ∨ raw'.ptr + raw'.size ≤ raw.ptr

variable {m m' : Machine} {op : Operation} {reply : Reply}

/-- A step of the allocator that no thread enters or leaves the driver with. -/
theorem Consistent.of_impl (h : m.Consistent) {r : Impl} (hr : r.WellFormed .none)
    (hseg : ∀ base raw, r.driverSegments.lookup base = some raw →
      m.impl.driverSegments.lookup base = some raw) :
    Consistent { m with impl := r } := by
  refine ⟨hr, h.requests, fun t size raw hp ↦ ?_, h.apart⟩
  obtain ⟨hptr, hsize, hbound, hfree⟩ := h.pending t size raw hp
  exact ⟨hptr, hsize, hbound, fun base x hx ↦ hfree base x (hseg base x hx)⟩

/-- A step of a thread's `allocate`. -/
theorem Consistent.settle (h : m.Consistent) {t : ThreadId} {done : Event → Prop}
    {gained : Option RawSegment} {size : Nat} {stream : Stream} {r : Impl}
    (hs : Impl.Serves done gained m.impl size stream reply r)
    (hg : ∀ raw, gained = some raw → ∃ n, (m.threads t).pending = some (n, raw)) :
    (m.settle t (reply, r)).2.Consistent := by
  have hself : (((m.settle t (reply, r)).2.threads t).pending = none) ∧
      ∀ request, ((m.settle t (reply, r)).2.threads t).request = some request → request.Valid := by
    simp only [Machine.settle, update_self]
    cases reply with
    | unlocked request => exact ⟨rfl, fun request' hr ↦ by cases hr; exact hs.unlocked _ rfl⟩
    | returned p => exact ⟨rfl, fun _ hr ↦ by cases hr⟩
    | threw e | done => exact ⟨rfl, nofun⟩
  have hother (t' : ThreadId) (ht : t' ≠ t) :
      (m.settle t (reply, r)).2.threads t' = m.threads t' := by
    simp [Machine.settle, ht]
  have hpending {t' : ThreadId} {size' : Nat} {raw : RawSegment}
      (hp : ((m.settle t (reply, r)).2.threads t').pending = some (size', raw)) :
      t' ≠ t ∧ (m.threads t').pending = some (size', raw) := by
    have ht : t' ≠ t := by
      rintro rfl
      rw [hself.1] at hp
      cases hp
    exact ⟨ht, hother t' ht ▸ hp⟩
  refine ⟨hs.wellFormed, fun t' request hr ↦ ?_, fun t' size' raw hp ↦ ?_,
    fun t₁ t₂ size₁ raw₁ size₂ raw₂ hne hp₁ hp₂ ↦ ?_⟩
  · by_cases ht : t' = t
    · subst ht
      exact hself.2 request hr
    · exact h.requests t' request (hother t' ht ▸ hr)
  · obtain ⟨ht, hp⟩ := hpending hp
    obtain ⟨hptr, hsize, hbound, hfree⟩ := h.pending t' size' raw hp
    refine ⟨hptr, hsize, hbound, fun base x hx ↦ ?_⟩
    rcases hs.segments base x hx with hx | ⟨hgained, rfl⟩
    · exact hfree base x hx
    · obtain ⟨n, hn⟩ := hg x hgained
      exact h.apart t' t size' raw n x ht hp hn
  · exact h.apart t₁ t₂ size₁ raw₁ size₂ raw₂ hne (hpending hp₁).2 (hpending hp₂).2

/-- What one step does. -/
structure StepSpec (m : Machine) (op : Operation) (reply : Reply) (m' : Machine) : Prop where
  consistent : m'.Consistent
  retains : Impl.Retains op.Completes op.Gives m.impl m'.impl
  returned : ∀ p, reply = .returned p → ∃ size stream, m'.impl.LiveAt p size stream
  submitted : ∀ st, m.impl.submitted st ≤ m'.impl.submitted st

/-- A step of the allocator that hands nothing out. -/
private theorem StepSpec.of_progress (h : m.Consistent) {r : Impl}
    (hp : Impl.Progress op.Completes m.impl r) (hret : ∀ p, reply ≠ .returned p) :
    StepSpec m op reply { m with impl := r } :=
  ⟨h.of_impl hp.wellFormed hp.segments, .of_evolves hp.evolves, fun p hr ↦ absurd hr (hret p),
    fun st ↦ by rw [hp.evolves.submitted]⟩

private theorem StepSpec.of_serves (h : m.Consistent) {t : ThreadId} {d : DriverAnswers}
    {gained : Option RawSegment} {size : Nat} {stream : Stream} {r : Impl}
    (hd : op.answers = some d)
    (hs : Impl.Serves (Impl.Completes d) gained m.impl size stream reply r)
    (hg : ∀ raw, gained = some raw → ∃ n, (m.threads t).pending = some (n, raw)) :
    StepSpec m op reply (m.settle t (reply, r)).2 :=
  ⟨h.settle hs hg, .of_evolves (hs.evolves.mono (fun _ he ↦ ⟨d, hd, he⟩)),
    fun p hr ↦ ⟨size, stream, hs.returned p hr⟩, fun st ↦ by
      change _ ≤ r.submitted st
      rw [hs.evolves.submitted]⟩

/-- A region from the driver is apart from what is there. -/
private theorem StepSpec.mallocSegment (h : m.Consistent) {t : ThreadId} {answer : MallocAnswer}
    {request : SegmentRequest} (ht : m.threads t = .inDriver request)
    (ha : m.Admissible (.mallocSegment t answer)) :
    StepSpec m (.mallocSegment t answer) .done
      { m with threads := update m.threads t (.fromDriver request answer) } := by
  refine ⟨⟨h.impl, fun t' request' hr ↦ ?_, fun t' size raw hp ↦ ?_,
    fun t₁ t₂ size₁ raw₁ size₂ raw₂ hne hp₁ hp₂ ↦ ?_⟩, .of_evolves (.refl _), fun p hr ↦ (by cases hr),
    fun _ ↦ Nat.le_refl _⟩
  · by_cases htt : t' = t
    · subst htt
      simp only [update_self] at hr
      exact h.requests t' request' (by rw [ht]; exact hr)
    · simp only [update_of_ne htt] at hr
      exact h.requests t' request' hr
  · by_cases htt : t' = t
    · subst htt
      simp only [update_self] at hp
      cases answer with
      | segment raw' =>
        cases hp
        have hf := ha request ht
        exact ⟨hf.ptr_pos, hf.size_le, hf.bound, hf.unmapped.1⟩
      | failed err | guard answer => cases hp
    · simp only [update_of_ne htt] at hp
      exact h.pending t' size raw hp
  · have hnew {t' : ThreadId} {size : Nat} {raw raw' : RawSegment} {size' : Nat} (htt : t' ≠ t)
        (hp : (m.threads t').pending = some (size, raw))
        (hp' : (ThreadState.fromDriver request answer).pending = some (size', raw')) :
        raw'.ptr + raw'.size ≤ raw.ptr ∨ raw.ptr + raw.size ≤ raw'.ptr := by
      cases answer with
      | segment x =>
        cases hp'
        cases hs : m.threads t' with
        | idle | inDriver request' => rw [hs] at hp; cases hp
        | fromDriver request' answer' =>
          rw [hs] at hp
          cases answer' with
          | segment y =>
            cases hp
            exact (ha request ht).unmapped.2 t' request' raw hs
          | failed err | guard g => cases hp
      | failed err | guard g => cases hp'
    simp only [update_apply] at hp₁ hp₂
    split at hp₁
    · next h₁ =>
      split at hp₂
      · next h₂ => exact absurd (h₁.trans h₂.symm) hne
      · next h₂ => exact hnew h₂ hp₂ hp₁
    · next h₁ =>
      split at hp₂
      · exact (hnew h₁ hp₁ hp₂).symm
      · exact h.apart t₁ t₂ size₁ raw₁ size₂ raw₂ hne hp₁ hp₂

/-- Every safe step keeps the invariant. -/
theorem step_spec (h : m.Consistent) (ha : m.Admissible op) (hr : m.run op = some (reply, m'))
    (hs : op.Safe m reply) : StepSpec m op reply m' := by
  cases op with
  | allocate t size stream d =>
    obtain ⟨-, r, hi, rfl⟩ := run_allocate hr
    exact .of_serves h rfl (allocate_serves h.impl hs.1 hi
      (fun x hx hfail ↦ hs.2 ⟨x, hx, hfail⟩)) (fun _ h ↦ by cases h)
  | mallocSegment t answer =>
    obtain ⟨request, ht, rfl, rfl⟩ := run_mallocSegment hr
    exact .mallocSegment h ht ha
  | resume t d =>
    obtain ⟨request, answer, r, ht, hi, rfl⟩ := run_resume hr
    have hv := h.requests t request (by rw [ht]; rfl)
    cases answer with
    | segment raw =>
      have hp : (m.threads t).pending = some (request.allocSize, raw) := by rw [ht]; rfl
      obtain ⟨hptr, hsize, hbound, hfree⟩ := h.pending t _ raw hp
      refine .of_serves h rfl
        (resumeAllocate_segment_serves h.impl hv hptr hsize hbound hfree hi) ?_
      intro raw' hg
      cases hg
      exact ⟨_, hp⟩
    | failed err | guard answer =>
      exact .of_serves h rfl (resumeAllocate_failed_serves h.impl hv
        (fun raw hx ↦ by cases hx) hi (fun x hx hfail ↦ hs ⟨x, hx, hfail⟩))
        (fun raw hg ↦ by cases hg)
  | deallocate p hint d =>
    obtain ⟨r, hi, rfl⟩ := run_deallocate hr
    have hf := deallocate_frees h.impl hs.1 hi (fun x hx hfail ↦ hs.2 ⟨x, hx, hfail⟩)
    refine ⟨h.of_impl hf.wellFormed hf.segments, ⟨fun c C hC hal hg ↦ ?_, fun b B e hB he ↦ ?_⟩,
      fun q hq ↦ ?_, fun st ↦ by rw [hf.submitted]⟩
    · exact hf.retains.live c C hC hal (fun hp ↦ hg ⟨hint, d, by rw [hp]⟩)
    · exact (hf.retains.waiting b B e hB he).imp_left (fun hd ↦ ⟨d, rfl, hd⟩)
    · rcases hf.outcome with hd | ⟨x, hd⟩ <;> rw [hd] at hq <;> cases hq
  | recordStream p stream =>
    cases hr
    obtain ⟨hwf, hret, hsub, hseg, _⟩ := recordStream_spec
      (Operation.Completes (.recordStream p stream)) (Operation.Gives (.recordStream p stream))
      h.impl p stream
    refine ⟨h.of_impl hwf (fun _ _ hx ↦ hseg ▸ hx), hret, fun q hq ↦ ?_, fun st ↦ by rw [hsub]⟩
    have hne : (m.impl.recordStream p stream).1 ≠ .returned q := by
      unfold recordStream
      split
      · exact fun h ↦ by cases h
      · split
        · exact fun h ↦ by cases h
        · split <;> exact fun h ↦ by cases h
    exact absurd hq hne
  | emptyCache d =>
    rcases hi : m.impl.releaseCachedBlocksLocked d with ⟨x | _, r⟩
    · simp only [run, emptyCache, hi] at hr
      cases hr
      obtain ⟨hp, _⟩ := releaseCachedBlocksLocked_progress h.impl hi
        (fun y hy hfail ↦ by cases hy; exact hs ⟨x, rfl, hfail⟩)
      exact .of_progress h (hp.mono (fun _ he ↦ ⟨d, rfl, he⟩)) (fun _ h ↦ by cases h)
    · simp only [run, emptyCache, hi] at hr
      cases hr
      obtain ⟨hp, _⟩ := releaseCachedBlocksLocked_progress h.impl hi
        (fun _ h ↦ by cases h)
      exact .of_progress h (hp.mono (fun _ he ↦ ⟨d, rfl, he⟩)) (fun _ h ↦ by cases h)
  | setMaxCachedBytes bytes =>
    cases hr
    have hp : Impl.Progress (Operation.Completes (.setMaxCachedBytes bytes)) m.impl
        { m.impl with maxCachedBytes := bytes } := .of_core h.impl rfl rfl rfl
    exact .of_progress h (hp.trans (trimCacheLocked_progress hp.wellFormed).1)
      (fun _ h ↦ by cases h)
  | setMemoryFraction allowed | resetPeakStats =>
    cases hr
    exact .of_progress h (.of_core h.impl rfl rfl rfl) (fun _ h ↦ by cases h)
  | submit stream =>
    cases hr
    refine ⟨h.of_impl (h.impl.congr rfl) (fun _ _ hx ↦ hx), ⟨fun c C hC hal _ ↦ ?_,
      fun b B e hB he ↦ .inr ⟨he, rfl, B, hB, rfl, rfl⟩⟩, fun _ hx ↦ (by cases hx), fun st ↦ ?_⟩
    · exact ⟨C, hC, hal, rfl, rfl, rfl, fun _ hm ↦ hm⟩
    · by_cases hst : st = stream
      · subst hst
        simp
      · simp [hst]
  | rehash queues =>
    cases hr
    exact .of_progress h (.requeue h.impl (ha.flatMap_right _)) (fun _ h ↦ by cases h)

/-- A fresh allocator owns nothing. -/
theorem initial_consistent (maxCachedBytes : Nat) : Consistent { impl := { maxCachedBytes } } := by
  refine ⟨⟨?_, fun _ _ hr ↦ by simp at hr, ⟨fun b ↦ ?_, fun _ ↦ .nil, .refl _⟩,
    fun _ _ _ hb ↦ (by cases hb), ⟨rfl, rfl, rfl, rfl, rfl⟩⟩, fun _ _ hr ↦ (by cases hr),
    fun _ _ _ hp ↦ (by cases hp), fun _ _ _ _ _ _ _ hp ↦ (by cases hp)⟩
  · constructor <;> simp [extents, regions]
  · exact .of_none rfl (by simp) (by simp) (by simp) (by simp [queuedBlocks, queueEntries]) rfl

end Machine

theorem DriverAnswers.ErrorFree.frontFails {d : DriverAnswers} (h : d.ErrorFree)
    (queues : List (Stream × EventQueue)) : Impl.FrontFails d queues :=
  fun _ _ entry _ ↦ h.synchronize entry.1

theorem Operation.Ordinary.safe {op : Operation} (h : op.Ordinary) (m : Machine) (reply : Reply) :
    op.Safe m reply := by
  cases op with
  | allocate t size stream d => exact ⟨h.1, fun _ ↦ h.2.frontFails _⟩
  | resume t d => exact fun _ ↦ h.frontFails _
  | deallocate p hint d => exact ⟨h.insertGuard, fun _ ↦ h.record⟩
  | emptyCache d => exact fun _ ↦ h.frontFails _
  | _ => trivial

/-- Ordinary runs keep the invariant. -/
theorem consistent_of_reachable {m : Machine} (h : ordinaryCudaAllocator.Reachable m) :
    m.Consistent := by
  refine h.invariant ?_ ?_
  · rintro _ ⟨maxCachedBytes, rfl⟩
    exact Machine.initial_consistent maxCachedBytes
  · rintro s ⟨op, reply⟩ t hs ⟨⟨ha, hr⟩, ho⟩
    exact (Machine.step_spec hs ha hr (ho.safe s reply)).consistent

end Hisab.Memory
