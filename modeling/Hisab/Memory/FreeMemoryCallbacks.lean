import Hisab.Memory.EventErrors

/-!
# Free-memory callbacks

On a miss `allocate` runs the registered callbacks before it turns to the driver. They run under
the lock, which is recursive, so they may call the allocator again, and calls of theirs that miss
run them in turn. A step of `allocate` therefore holds a whole run of other steps. Beside the
machine a note of any kind may be kept of the operations, nested ones included.
-/

namespace Hisab.Memory
open Hisab.Base CachingConfig

namespace Impl

/-- `allocate` once `trigger_free_memory_callbacks_locked` has returned `freed`,
`cuda_caching_allocator.cpp:434–457`. -/
def retryCache (d : DriverAnswers) (s : Impl) (freed : Bool) (size : Nat) (stream : Stream) :
    Reply × Impl :=
  let request := segmentRequest size stream
  if freed then
    match s.getFreeBlockLocked request.pool stream request.rounded with
    | (some block, s) => s.countHit.finishAllocate block request.rounded size
    | (none, s) => s.missCache d request
  else s.missCache d request

end Impl

namespace Machine

/-- The thread's `allocate` has drained the completed events and found no block. -/
structure Misses (m : Machine) (t : ThreadId) (size : Nat) (stream : Stream) (d : DriverAnswers)
    (s : Impl) : Prop where
  idle : m.threads t = .idle
  size_ne : size ≠ 0
  drained : m.impl.processEventsLocked d = (.ok (), s)
  missed : (s.getFreeBlockLocked (Impl.segmentRequest size stream).pool stream
    (Impl.segmentRequest size stream).rounded).1 = none

/-- The callbacks have returned to the thread; the condition of `Operation.Benign` holds of what
is left to do. -/
structure Returns (m : Machine) (t : ThreadId) (size : Nat) (d : DriverAnswers) : Prop where
  idle : m.threads t = .idle
  fits : RoundingFits size
  front : Impl.FrontFails d m.impl.cudaEvents

end Machine

/-- While the thread holds the lock no other thread starts or resumes an `allocate`. -/
def Operation.Nested (t : ThreadId) : Operation → Prop
  | .allocate t' _ _ _ => t' = t
  | .resume t' _ => t' = t
  | _ => True

variable {γ : Type}

mutual

/-- A step of a benign run with callbacks. -/
inductive CallbackStep (note : Machine → Operation → γ → γ) :
    Machine × γ → Operation × Reply → Machine × γ → Prop
  /-- No callback is run. -/
  | plain {m m' : Machine} {l : Operation × Reply} {g : γ} :
      benignCudaAllocator.step m l m' → CallbackStep note (m, g) l (m', note m l.1 g)
  /-- The callbacks run, and report whether they have freed memory. -/
  | callbacks {m n : Machine} {g g' : γ} {s : Impl} {t : ThreadId} {size : Nat} {stream : Stream}
      {d : DriverAnswers} (freed : Bool) : m.Misses t size stream d s →
      CallbackRun note t ({ m with impl := s }, g) (n, g') → n.Returns t size d →
      CallbackStep note (m, g)
        (.allocate t size stream d, (n.impl.retryCache d freed size stream).1)
        ((n.settle t (n.impl.retryCache d freed size stream)).2, g')
  /-- A callback throws. -/
  | threw {m n : Machine} {g g' : γ} {s : Impl} {t : ThreadId} {size : Nat} {stream : Stream}
      {d : DriverAnswers} (e : Exn) : m.Misses t size stream d s →
      CallbackRun note t ({ m with impl := s }, g) (n, g') → n.threads t = .idle →
      CallbackStep note (m, g) (.allocate t size stream d, .threw e) (n, g')

/-- What the callbacks of a thread do under the lock. -/
inductive CallbackRun (note : Machine → Operation → γ → γ) :
    ThreadId → Machine × γ → Machine × γ → Prop
  | refl (t : ThreadId) (x : Machine × γ) : CallbackRun note t x x
  | step {t : ThreadId} {x y z : Machine × γ} {l : Operation × Reply} : l.1.Nested t →
      CallbackStep note x l y → CallbackRun note t y z → CallbackRun note t x z

end

/-- Benign runs with callbacks, with notes that start as `g₀`. -/
def notedCudaAllocator (note : Machine → Operation → γ → γ) (g₀ : γ) :
    TransitionSystem (Machine × γ) (Operation × Reply) where
  init x := benignCudaAllocator.init x.1 ∧ x.2 = g₀
  step := CallbackStep note

/-- The allocator in benign runs with callbacks. -/
def callbackCudaAllocator : TransitionSystem (Machine × Unit) (Operation × Reply) :=
  notedCudaAllocator (fun _ _ u ↦ u) ()

/-! ### Invariants -/

/-- Kept by the steps without callbacks and by the two halves of an `allocate` with them. -/
structure CallbackInvariant (note : Machine → Operation → γ → γ) (I : Machine × γ → Prop) :
    Prop where
  plain : ∀ m l m' g, I (m, g) → benignCudaAllocator.step m l m' → I (m', note m l.1 g)
  drained : ∀ m d s g, I (m, g) → m.impl.processEventsLocked d = (.ok (), s) →
    I ({ m with impl := s }, g)
  returns : ∀ m t size stream d freed g, I (m, g) → m.Returns t size d →
    I ((m.settle t (m.impl.retryCache d freed size stream)).2, g)

variable {note : Machine → Operation → γ → γ} {I : Machine × γ → Prop}

mutual

theorem CallbackStep.invariant (hI : CallbackInvariant note I) {x y : Machine × γ}
    {l : Operation × Reply} (hx : I x) : CallbackStep note x l y → I y
  | .plain hs => hI.plain _ _ _ _ hx hs
  | .callbacks freed hmiss hrun hreturns =>
    hI.returns _ _ _ _ _ freed _
      (CallbackRun.invariant hI (hI.drained _ _ _ _ hx hmiss.drained) hrun) hreturns
  | .threw _ hmiss hrun _ => CallbackRun.invariant hI (hI.drained _ _ _ _ hx hmiss.drained) hrun

theorem CallbackRun.invariant (hI : CallbackInvariant note I) {t : ThreadId} {x y : Machine × γ}
    (hx : I x) : CallbackRun note t x y → I y
  | .refl _ _ => hx
  | .step _ hs hrun => CallbackRun.invariant hI (CallbackStep.invariant hI hx hs) hrun

end

theorem CallbackInvariant.reachable (hI : CallbackInvariant note I) {g₀ : γ}
    (hinit : ∀ m, benignCudaAllocator.init m → I (m, g₀)) {x : Machine × γ}
    (h : (notedCudaAllocator note g₀).Reachable x) : I x := by
  apply TransitionSystem.Reachable.invariant _ _ h
  · rintro ⟨m, g⟩ ⟨hm, hg⟩
    subst hg
    exact hinit m hm
  · intro x l y hx hs
    exact CallbackStep.invariant hI hx hs

/-! ### The allocator stays consistent -/

namespace Impl

variable {s t r : Impl} {d : DriverAnswers}

theorem retryCache_serves {freed : Bool} {size : Nat} {stream : Stream} {reply : Reply}
    (h : s.WellFormed .none) (hfit : RoundingFits size)
    (hr : s.retryCache d freed size stream = (reply, r)) (hf : FrontFails d s.cudaEvents) :
    Serves (Completes d) .none s size stream reply r := by
  have hmiss (hm : s.missCache d (segmentRequest size stream) = (reply, r)) :
      Serves (Completes d) .none s size stream reply r :=
    missCache_serves h (segmentRequest_valid hfit stream) hm (fun _ _ _ ↦ hf)
  unfold retryCache at hr
  dsimp only at hr
  cases freed with
  | false =>
    rw [if_neg Bool.false_ne_true] at hr
    exact hmiss hr
  | true =>
    rcases getFreeBlockLocked_cases s (segmentRequest size stream).pool stream
      (segmentRequest size stream).rounded with hg | ⟨b, hg, hm, hstream, hsize⟩
    · rw [hg] at hr
      exact hmiss hr
    · rw [hg] at hr
      exact hit_serves h hfit hm hstream hsize hr

end Impl

/-- A callback may do what it likes with the allocator: the invariant holds when it returns. -/
theorem callbackInvariant_consistent (note : Machine → Operation → γ → γ) :
    CallbackInvariant note (fun x ↦ x.1.Consistent) := by
  constructor
  · rintro m ⟨op, reply⟩ m' g hm ⟨⟨ha, hr⟩, hb⟩
    exact (Machine.step_spec hm ha hr (hb.safe reply)).consistent
  · intro m d s g hm hp
    obtain ⟨hprogress, -⟩ := Impl.processEventsLocked_progress hm.impl hp
    exact hm.of_impl hprogress.wellFormed hprogress.segments
  · intro m t size stream d freed g hm hreturns
    have hserves : Impl.Serves (Impl.Completes d) .none m.impl size stream
        (m.impl.retryCache d freed size stream).1 (m.impl.retryCache d freed size stream).2 :=
      Impl.retryCache_serves hm.impl hreturns.fits rfl hreturns.front
    exact hm.settle hserves nofun

/-- Every benign run is one in which no callback runs. -/
theorem noted_of_benign (note : Machine → Operation → γ → γ) (g₀ : γ) {m : Machine}
    (h : benignCudaAllocator.Reachable m) : ∃ g, (notedCudaAllocator note g₀).Reachable (m, g) := by
  apply TransitionSystem.Reachable.invariant _ _ h
  · intro m hm
    exact ⟨g₀, .of_init ⟨hm, rfl⟩⟩
  · rintro m l m' ⟨g, hg⟩ hs
    exact ⟨_, hg.step (CallbackStep.plain hs)⟩

end Hisab.Memory
