import Hisab.Parallel.CallbackQueue

/-!
# The control futures of a callback queue

What `push_control` (`threaded_callback_queue.h:856–910`) does with `control_futures_`: the
worker that it copies into the invoker (`threaded_callback_queue.h:641–701`), the future that it
registers, and the future that the copy erases. A registered task may run at any time after it,
inline, on a worker or as a dependent of another task. Futures are named by their positions.
-/

namespace Hisab.Parallel

open Base Function List

/-- The `worker` of `push_control` (`threaded_callback_queue.h:859–870`); a null pointer is
`none`. -/
structure ControlWorker where
  future : Option Nat := none
deriving Repr, DecidableEq

/-- The invoker of a control task: the worker that its handle holds, and the argument of
`set_number_of_threads`. -/
structure ControlInvoker where
  function : ControlWorker
  numberOfThreads : Int
deriving Repr, DecidableEq

/-- How far a control task is. -/
inductive ControlStage
  | constructing
  | registered
  | running
  | finished
deriving Repr, DecidableEq

/-- The invokers in the order they were made, and `control_futures_`. -/
structure ControlQueue where
  invokers : List ControlInvoker := []
  stage : Nat → ControlStage := fun _ ↦ .constructing
  controlFutures : Finset (Option Nat) := ∅

inductive ControlStep
  | create (numberOfThreads : Int)
  | register (x : Nat)
  | run (x : Nat)
  | finish (x : Nat)
deriving Repr, DecidableEq

/-- `invoker<worker, …>::create`, whose handle is made from a copy of the worker
(`threaded_callback_queue.h:647–651, 674–679`). -/
def ControlInvoker.create (w : ControlWorker) (numberOfThreads : Int) : ControlInvoker where
  function := w
  numberOfThreads := numberOfThreads

namespace ControlQueue

/-- The worker and the invoker after `push_control` has set the future of the worker
(`threaded_callback_queue.h:872–877`). -/
def makeInvoker (s : ControlQueue) (numberOfThreads : Int) : ControlWorker × ControlInvoker :=
  let w : ControlWorker := {}
  let invoker := ControlInvoker.create w numberOfThreads
  ({ w with future := some s.invokers.length }, invoker)

/-- Task `x` has come to `stage`. -/
def setStage (s : ControlQueue) (x : Nat) (stage : ControlStage) : ControlQueue :=
  { s with stage := update s.stage x stage }

/-- `control_futures_.emplace` (`threaded_callback_queue.h:879–884`). -/
def register (s : ControlQueue) (x : Nat) : ControlQueue :=
  { s.setStage x .registered with controlFutures := insert (some x) s.controlFutures }

/-- The end of the worker's call operator (`threaded_callback_queue.h:864–865`). -/
def finish (s : ControlQueue) (x : Nat) (invoker : ControlInvoker) : ControlQueue :=
  { s.setStage x .finished with
    controlFutures := s.controlFutures.erase invoker.function.future }

/-- One step; `none` when it is not enabled. -/
def step (s : ControlQueue) : ControlStep → Option ControlQueue
  | .create k => some { s with invokers := s.invokers ++ [(s.makeInvoker k).2] }
  | .register x =>
    if x < s.invokers.length ∧ s.stage x = .constructing then some (s.register x) else none
  | .run x => if s.stage x = .registered then some (s.setStage x .running) else none
  | .finish x =>
    match s.invokers[x]? with
    | some invoker => if s.stage x = .running then some (s.finish x invoker) else none
    | none => none

/-- The steps of one call of `set_number_of_threads` from its start to its end. -/
def callSteps (x : Nat) (numberOfThreads : Int) : List ControlStep :=
  [.create numberOfThreads, .register x, .run x, .finish x]

/-- The queue after its constructor, which calls `set_number_of_threads(1)`
(`threaded_callback_queue.cpp:110–113`). -/
def constructed : ControlQueue := ((callSteps 0 1).foldlM step {}).getD {}

/-- The queue and its runs once it is constructed. -/
def system : TransitionSystem ControlQueue ControlStep where
  init s := s = constructed
  step s l t := s.step l = some t

/-- The arguments of the calls so far. -/
def calls (s : ControlQueue) : List Int := s.invokers.map ControlInvoker.numberOfThreads

/-- All control tasks have finished. -/
def AllFinished (s : ControlQueue) : Prop := ∀ x < s.invokers.length, s.stage x = .finished

/-- No finished entries are left. -/
def DropsFinished (s : ControlQueue) : Prop := s.AllFinished → s.controlFutures = ∅

/-- Every task that was registered is in `control_futures_`, and the copies of the workers name
no future. -/
structure Kept (s : ControlQueue) : Prop where
  future : ∀ invoker ∈ s.invokers, invoker.function.future = none
  futures : ∀ f, f ∈ s.controlFutures ↔ ∃ x < s.invokers.length,
    f = some x ∧ s.stage x ≠ .constructing
  later : ∀ x, s.invokers.length ≤ x → s.stage x = .constructing

variable {s s' : ControlQueue} {x : Nat}

@[simp] theorem setStage_stage (s : ControlQueue) (x : Nat) (stage : ControlStage) :
    (s.setStage x stage).stage = update s.stage x stage := rfl

@[simp] theorem register_stage (s : ControlQueue) (x : Nat) :
    (s.register x).stage = update s.stage x .registered := rfl

@[simp] theorem finish_stage (s : ControlQueue) (x : Nat) (invoker : ControlInvoker) :
    (s.finish x invoker).stage = update s.stage x .finished := rfl

theorem Kept.setStage (h : Kept s) {stage : ControlStage} (hx : x < s.invokers.length)
    (hs : s.stage x ≠ .constructing) (hstage : stage ≠ .constructing) :
    Kept (s.setStage x stage) where
  future := h.future
  futures f := by
    refine (h.futures f).trans (exists_congr fun y ↦ and_congr_right fun _ ↦ and_congr_right fun _ ↦ ?_)
    by_cases hy : y = x
    · subst hy
      simp [hs, hstage]
    · simp [hy]
  later y hy := by
    rw [setStage_stage]
    have hyx : y ≠ x := by
      change s.invokers.length ≤ y at hy
      omega
    rw [update_of_ne hyx]
    exact h.later y hy

theorem Kept.register (h : Kept s) (hx : x < s.invokers.length) : Kept (s.register x) where
  future := h.future
  futures f := by
    change f ∈ insert (some x) s.controlFutures ↔ ∃ y < s.invokers.length, f = some y ∧
      update s.stage x .registered y ≠ .constructing
    rw [Finset.mem_insert, h.futures]
    constructor
    · rintro (rfl | ⟨y, hy, rfl, hstage⟩)
      · exact ⟨x, hx, rfl, by simp⟩
      · refine ⟨y, hy, rfl, ?_⟩
        by_cases hyx : y = x
        · simp [hyx]
        · simpa [hyx] using hstage
    · rintro ⟨y, hy, rfl, hstage⟩
      by_cases hyx : y = x
      · exact .inl (by rw [hyx])
      · exact .inr ⟨y, hy, rfl, by simpa [hyx] using hstage⟩
  later y hy := by
    rw [register_stage]
    have hyx : y ≠ x := by
      change s.invokers.length ≤ y at hy
      omega
    rw [update_of_ne hyx]
    exact h.later y hy

/-- The end of a task erases nothing. -/
theorem Kept.finish_eq (h : Kept s) {invoker : ControlInvoker} (hx : s.invokers[x]? = some invoker) :
    s.finish x invoker = s.setStage x .finished := by
  have hfuture := h.future invoker (mem_of_getElem? hx)
  have hnot : none ∉ s.controlFutures := by
    rw [h.futures]
    rintro ⟨y, -, hy, -⟩
    cases hy
  rw [ControlQueue.finish, hfuture, Finset.erase_eq_of_notMem hnot]
  rfl

theorem Kept.step (h : Kept s) {l : ControlStep} (hs : s.step l = some s') : Kept s' := by
  cases l with
  | create k =>
    cases hs
    refine ⟨fun invoker hm ↦ ?_, fun f ↦ (h.futures f).trans ?_, fun x hx ↦ ?_⟩
    · rcases mem_append.mp hm with hold | hnew
      · exact h.future invoker hold
      · rw [mem_singleton.mp hnew]
        rfl
    · constructor
      · rintro ⟨x, hx, hf⟩
        refine ⟨x, ?_, hf⟩
        rw [length_append]
        omega
      · rintro ⟨x, -, hf, hstage⟩
        by_cases hx : x < s.invokers.length
        · exact ⟨x, hx, hf, hstage⟩
        · exact absurd (h.later x (by omega)) hstage
    · rw [length_append] at hx
      exact h.later x (by omega)
  | register x =>
    rw [ControlQueue.step] at hs
    split at hs
    · next hx =>
      cases hs
      exact h.register hx.1
    · cases hs
  | run x =>
    rw [ControlQueue.step] at hs
    split at hs
    · next hstage =>
      cases hs
      have hne : s.stage x ≠ .constructing := by simp [hstage]
      have hx : x < s.invokers.length := by
        by_contra hx
        exact hne (h.later x (by omega))
      exact h.setStage hx hne (by simp)
    · cases hs
  | finish x =>
    rw [ControlQueue.step] at hs
    cases hx : s.invokers[x]? with
    | none =>
      rw [hx] at hs
      cases hs
    | some invoker =>
      rw [hx] at hs
      dsimp only at hs
      split at hs
      · next hstage =>
        cases hs
        rw [h.finish_eq hx]
        exact h.setStage (List.getElem?_eq_some_iff.mp hx).1 (by simp [hstage]) (by simp)
      · cases hs

theorem Kept.run {ls : List ControlStep} (h : Kept s) (hr : system.Run s ls s') : Kept s' :=
  hr.invariant (fun _ _ _ ht hs ↦ ht.step hs) h

theorem kept_constructed : Kept constructed := by
  have hempty : Kept {} := by
    constructor
    · intro invoker hm
      cases hm
    · simp
    · intro x _
      rfl
  have hrun : (callSteps 0 1).foldlM step {} = some constructed := rfl
  exact hempty.run (.of_foldlM (fun _ _ _ hs ↦ hs) hrun)

theorem Kept.of_reachable (h : system.Reachable s) : Kept s :=
  h.invariant (fun _ hs ↦ hs ▸ kept_constructed) fun _ _ _ ht hs ↦ ht.step hs

/-- Once all tasks have finished, all their futures are in the set. -/
theorem Kept.controlFutures_eq (h : Kept s) (hall : s.AllFinished) :
    s.controlFutures = (Finset.range s.invokers.length).image some := by
  ext f
  rw [h.futures, Finset.mem_image]
  constructor
  · rintro ⟨x, hx, rfl, -⟩
    exact ⟨x, Finset.mem_range.mpr hx, rfl⟩
  · rintro ⟨x, hx, rfl⟩
    have hx := Finset.mem_range.mp hx
    refine ⟨x, hx, rfl, ?_⟩
    rw [hall x hx]
    exact ControlStage.noConfusion

/-- A call whose task runs at once. -/
theorem Kept.exists_call (h : Kept s) (hall : s.AllFinished) (k : Int) :
    ∃ s', system.Run s (callSteps s.invokers.length k) s' ∧ s'.calls = s.calls ++ [k] ∧
      s'.AllFinished := by
  have hstage := h.later s.invokers.length (Nat.le_refl _)
  let invoker := (s.makeInvoker k).2
  let made : ControlQueue := { s with invokers := s.invokers ++ [invoker] }
  have hlast : made.invokers[s.invokers.length]? = some invoker := by simp [made]
  have hlt : s.invokers.length < made.invokers.length := by simp [made]
  let running := (made.register s.invokers.length).setStage s.invokers.length .running
  have hregister : made.step (.register s.invokers.length) =
      some (made.register s.invokers.length) := if_pos ⟨hlt, hstage⟩
  have hrun : (made.register s.invokers.length).step (.run s.invokers.length) = some running := by
    apply if_pos
    simp
  have hfinish : running.step (.finish s.invokers.length) =
      some (running.finish s.invokers.length invoker) := by
    rw [ControlQueue.step, show running.invokers[s.invokers.length]? = some invoker from hlast]
    simp [running]
  refine ⟨running.finish s.invokers.length invoker,
    .cons rfl (.cons hregister (.cons hrun (.cons hfinish (.nil _)))), ?_, fun x hx ↦ ?_⟩
  · change (s.invokers ++ [invoker]).map ControlInvoker.numberOfThreads = _
    rw [map_append]
    rfl
  · have hlen : x < (s.invokers ++ [invoker]).length := hx
    rw [length_append, length_singleton] at hlen
    by_cases hx : x = s.invokers.length
    · simp [hx]
    · have hold := hall x (by omega)
      simpa [running, made, hx] using hold

/-- Any calls can be made, each with its task run at once. -/
theorem exists_calls (calls : List Int) : ∃ s, system.Reachable s ∧ s.calls = 1 :: calls ∧
    s.AllFinished := by
  induction calls using reverseRecOn with
  | nil =>
    refine ⟨constructed, .of_init rfl, rfl, fun x hx ↦ ?_⟩
    have hx : x = 0 := Nat.lt_one_iff.mp hx
    rw [hx]
    rfl
  | append_singleton calls k ih =>
    obtain ⟨s, hreach, hcalls, hall⟩ := ih
    obtain ⟨s', hrun, hcalls', hall'⟩ := (Kept.of_reachable hreach).exists_call hall k
    exact ⟨s', hreach.run hrun, by rw [hcalls', hcalls, cons_append], hall'⟩

/-- Whatever calls are made after the constructor, their tasks can finish, no end of a task
changes `control_futures_`, and once all have finished it holds every one of their futures. -/
theorem controlFutures_kept (calls : List Int) :
    (∃ s, system.Reachable s ∧ s.calls = 1 :: calls ∧ s.AllFinished) ∧
    ∀ s, system.Reachable s → s.calls = 1 :: calls →
      (∀ x s', s.step (.finish x) = some s' → s'.controlFutures = s.controlFutures) ∧
      (s.AllFinished → s.controlFutures = (Finset.range (calls.length + 1)).image some ∧
        ¬s.DropsFinished) := by
  refine ⟨exists_calls calls, fun s hreach hcalls ↦ ⟨fun x s' hs ↦ ?_, fun hall ↦ ?_⟩⟩
  · have h := Kept.of_reachable hreach
    rw [ControlQueue.step] at hs
    cases hx : s.invokers[x]? with
    | none =>
      rw [hx] at hs
      cases hs
    | some invoker =>
      rw [hx] at hs
      dsimp only at hs
      rw [h.finish_eq hx] at hs
      split at hs
      · cases hs
        rfl
      · cases hs
  · have hlen : s.invokers.length = calls.length + 1 := by
      have := congrArg length hcalls
      rwa [ControlQueue.calls, length_map] at this
    have hall_eq := (Kept.of_reachable hreach).controlFutures_eq hall
    rw [hlen] at hall_eq
    refine ⟨hall_eq, fun hdrops ↦ ?_⟩
    rw [hdrops hall] at hall_eq
    simp at hall_eq

/-- The constructor leaves the future of its own call behind. -/
theorem constructed_not_dropped : system.Reachable constructed ∧ constructed.AllFinished ∧
    ¬constructed.DropsFinished := by
  have hall : constructed.AllFinished := by
    intro x hx
    have hx : x = 0 := Nat.lt_one_iff.mp hx
    rw [hx]
    rfl
  refine ⟨.of_init rfl, hall, fun hdrops ↦ ?_⟩
  have hempty := hdrops hall
  have hmem : some 0 ∈ constructed.controlFutures := by decide
  rw [hempty] at hmem
  cases hmem

end ControlQueue

/-- The model of the whole queue keeps them too. -/
theorem CallbackQueue.finish_controlFutures {n t x : Nat} {s s' : CallbackQueue}
    {fs : List QueueFrame} (hs : s.finish n t x fs = some s') :
    s'.controlFutures = s.controlFutures := by
  rw [CallbackQueue.finish] at hs
  split at hs
  · cases hs
    split
    · simp [controlWorkerFuture]
    · rfl
  · cases hs

end Hisab.Parallel
