import Hisab.Base.Queues
import Hisab.Parallel.CallbackOrder

/-!
# Indices of the tasks in the deque

`try_invoke` finds a task by the distance of its index from the index of the front. The
positions agree with the indices as long as `push` appends behind a task: it counts on from
the last task, and a hole behind that one is not counted.
-/

namespace Hisab.Parallel.CallbackQueue

open Base Function List CallbackQueue

/-- The frames that hold `mutex_`. -/
def mutexFrames (stack : List QueueFrame) : List QueueFrame := stack.filter holdsMutex

/-- The frame takes `mutex_` next. -/
def wantsMutex : QueueFrame → Bool
  | .loop | .push _ | .pushFront _ | .tryInvokeLock _ | .launch _ => true
  | _ => false

/-- The deque begins with a task, and every task is as far from it as its index says. -/
structure Positioned (s : CallbackQueue) : Prop where
  front : s.invokerQueue.head? ≠ some none
  position : Indexed (fun x ↦ (s.future x).invokerIndex) (s.frontInvokerIndex s.invokerQueue)
    s.invokerQueue

/-- What holds in every state while `push` appends behind a task. -/
structure DequeInv (n : Nat) (s : CallbackQueue) : Prop where
  deque : s.Positioned
  exclusive : (held mutexFrames n s.thread).length ≤ 1
  launchIndex : ∀ index ds, .launching index ds ∈ held mutexFrames n s.thread →
    s.invokerQueue ≠ [] → index = s.frontInvokerIndex s.invokerQueue

/-- A step of a thread with the frames `fs` that leaves `mutex_`, the deque and the indices. -/
structure Quiet (s : CallbackQueue) (t : Nat) (fs : List QueueFrame) (s' : CallbackQueue) :
    Prop where
  thread : ∃ stack, s'.thread = update s.thread t stack ∧ mutexFrames stack = mutexFrames fs
  queue : s'.invokerQueue = s.invokerQueue
  index : ∀ x < s.count, (s'.future x).invokerIndex = (s.future x).invokerIndex

variable {n t x : Nat} {s s' : CallbackQueue} {f : QueueFrame} {fs stack : List QueueFrame}
  {q : List (Option Nat)} {base : Int}

theorem mutexFrames_cons (hf : holdsMutex f = false) :
    mutexFrames (f :: fs) = mutexFrames fs := filter_cons_of_neg (by simp [hf])

theorem mutexFrames_returnFalse (fs : List QueueFrame) :
    mutexFrames (returnFalse fs) = mutexFrames fs := by
  unfold returnFalse
  split <;> rfl

/-! ## Steps that leave the deque -/

theorem Quiet.setStack (h : mutexFrames stack = mutexFrames fs) :
    Quiet s t fs (s.setStack t stack) := ⟨⟨stack, rfl, h⟩, rfl, fun _ _ ↦ rfl⟩

/-- A future that keeps its index. -/
theorem invokerIndex_setFuture {r : SharedFuture}
    (hr : r.invokerIndex = (s.future x).invokerIndex) (y : Nat) :
    ((s.setFuture x r).future y).invokerIndex = (s.future y).invokerIndex := by
  by_cases hy : y = x
  · subst hy
    simpa [setFuture] using hr
  · simp [setFuture, update_of_ne hy]

theorem invokerIndex_setStatus (status : FutureStatus) (y : Nat) :
    ((s.setStatus x status).future y).invokerIndex = (s.future y).invokerIndex :=
  invokerIndex_setFuture (r := { s.future x with status := status }) rfl y

theorem invokerIndex_countDown (d : Nat) (ds : List Nat) (y : Nat) :
    ((s.countDown x d ds).future y).invokerIndex = (s.future y).invokerIndex := by
  let u := s.setFuture x { s.future x with dependents := ds }
  have hu : (u.future y).invokerIndex = (s.future y).invokerIndex :=
    invokerIndex_setFuture (r := { s.future x with dependents := ds }) rfl y
  exact (invokerIndex_setFuture
    (r := { u.future d with remaining := (u.future d).remaining - 1 }) rfl y).trans hu

theorem Quiet.setFuture {r : SharedFuture} (hr : r.invokerIndex = (s.future x).invokerIndex)
    (h : mutexFrames stack = mutexFrames fs) :
    Quiet s t fs ((s.setFuture x r).setStack t stack) :=
  ⟨⟨stack, rfl, h⟩, rfl, fun y _ ↦ invokerIndex_setFuture hr y⟩

theorem Quiet.create (r : SharedFuture) (h : mutexFrames stack = mutexFrames fs) :
    Quiet s t fs ((s.create r).setStack t stack) := by
  refine ⟨⟨stack, rfl, h⟩, rfl, fun y hy ↦ ?_⟩
  exact congrArg SharedFuture.invokerIndex (update_of_ne (Nat.ne_of_lt hy) ..)

theorem Quiet.of_mustNotWait {use : MustWaitUse} (hs : s.mustNotWait n t fs use = some s') :
    Quiet s t fs s' := by
  cases use with
  | pushDependent priors returnsValue =>
    cases hs
    exact .create _ rfl
  | wait futures =>
    cases hs
    exact .setStack rfl
  | pushControl x futures =>
    obtain ⟨-, rfl⟩ := ite_some_iff.mp hs
    exact .setFuture rfl rfl

theorem Quiet.of_mustDoWait (use : MustWaitUse) : Quiet s t fs (s.mustDoWait t fs use) := by
  cases use with
  | pushDependent priors returnsValue =>
    refine ⟨⟨_, rfl, rfl⟩, rfl, fun y hy ↦ ?_⟩
    have hy' : y ≠ s.count + 1 := by omega
    simp [mustDoWait, CallbackQueue.create, CallbackQueue.setStack,
      CallbackQueue.setFuture, update_of_ne hy', update_of_ne (Nat.ne_of_lt hy)]
  | wait futures => exact .create _ rfl
  | pushControl x futures => exact .setFuture rfl rfl

theorem Quiet.of_waitLoop {rest futures : List Nat} {flag : Bool} :
    Quiet s t fs (s.waitLoop t flag futures fs rest) := by
  unfold waitLoop
  split
  · split <;> exact .setStack rfl
  · split <;> exact .setStack rfl

theorem Quiet.of_register {d : Nat} {rest : List Nat}
    (hs : s.register n t d fs rest = some s') : Quiet s t fs s' := by
  cases rest with
  | cons p rest =>
    cases hs
    exact .setStack (by split <;> rfl)
  | nil =>
    obtain ⟨-, hs⟩ := Option.ite_none_right_eq_some.mp hs
    split at hs
    · cases hs
      exact .setFuture rfl rfl
    · cases hs
      exact .setFuture rfl rfl

theorem Quiet.of_registerLock {d p : Nat} {rest : List Nat}
    (hs : s.registerLock n t d p rest fs = some s') : Quiet s t fs s' := by
  obtain ⟨-, hs⟩ := Option.ite_none_right_eq_some.mp hs
  split at hs
  · cases hs
    exact .setStack rfl
  · cases hs
    exact .setFuture rfl rfl

theorem Quiet.of_enter (hs : s.enter n t x fs = some s') : Quiet s t fs s' := by
  obtain ⟨-, rfl⟩ := ite_some_iff.mp hs
  refine ⟨⟨_, rfl, ?_⟩, rfl, fun _ _ ↦ rfl⟩
  split <;> rfl

theorem Quiet.of_finish (hs : s.finish n t x fs = some s') : Quiet s t fs s' := by
  obtain ⟨-, rfl⟩ := ite_some_iff.mp hs
  exact ⟨⟨_, rfl, rfl⟩, rfl, fun y _ ↦ invokerIndex_setStatus _ y⟩

theorem Quiet.of_signalling {launch : List Nat}
    (hs : s.signalling n t x launch fs = some s') : Quiet s t fs s' := by
  unfold signalling at hs
  split at hs
  · cases hs
    exact .setStack (by split <;> rfl)
  next d ds _ =>
    have hindex := invokerIndex_countDown (s := s) (x := x) d ds
    simp only [Option.ite_none_right_eq_some] at hs
    obtain ⟨-, hs⟩ := hs
    split at hs
    · split at hs
      · cases hs
        exact ⟨⟨_, rfl, rfl⟩, rfl, fun y _ ↦ (invokerIndex_setStatus _ y).trans (hindex y)⟩
      · cases hs
        exact ⟨⟨_, rfl, rfl⟩, rfl, fun y _ ↦ hindex y⟩
    · cases hs
      exact ⟨⟨_, rfl, rfl⟩, rfl, fun y _ ↦ hindex y⟩

/-- A frame that neither holds nor takes `mutex_` leaves the deque. -/
theorem Quiet.of_advance (hwants : wantsMutex f = false) (hholds : holdsMutex f = false)
    (hs : s.advance n t fs f = some s') : Quiet s t fs s' := by
  cases f with
  | client | body _ => cases hs
  | loop | push _ | pushFront _ | tryInvokeLock _ | launch _ => cases hwants
  | tryInvokeLocked _ | launching _ _ => cases hholds
  | mustWait rest use =>
    cases rest with
    | nil => exact .of_mustNotWait hs
    | cons p rest =>
      cases hs
      split
      · exact .setStack rfl
      · exact .of_mustDoWait use
  | wait rest flag futures =>
    cases hs
    exact .of_waitLoop
  | tryInvoke x =>
    cases hs
    refine .setStack ?_
    split
    · rfl
    · exact mutexFrames_returnFalse fs
  | register d rest => exact .of_register hs
  | registerLock d p rest => exact .of_registerLock hs
  | registerAdd d rest =>
    cases hs
    exact .setFuture rfl rfl
  | blocked x =>
    obtain ⟨-, rfl⟩ := ite_some_iff.mp hs
    exact .setStack rfl
  | invoke x => exact .of_enter hs
  | signal x =>
    obtain ⟨-, rfl⟩ := ite_some_iff.mp hs
    exact .setStack rfl
  | signalling x launch => exact .of_signalling hs

/-- The step takes or holds `mutex_`. -/
def TouchesDeque (f : QueueFrame) (action : QueueAction) : Prop :=
  action = .advance ∧ (wantsMutex f ∨ holdsMutex f)

/-- Every other step leaves the deque. -/
theorem Quiet.of_step {action : QueueAction} (hst : s.thread t = f :: fs)
    (hs : s.step n ⟨t, action⟩ = some s') (hf : ¬TouchesDeque f action) :
    Quiet s t (f :: fs) s' := by
  simp only [step, Option.ite_none_right_eq_some, hst] at hs
  obtain ⟨-, hs⟩ := hs
  cases action with
  | advance =>
    simp only [TouchesDeque, true_and, not_or, Bool.not_eq_true] at hf
    obtain ⟨⟨stack, hthread, hframes⟩, hqueue, hindex⟩ := Quiet.of_advance hf.1 hf.2 hs
    exact ⟨⟨stack, hthread, hframes.trans (mutexFrames_cons hf.2).symm⟩, hqueue, hindex⟩
  | push returnsValue =>
    obtain ⟨-, rfl⟩ := ite_some_iff.mp hs
    exact .create _ rfl
  | pushDependent priors returnsValue | wait futures =>
    obtain ⟨-, rfl⟩ := ite_some_iff.mp hs
    exact .setStack rfl
  | pushControl =>
    obtain ⟨-, rfl⟩ := ite_some_iff.mp hs
    refine ⟨⟨_, rfl, rfl⟩, rfl, fun y hy ↦ ?_⟩
    exact congrArg SharedFuture.invokerIndex (update_of_ne (Nat.ne_of_lt hy) ..)
  | finish =>
    cases f with
    | body x =>
      obtain ⟨⟨stack, hthread, hframes⟩, hqueue, hindex⟩ := Quiet.of_finish hs
      exact ⟨⟨stack, hthread, hframes.trans (mutexFrames_cons rfl).symm⟩, hqueue, hindex⟩
    | _ => cases hs

/-! ## Positions -/

/-- Any base will do, as the front fixes it. -/
theorem Positioned.of_indexed (hfront : s.invokerQueue.head? ≠ some none)
    {b : Int} (h : Indexed (fun x ↦ (s.future x).invokerIndex) b s.invokerQueue) : s.Positioned := by
  refine ⟨hfront, ?_⟩
  cases hq : s.invokerQueue with
  | nil => exact .nil
  | cons a q =>
    cases a with
    | none => exact absurd (by rw [hq]; rfl) hfront
    | some x =>
      have hbase : s.frontInvokerIndex (some x :: q) = b := (indexed_cons.mp (hq ▸ h)).1 x rfl
      rw [hbase, ← hq]
      exact h

theorem indexed_popFrontNullptr {index : Nat → Int} (h : Indexed index base q) :
    ∃ base', Indexed index base' (popFrontNullptr q) := by
  induction q generalizing base with
  | nil => exact ⟨base, .nil⟩
  | cons a q ih =>
    cases a with
    | none => exact ih (indexed_cons.mp h).2
    | some x => exact ⟨base, h⟩

theorem head?_popFrontNullptr (q : List (Option Nat)) : (popFrontNullptr q).head? ≠ some none := by
  rcases popFrontNullptr_cases q with h | ⟨x, q', h⟩ <;> simp [h]

/-- No holes are at the front. -/
theorem popFrontNullptr_eq_self (h : q.head? ≠ some none) : popFrontNullptr q = q := by
  cases q with
  | nil => rfl
  | cons a q =>
    cases a with
    | none => simp at h
    | some x => rfl

theorem Positioned.popFrontNullptr_eq (h : s.Positioned) :
    popFrontNullptr s.invokerQueue = s.invokerQueue := popFrontNullptr_eq_self h.front

theorem frontInvokerIndex_congr
    (h : ∀ x, some x ∈ q → (s'.future x).invokerIndex = (s.future x).invokerIndex) :
    s'.frontInvokerIndex q = s.frontInvokerIndex q := by
  unfold frontInvokerIndex
  split
  next x hx =>
    obtain ⟨a, ha, hax⟩ := exists_of_findSome?_eq_some hx
    exact h x (hax ▸ ha)
  · rfl

/-- `push` counts on from the task behind which it appends. -/
theorem Positioned.backInvokerIndex_eq (h : s.Positioned) (hq : s.invokerQueue ≠ [])
    (hlast : s.invokerQueue.getLast? ≠ some none) :
    s.backInvokerIndex + 1 = s.frontInvokerIndex s.invokerQueue + s.invokerQueue.length := by
  cases hl : s.invokerQueue.getLast? with
  | none => exact absurd (getLast?_eq_none_iff.mp hl) hq
  | some a =>
    cases a with
    | none => exact absurd hl hlast
    | some x =>
      have hback : s.backInvokerIndex = (s.future x).invokerIndex := by
        rw [getLast?_eq_head?_reverse] at hl
        unfold backInvokerIndex
        cases hr : s.invokerQueue.reverse with
        | nil => simp [hr] at hl
        | cons b r =>
          obtain rfl : b = some x := by simpa [hr] using hl
          rfl
      rw [hback]
      exact h.position.getLast hl

/-! ## The invariant -/

/-- An element of the deque is a task that was pushed. -/
theorem Inv.lt_of_mem (h : Inv n s) (hx : some x ∈ s.invokerQueue) : x < s.count := by
  have hrole : (x, FutureRole.queued) ∈ (s.ledger n).roles :=
    mem_append_left _ (mem_filterMap.mpr ⟨some x, hx, rfl⟩)
  exact (h.ledger.role _ hrole).1

/-- A quiet step leaves the deque and who holds `mutex_`. -/
theorem DequeInv.of_quiet (h : DequeInv n s) (hinv : Inv n s) (ht : t < n)
    (hst : s.thread t = fs) (hq : Quiet s t fs s') : DequeInv n s' := by
  obtain ⟨⟨stack, hthread, hstack⟩, hqueue, hindex⟩ := hq
  have hindex : ∀ x, some x ∈ s.invokerQueue →
      (s'.future x).invokerIndex = (s.future x).invokerIndex :=
    fun x hx ↦ hindex x (hinv.lt_of_mem hx)
  have hheld : (held mutexFrames n s'.thread).Perm (held mutexFrames n s.thread) := by
    rw [hthread]
    refine (held_update_perm ht stack).trans ?_
    rw [hstack, ← hst]
    exact (held_perm ht).symm
  refine ⟨.of_indexed (hqueue ▸ h.deque.front) (hqueue ▸ h.deque.position.congr hindex),
    hheld.length_eq ▸ h.exclusive, fun index ds hmem hne ↦ ?_⟩
  rw [hqueue] at hne ⊢
  rw [frontInvokerIndex_congr hindex]
  exact h.launchIndex index ds (hheld.mem_iff.mp hmem) hne

theorem held_of_mutexFree (h : s.mutexFree n = true) : held mutexFrames n s.thread = [] := by
  refine flatMap_eq_nil_iff.mpr fun i hi ↦ filter_eq_nil_iff.mpr fun g hg hholds ↦ ?_
  have hnone := all_eq_true.mp h i hi
  simp only [Bool.not_eq_true', any_eq_false] at hnone
  exact hnone g hg hholds

/-- A thread that holds `mutex_`, or finds it free, is the only one. -/
theorem DequeInv.others (h : DequeInv n s) (ht : t < n) (hst : s.thread t = f :: fs)
    (hf : s.mutexFree n = true ∨ holdsMutex f = true) :
    mutexFrames fs = [] ∧ heldRest mutexFrames n s.thread t = [] := by
  have hperm : (held mutexFrames n s.thread).Perm
      (mutexFrames (s.thread t) ++ heldRest mutexFrames n s.thread t) := held_perm ht
  rw [hst] at hperm
  rcases hf with hfree | hholds
  · rw [held_of_mutexFree hfree, nil_perm, append_eq_nil_iff] at hperm
    have hsub : mutexFrames fs ⊆ mutexFrames (f :: fs) := ((sublist_cons_self f fs).filter _).subset
    exact ⟨eq_nil_of_subset_nil (hperm.1 ▸ hsub), hperm.2⟩
  · have hlen := hperm.length_eq ▸ h.exclusive
    rw [mutexFrames, filter_cons_of_pos hholds, cons_append, length_cons, length_append] at hlen
    exact ⟨eq_nil_of_length_eq_zero (by unfold mutexFrames; omega),
      eq_nil_of_length_eq_zero (by omega)⟩

/-- A step of the only thread at `mutex_`. -/
theorem DequeInv.of_top (ht : t < n) (hothers : heldRest mutexFrames n s.thread t = [])
    (hthread : s'.thread = update s.thread t stack)
    (hlen : (mutexFrames stack).length ≤ 1)
    (hlaunch : ∀ index ds, .launching index ds ∈ mutexFrames stack → s'.invokerQueue ≠ [] →
      index = s'.frontInvokerIndex s'.invokerQueue)
    (hdeque : s'.Positioned) : DequeInv n s' := by
  have hheld : (held mutexFrames n s'.thread).Perm (mutexFrames stack) := by
    rw [hthread]
    refine (held_update_perm ht stack).trans ?_
    rw [hothers, append_nil]
  exact ⟨hdeque, hheld.length_eq ▸ hlen, fun index ds hmem ↦ hlaunch index ds (hheld.mem_iff.mp hmem)⟩

/-- A step after which the thread does not hold `mutex_`. -/
theorem DequeInv.of_released (ht : t < n) (hothers : heldRest mutexFrames n s.thread t = [])
    (hthread : s'.thread = update s.thread t stack) (hstack : mutexFrames stack = [])
    (hdeque : s'.Positioned) : DequeInv n s' :=
  .of_top ht hothers hthread (by simp [hstack]) (by simp [hstack]) hdeque

/-- The elements behind the front keep their places. -/
theorem indexed_tail {index : Nat → Int} (h : Indexed index base q) :
    ∃ base', Indexed index base' (popFrontNullptr q.tail) := by
  cases q with
  | nil => exact ⟨base, .nil⟩
  | cons a q => exact indexed_popFrontNullptr (indexed_cons.mp h).2

theorem DequeInv.pop (h : DequeInv n s) (ht : t < n) (hst : s.thread t = .loop :: fs)
    (hs : s.pop n t fs = some s') : DequeInv n s' := by
  simp only [CallbackQueue.pop, Option.ite_none_right_eq_some, h.deque.popFrontNullptr_eq] at hs
  obtain ⟨⟨hfree, -⟩, hs⟩ := hs
  obtain ⟨hfs, hothers⟩ := h.others ht hst (.inl hfree)
  split at hs
  next x q hq =>
    cases hs
    obtain ⟨base, hbase⟩ := indexed_tail h.deque.position
    rw [hq] at hbase
    refine .of_released ht hothers rfl hfs (.of_indexed (b := base) (head?_popFrontNullptr q) ?_)
    exact hbase.congr fun y _ ↦ invokerIndex_setStatus _ y
  · cases hs
    exact .of_released ht hothers rfl hfs (.of_indexed (b := 0) (by simp) .nil)

/-- The task that a frame is responsible for is not in the deque. -/
theorem Inv.not_mem_of_role (h : Inv n s) (ht : t < n) (hf : f ∈ s.thread t)
    {role : FutureRole} (hx : (x, role) ∈ frameRoles f) : some x ∉ s.invokerQueue := by
  intro hmem
  have hqueued : (x, FutureRole.queued) ∈ queueRoles s.invokerQueue :=
    mem_filterMap.mpr ⟨some x, hmem, rfl⟩
  have hheld : (x, role) ∈ held stackRoles n s.thread :=
    mem_held.mpr ⟨t, ht, mem_flatMap.mpr ⟨f, hf, hx⟩⟩
  have hnodup := h.ledger.nodup
  simp only [CallbackQueue.ledger, map_append] at hnodup
  exact (nodup_append.mp hnodup).2.2 x (mem_map_of_mem hqueued) x (mem_map_of_mem hheld) rfl

theorem invokerIndex_update_self (g : Nat → SharedFuture) (x : Nat) (r : SharedFuture) :
    (update g x r x).invokerIndex = r.invokerIndex := by rw [update_self]

theorem invokerIndex_of_not_mem (hx : some x ∉ q) (r : SharedFuture) (y : Nat) (hy : some y ∈ q) :
    (update s.future x r y).invokerIndex = (s.future y).invokerIndex := by
  have hne : y ≠ x := by
    rintro rfl
    exact hx hy
  rw [update_of_ne hne]

/-- A task comes to the front, with an index one below that of the front. -/
theorem Positioned.cons {r : SharedFuture} (h : s.Positioned) (hx : some x ∉ s.invokerQueue)
    (hindex : s.invokerQueue ≠ [] → r.invokerIndex = s.frontInvokerIndex s.invokerQueue - 1)
    (hqueue : s'.invokerQueue = some x :: s.invokerQueue)
    (hfuture : s'.future = update s.future x r) : s'.Positioned := by
  refine .of_indexed (b := r.invokerIndex) (by simp [hqueue]) ?_
  rw [hqueue, hfuture]
  refine indexed_cons.mpr ⟨fun y hy ↦ ?_, ?_⟩
  · cases hy
    rw [update_self]
  · have hkeep := h.position.congr (invokerIndex_of_not_mem hx r)
    by_cases hq : s.invokerQueue = []
    · rw [hq]
      exact .nil
    · rwa [hindex hq, Int.sub_add_cancel]

theorem DequeInv.pushBack (h : DequeInv n s) (hinv : Inv n s) (ht : t < n)
    (hst : s.thread t = .push x :: fs) (hlast : s.invokerQueue.getLast? ≠ some none)
    (hs : s.pushBack n t x fs = some s') : DequeInv n s' := by
  obtain ⟨hfree, rfl⟩ := ite_some_iff.mp hs
  obtain ⟨hfs, hothers⟩ := h.others ht hst (.inl hfree)
  have hx : some x ∉ s.invokerQueue := hinv.not_mem_of_role ht (hst ▸ mem_cons_self) mem_cons_self
  have hkeep := invokerIndex_of_not_mem (s := s) hx
    { s.future x with invokerIndex := s.backInvokerIndex + 1 }
  refine .of_released ht hothers rfl hfs ?_
  by_cases hq : s.invokerQueue = []
  · refine .of_indexed (b := s.backInvokerIndex + 1) (by simp [hq]) ?_
    simp only [hq]
    refine indexed_cons.mpr ⟨fun y hy ↦ ?_, .nil⟩
    cases hy
    exact invokerIndex_update_self ..
  · refine .of_indexed (b := s.frontInvokerIndex s.invokerQueue) ?_ ?_
    · rw [head?_append_of_ne_nil _ hq]
      exact h.deque.front
    · refine indexed_append.mpr ⟨h.deque.position.congr hkeep, indexed_cons.mpr ⟨?_, .nil⟩⟩
      rintro y hy
      cases hy
      exact (invokerIndex_update_self ..).trans (h.deque.backInvokerIndex_eq hq hlast)

theorem DequeInv.pushFront (h : DequeInv n s) (hinv : Inv n s) (ht : t < n)
    (hst : s.thread t = .pushFront x :: fs) (hs : s.pushFront n t x fs = some s') :
    DequeInv n s' := by
  obtain ⟨hfree, rfl⟩ := ite_some_iff.mp hs
  obtain ⟨hfs, hothers⟩ := h.others ht hst (.inl hfree)
  have hx : some x ∉ s.invokerQueue := hinv.not_mem_of_role ht (hst ▸ mem_cons_self) mem_cons_self
  exact .of_released ht hothers rfl hfs (h.deque.cons hx (fun hq ↦ if_neg hq) rfl rfl)

theorem DequeInv.tryInvokeLock (h : DequeInv n s) (ht : t < n)
    (hst : s.thread t = .tryInvokeLock x :: fs) (hs : s.tryInvokeLock n t x fs = some s') :
    DequeInv n s' := by
  simp only [CallbackQueue.tryInvokeLock, ite_some_iff, h.deque.popFrontNullptr_eq] at hs
  obtain ⟨hfree, rfl⟩ := hs
  obtain ⟨hfs, hothers⟩ := h.others ht hst (.inl hfree)
  have hdeque : s.Positioned := h.deque
  split
  · exact .of_released ht hothers rfl ((mutexFrames_returnFalse fs).trans hfs) ⟨hdeque.1, hdeque.2⟩
  · have hstack : mutexFrames (.tryInvokeLocked x :: fs) = [.tryInvokeLocked x] :=
      congrArg (cons _) hfs
    exact .of_top ht hothers rfl (by simp [hstack]) (by simp [hstack]) ⟨hdeque.1, hdeque.2⟩

/-- The place of a task is not behind the end of the deque, and a hole there leaves the
others. -/
theorem Positioned.takeAt (h : s.Positioned) (i : Nat)
    (hqueue : s'.invokerQueue = takeAt s.invokerQueue i)
    (hindex : ∀ y, (s'.future y).invokerIndex = (s.future y).invokerIndex) : s'.Positioned := by
  unfold CallbackQueue.takeAt at hqueue
  split at hqueue
  · obtain ⟨base, hbase⟩ := indexed_tail h.position
    refine .of_indexed (b := base) (hqueue ▸ head?_popFrontNullptr _) ?_
    rw [hqueue]
    exact hbase.congr fun y _ ↦ hindex y
  next hi =>
    refine .of_indexed (b := s.frontInvokerIndex s.invokerQueue) ?_ ?_
    · rw [hqueue, head?_eq_getElem?, getElem?_set_ne hi, ← head?_eq_getElem?]
      exact h.front
    · rw [hqueue]
      exact (h.position.set_none i).congr fun y _ ↦ hindex y

theorem DequeInv.tryInvokeLocked (h : DequeInv n s) (ht : t < n)
    (hst : s.thread t = .tryInvokeLocked x :: fs) (hs : s.tryInvokeLocked n t x fs = some s') :
    DequeInv n s' := by
  simp only [CallbackQueue.tryInvokeLocked, Option.ite_none_right_eq_some] at hs
  obtain ⟨-, hs⟩ := hs
  obtain ⟨hfs, hothers⟩ := h.others ht hst (.inr rfl)
  split at hs
  · cases hs
    exact .of_released ht hothers rfl hfs (h.deque.takeAt _ rfl fun y ↦ invokerIndex_setStatus _ y)
  · cases hs
    exact .of_released ht hothers rfl ((mutexFrames_returnFalse fs).trans hfs)
      ⟨h.deque.1, h.deque.2⟩

theorem DequeInv.launch (h : DequeInv n s) (ht : t < n) {ds : List Nat}
    (hst : s.thread t = .launch ds :: fs) (hs : s.launch n t ds fs = some s') :
    DequeInv n s' := by
  simp only [CallbackQueue.launch, ite_some_iff, h.deque.popFrontNullptr_eq] at hs
  obtain ⟨hfree, rfl⟩ := hs
  obtain ⟨hfs, hothers⟩ := h.others ht hst (.inl hfree)
  refine .of_top ht hothers rfl ?_ ?_ ⟨h.deque.1, h.deque.2⟩
  · exact (congrArg (fun l ↦ length l + 1) hfs).le
  · intro index ds' hmem hq
    rw [mutexFrames, filter_cons_of_pos rfl, ← mutexFrames, hfs, mem_singleton] at hmem
    cases hmem
    exact if_neg hq

theorem DequeInv.launching (h : DequeInv n s) (hinv : Inv n s) (ht : t < n) {index : Int}
    {ds : List Nat} (hst : s.thread t = .launching index ds :: fs)
    (hs : s.launching n t index fs ds = some s') : DequeInv n s' := by
  obtain ⟨hfs, hothers⟩ := h.others ht hst (.inr rfl)
  cases ds with
  | nil =>
    cases hs
    exact .of_released ht hothers rfl hfs ⟨h.deque.1, h.deque.2⟩
  | cons d ds =>
    obtain ⟨-, rfl⟩ := ite_some_iff.mp hs
    have hd : some d ∉ s.invokerQueue := hinv.not_mem_of_role ht (hst ▸ mem_cons_self) mem_cons_self
    have hindex : s.invokerQueue ≠ [] →
        index - 1 = s.frontInvokerIndex s.invokerQueue - 1 := fun hq ↦ by
      have hmem : QueueFrame.launching index (d :: ds) ∈ held mutexFrames n s.thread := by
        refine mem_held.mpr ⟨t, ht, ?_⟩
        rw [hst]
        exact mem_filter.mpr ⟨mem_cons_self, rfl⟩
      rw [h.launchIndex index _ hmem hq]
    refine .of_top ht hothers rfl ?_ ?_ (h.deque.cons hd hindex rfl rfl)
    · exact (congrArg (fun l ↦ length l + 1) hfs).le
    · intro index' ds' hmem _
      rw [mutexFrames, filter_cons_of_pos rfl, ← mutexFrames, hfs, mem_singleton] at hmem
      cases hmem
      exact (invokerIndex_update_self s.future d
        { s.future d with invokerIndex := index - 1, status := .enqueued }).symm

/-! ## Runs -/

/-- A task that `push` appends comes behind a task: the last element of the deque is no
hole. -/
def appendsBehindTask (s : CallbackQueue) (l : QueueStep) : Bool :=
  match l.action, s.thread l.thread with
  | .advance, .push _ :: _ => s.invokerQueue.getLast? ≠ some none
  | _, _ => true

theorem DequeInv.advance (h : DequeInv n s) (hinv : Inv n s) (ht : t < n)
    (hst : s.thread t = f :: fs) (hf : wantsMutex f = true ∨ holdsMutex f = true)
    (hlast : appendsBehindTask s ⟨t, .advance⟩ = true) (hs : s.advance n t fs f = some s') :
    DequeInv n s' := by
  cases f with
  | loop => exact h.pop ht hst hs
  | push x =>
    refine h.pushBack hinv ht hst ?_ hs
    simpa [appendsBehindTask, hst] using hlast
  | pushFront x => exact h.pushFront hinv ht hst hs
  | tryInvokeLock x => exact h.tryInvokeLock ht hst hs
  | tryInvokeLocked x => exact h.tryInvokeLocked ht hst hs
  | launch ds => exact h.launch ht hst hs
  | launching index ds => exact h.launching hinv ht hst hs
  | _ => simp [wantsMutex, holdsMutex] at hf

theorem DequeInv.step (h : DequeInv n s) (hinv : Inv n s) {l : QueueStep}
    (hlast : appendsBehindTask s l = true) (hs : s.step n l = some s') : DequeInv n s' := by
  obtain ⟨t, action⟩ := l
  have hs' := hs
  obtain ⟨ht, hs'⟩ := Option.ite_none_right_eq_some.mp hs'
  split at hs'
  · cases hs'
  next f fs hst =>
    by_cases hf : TouchesDeque f action
    · obtain ⟨rfl, hf⟩ := hf
      exact h.advance hinv ht hst hf hlast hs'
    · exact h.of_quiet hinv ht hst (.of_step hst hs hf)

theorem DequeInv.start (n workers : Nat) : DequeInv n (start workers) := by
  have hnil : held mutexFrames n (CallbackQueue.start workers).thread = [] := by
    refine flatMap_eq_nil_iff.mpr fun t _ ↦ ?_
    simp only [CallbackQueue.start]
    split <;> rfl
  exact ⟨.of_indexed (b := 0) (by simp [CallbackQueue.start]) .nil, by simp [hnil], by simp [hnil]⟩

/-- A call of `try_invoke` whose task is in the deque takes it: it goes on from the unlocked
check to the lock of `mutex_`, nothing changes the deque under it, and then the task leaves the
deque and its function is called. -/
structure TryInvokeTakes (n : Nat) (s : CallbackQueue) : Prop where
  check : ∀ t < n, ∀ x fs, s.thread t = .tryInvoke x :: fs → some x ∈ s.invokerQueue →
    s.step n ⟨t, .advance⟩ = some (s.setStack t (.tryInvokeLock x :: fs))
  lock : ∀ t < n, ∀ x fs, s.thread t = .tryInvokeLock x :: fs → some x ∈ s.invokerQueue →
    s.mutexFree n = true → s.step n ⟨t, .advance⟩ = some (s.setStack t (.tryInvokeLocked x :: fs))
  undisturbed : ∀ t < n, ∀ x fs, s.thread t = .tryInvokeLocked x :: fs →
    ∀ l s', l.thread ≠ t → s.step n l = some s' →
      s'.thread t = s.thread t ∧ s'.invokerQueue = s.invokerQueue
  locked : ∀ t < n, ∀ x fs, s.thread t = .tryInvokeLocked x :: fs → some x ∈ s.invokerQueue →
    ∃ s', s.step n ⟨t, .advance⟩ = some s' ∧ s'.thread t = .invoke x :: fs ∧
      some x ∉ s'.invokerQueue

theorem step_advance (ht : t < n) (hst : s.thread t = f :: fs) :
    s.step n ⟨t, .advance⟩ = s.advance n t fs f := by
  simp [step, ht, hst]

/-- A frame takes `mutex_` only when it is free. -/
theorem mutexFree_of_advance (hf : wantsMutex f = true) (hs : s.advance n t fs f = some s') :
    s.mutexFree n = true := by
  cases f with
  | loop =>
    simp only [advance, pop, Option.ite_none_right_eq_some] at hs
    exact hs.1.1
  | push x | pushFront x | tryInvokeLock x | launch ds =>
    simp only [advance, pushBack, pushFront,
      tryInvokeLock, launch, Option.ite_none_right_eq_some] at hs
    exact hs.1
  | _ => cases hf

/-- The other threads leave the deque while `mutex_` is held. -/
theorem DequeInv.undisturbed (h : DequeInv n s) (ht : t < n) (hst : s.thread t = f :: fs)
    (hf : holdsMutex f = true) {l : QueueStep} (hne : l.thread ≠ t) (hs : s.step n l = some s') :
    s'.thread t = s.thread t ∧ s'.invokerQueue = s.invokerQueue := by
  obtain ⟨u, action⟩ := l
  have hs' := hs
  obtain ⟨hu, hs'⟩ := Option.ite_none_right_eq_some.mp hs'
  split at hs'
  · cases hs'
  next g gs hgs =>
    have hg : ¬TouchesDeque g action := by
      rintro ⟨rfl, hg⟩
      have hor : s.mutexFree n = true ∨ holdsMutex g = true :=
        hg.imp_left fun hw ↦ mutexFree_of_advance hw hs'
      -- The other thread would be the only one at `mutex_`.
      have hmem : f ∈ heldRest mutexFrames n s.thread u := by
        refine mem_flatMap.mpr ⟨t, ?_, ?_⟩
        · exact (mem_erase_of_ne hne.symm).mpr (mem_range.mpr ht)
        · rw [hst]
          exact mem_filter.mpr ⟨mem_cons_self, hf⟩
      rw [(h.others hu hgs hor).2] at hmem
      exact not_mem_nil hmem
    obtain ⟨⟨stack, hthread, -⟩, hqueue, -⟩ := Quiet.of_step hgs hs hg
    exact ⟨by rw [hthread, update_of_ne hne.symm], hqueue⟩

/-- The frame that holds the mutex of a future is responsible for it. -/
theorem exists_role_of_holdsFuture (h : s.holdsFuture x f = true) :
    ∃ role, (x, role) ∈ frameRoles f ∧ (role = .inBody ∨ role = .signalling ∨ role = .queued) := by
  cases f with
  | body y =>
    simp only [holdsFuture, Bool.and_eq_true, beq_iff_eq] at h
    exact ⟨.inBody, h.1 ▸ mem_cons_self, .inl rfl⟩
  | signalling y ds =>
    simp only [holdsFuture, beq_iff_eq] at h
    exact ⟨.signalling, h ▸ mem_cons_self, .inr (.inl rfl)⟩
  | pushFront y =>
    simp only [holdsFuture, beq_iff_eq] at h
    exact ⟨.queued, h ▸ mem_cons_self, .inr (.inr rfl)⟩
  | _ => cases h

/-- The mutex of a task in the deque is free. -/
theorem Inv.futureFree_of_mem (h : Inv n s) (hx : some x ∈ s.invokerQueue) :
    s.futureFree n x = true := by
  refine all_eq_true.mpr fun u hu ↦ ?_
  simp only [Bool.not_eq_true', any_eq_false]
  intro g hg hholds
  obtain ⟨role, hrole, -⟩ := exists_role_of_holdsFuture hholds
  exact h.not_mem_of_role (mem_range.mp hu) hg hrole hx

/-- No task is in the deque twice. -/
theorem Inv.not_mem_takeAt (h : Inv n s) {i : Nat} (hi : s.invokerQueue[i]? = some (some x)) :
    some x ∉ takeAt s.invokerQueue i := by
  intro hmem
  have hnodup := h.ledger.nodup
  simp only [CallbackQueue.ledger, map_append] at hnodup
  have hqueue := ((queueRoles_takeAt hi).map Prod.fst).nodup_iff.mp (nodup_append.mp hnodup).1
  refine (nodup_cons.mp hqueue).1 (mem_map_of_mem ?_)
  exact mem_filterMap.mpr ⟨some x, hmem, rfl⟩

theorem DequeInv.tryInvokeTakes (h : DequeInv n s) (hinv : Inv n s) : s.TryInvokeTakes n where
  check t ht x fs hst hx := by
    have hs : (s.future x).status = .enqueued :=
      hinv.enqueued_of_mem (mem_filterMap.mpr ⟨some x, hx, rfl⟩)
    rw [step_advance ht hst]
    simp only [CallbackQueue.advance, if_pos hs]
  lock t ht x fs hst hx hfree := by
    rw [step_advance ht hst]
    simp only [CallbackQueue.advance, CallbackQueue.tryInvokeLock, hfree,
      h.deque.popFrontNullptr_eq, ne_nil_of_mem hx]
    rfl
  undisturbed t ht x fs hst l s' hne hs := h.undisturbed ht hst rfl hne hs
  locked t ht x fs hst hx := by
    obtain ⟨p, hp⟩ := getElem?_of_mem hx
    have hlt : p < s.invokerQueue.length := (List.getElem?_eq_some_iff.mp hp).1
    have hindex : (s.future x).invokerIndex - s.frontInvokerIndex s.invokerQueue = p := by
      have hposition : (s.future x).invokerIndex = _ + (p : Int) := h.deque.position p x hp
      omega
    have hs : (s.future x).status = .enqueued :=
      hinv.enqueued_of_mem (mem_filterMap.mpr ⟨some x, hx, rfl⟩)
    refine ⟨{ (s.setStatus x .running).setStack t (.invoke x :: fs) with
      invokerQueue := takeAt s.invokerQueue p }, ?_, ?_, hinv.not_mem_takeAt hp⟩
    · rw [step_advance ht hst]
      simp only [CallbackQueue.advance, CallbackQueue.tryInvokeLocked,
        hinv.futureFree_of_mem hx, hindex, hs, Int.toNat_natCast, hp, Int.natCast_nonneg,
        Int.ofNat_lt, hlt, and_self, if_true]
    · exact update_self ..

/-- While `push` appends behind a task, in every state that the queue reaches, with any number
of threads and any interleaving: each task is at the position that its index gives, and
`try_invoke` takes a task that is in the deque. -/
theorem positioned_and_taken (n workers : Nat) (s : CallbackQueue)
    (h : ((system n workers).restrict fun s l ↦ appendsBehindTask s l = true).Reachable s) :
    s.Positioned ∧ s.TryInvokeTakes n := by
  have hinv : Inv n s ∧ DequeInv n s := by
    refine h.invariant (I := fun s ↦ Inv n s ∧ DequeInv n s) ?_ ?_
    · rintro s rfl
      exact ⟨.start n workers, .start n workers⟩
    · rintro s l t ⟨hinv, hdeque⟩ ⟨hstep, hlast⟩
      exact ⟨hinv.step hstep, hdeque.step hinv hlast hstep⟩
  exact ⟨hinv.2.deque, hinv.2.tryInvokeTakes hinv.1⟩

/-- A task of the only worker pushes two tasks and waits for the second, which it takes from
the back of the deque. -/
def waitForBack : List QueueStep :=
  [⟨1, .push false⟩, ⟨1, .advance⟩, ⟨0, .advance⟩, ⟨0, .advance⟩, ⟨0, .push false⟩, ⟨0, .advance⟩,
    ⟨0, .push false⟩, ⟨0, .advance⟩, ⟨0, .wait [2]⟩, ⟨0, .advance⟩, ⟨0, .advance⟩, ⟨0, .advance⟩]

/-- Then it pushes a third task and waits for that one. -/
def waitForPushed : List QueueStep :=
  waitForBack ++ [⟨0, .advance⟩, ⟨0, .advance⟩, ⟨0, .finish⟩, ⟨0, .advance⟩, ⟨0, .advance⟩,
    ⟨0, .advance⟩, ⟨0, .push false⟩, ⟨0, .advance⟩, ⟨0, .wait [3]⟩, ⟨0, .advance⟩, ⟨0, .advance⟩,
    ⟨0, .advance⟩]

/-- The second of two tasks is found at the back. -/
theorem back_taken : ∃ s,
    ((system 2 1).restrict fun s l ↦ appendsBehindTask s l = true).Reachable s ∧
      s.invokerQueue = [some 1, some 2] ∧ s.Positioned ∧ s.TryInvokeTakes 2 := by
  let step s l := if appendsBehindTask s l then step 2 s l else none
  let s := (waitForBack.foldlM step (start 1)).get rfl
  have hs : ((system 2 1).restrict fun s l ↦ appendsBehindTask s l = true).Reachable s := by
    refine ⟨_, waitForBack, rfl, .of_foldlM (fun s l t h ↦ ?_) (Option.some_get _).symm⟩
    obtain ⟨hlast, hstep⟩ := Option.ite_none_right_eq_some.mp h
    exact ⟨hstep, hlast⟩
  exact ⟨s, hs, rfl, positioned_and_taken 2 1 s hs⟩

/-- The third task comes behind the hole at the back with the index of the hole, and
`try_invoke` does not find it. -/
theorem pushed_behind_hole_missed :
    ∃ s, (system 2 1).Reachable s ∧ ¬s.Positioned ∧ ¬s.TryInvokeTakes 2 := by
  let s := (waitForPushed.foldlM (step 2) (start 1)).get rfl
  have hs : (system 2 1).Reachable s :=
    ⟨_, waitForPushed, rfl, .of_foldlM (fun _ _ _ h ↦ h) (Option.some_get _).symm⟩
  refine ⟨s, hs, fun h ↦ ?_, fun h ↦ ?_⟩
  · exact absurd (h.position 2 3 rfl) (by decide)
  · obtain ⟨s', hstep, hthread, -⟩ := h.locked 0 (by decide) 3 _ rfl (by decide)
    have hnext := congrArg (Option.map fun s' ↦ s'.thread 0) hstep
    rw [Option.map_some, hthread] at hnext
    exact absurd hnext (by decide)

end Hisab.Parallel.CallbackQueue
