import Hisab.Base.ThreadTable
import Hisab.Base.TransitionSystem

/-!
# The task FIFO of a threaded task queue

`threaded_task_queue_internals::task_queue` (`threaded_task_queue.h:190–252`): tasks numbered
in the order they are pushed, and, with a positive buffer size, dropped from the front once
there are too many. The ids are 64-bit counters of the calls made and are modelled by `Nat`;
the cast of the length to `int` is explicit.
-/

namespace Hisab.Parallel

/-- `static_cast<int>` of a size. -/
def toInt32 (n : Nat) : Int := Int.bmod n (2 ^ 32)

/-- `task_queue`; a task of type `T` is queued with its id. -/
structure TaskQueue (T : Type) where
  done : Bool := false
  bufferSize : Int
  nextTaskId : Nat := 0
  tasks : List (Nat × T) := []
deriving Repr, DecidableEq

namespace TaskQueue

variable {T : Type}

/-- The loop that drops the oldest tasks (`threaded_task_queue.h:219–222`). -/
def dropOldest (bufferSize : Int) : List (Nat × T) → List (Nat × T)
  | [] => []
  | t :: ts =>
    if 0 < bufferSize ∧ bufferSize < toInt32 (ts.length + 1) then dropOldest bufferSize ts
    else t :: ts

/-- `push` (`threaded_task_queue.h:209–225`). -/
def push (q : TaskQueue T) (task : T) : TaskQueue T :=
  if q.done then q
  else
    { q with
      nextTaskId := q.nextTaskId + 1
      tasks := dropOldest q.bufferSize (q.tasks ++ [(q.nextTaskId, task)]) }

/-- `mark_done` (`threaded_task_queue.h:198–205`). -/
def markDone (q : TaskQueue T) : TaskQueue T := { q with done := true }

/-- What `pop` takes under the lock (`threaded_task_queue.h:229–241`); `none` when nothing is
queued. -/
def pop (q : TaskQueue T) : Option ((Nat × T) × TaskQueue T) :=
  match q.tasks with
  | [] => none
  | t :: ts => some (t, { q with tasks := ts })

/-- Dropping leaves a suffix. -/
theorem dropOldest_suffix (bufferSize : Int) (l : List (Nat × T)) :
    dropOldest bufferSize l <:+ l := by
  induction l with
  | nil => exact List.suffix_refl _
  | cons t ts ih =>
    rw [dropOldest]
    split
    · exact ih.trans (List.suffix_cons t ts)
    · exact List.suffix_refl _

/-- Without a positive buffer size nothing is dropped. -/
theorem dropOldest_of_nonpos {bufferSize : Int} (h : bufferSize ≤ 0) (l : List (Nat × T)) :
    dropOldest bufferSize l = l := by
  cases l with
  | nil => rfl
  | cons t ts => rw [dropOldest, if_neg (by omega)]

/-- The task pushed last is never dropped. -/
theorem mem_dropOldest_last (bufferSize : Int) (l : List (Nat × T)) (t : Nat × T) :
    t ∈ dropOldest bufferSize (l ++ [t]) := by
  induction l with
  | nil =>
    have hone : toInt32 1 = 1 := by decide
    rw [List.nil_append, dropOldest, if_neg (by simp only [List.length_nil, hone]; omega)]
    exact List.mem_cons_self
  | cons s l ih =>
    rw [List.cons_append, dropOldest]
    split
    · exact ih
    · exact List.mem_cons_of_mem _ (by simp)

end TaskQueue
end Hisab.Parallel

/-!
## The task queue without results

`threaded_task_queue<void, Args...>` (`threaded_task_queue.h:429–511`), whose API is called
from one thread, its client. What has finished is published as one number, the largest id
that finished plus one, and the queue counts as empty when that number is the number of
tasks pushed.
-/

namespace Hisab.Parallel

open Base Function TaskQueue

/-- Where a worker stands in its loop (`threaded_task_queue.h:443–466`). -/
inductive VoidWorker (T : Type)
  | waiting
  | running (id : Nat) (task : T)
  | ran (id : Nat)
  | exited
deriving Repr, DecidableEq

/-- What the client does: nothing, wait in `flush`, or destroy the queue. -/
inductive VoidClient
  | idle
  | flushing
  | destroying
deriving Repr, DecidableEq

/-- The queue, its workers and its client. `executed` holds the ids of the tasks whose call
has returned, a record that no step reads. -/
structure VoidTaskQueue (T : Type) where
  tasks : TaskQueue T
  nextResultId : Nat := 0
  worker : Nat → VoidWorker T := fun _ ↦ .waiting
  client : VoidClient := .idle
  executed : List Nat := []

/-- The steps: calls of the client, and the locked regions of a worker. -/
inductive VoidStep (T : Type)
  | push (task : T)
  | isEmpty (answer : Bool)
  | flushAtOnce
  | flushWait
  | flushReturn
  | destroy
  | pop (i : Nat)
  | finish (i : Nat)
  | publish (i : Nat)
  | exit (i : Nat)
deriving Repr, DecidableEq

/-- The step is a `flush` that returns or an `is_empty` that answers yes. -/
def VoidStep.ReportsEmpty {T : Type} : VoidStep T → Prop
  | .isEmpty answer => answer = true
  | .flushAtOnce | .flushReturn => True
  | _ => False

namespace VoidTaskQueue

variable {T : Type} {s t : VoidTaskQueue T} {l : VoidStep T}

/-- The constructor (`threaded_task_queue.h:429–441`). -/
def create (strictOrdering : Bool) (bufferSize : Int) : VoidTaskQueue T where
  tasks := { bufferSize := max 0 (if strictOrdering then 0 else bufferSize) }

/-- `is_empty` (`threaded_task_queue.h:495–498`). -/
def isEmpty (s : VoidTaskQueue T) : Bool := s.nextResultId == s.tasks.nextTaskId

/-- One step of a queue with the given number of worker threads; `none` when it is not
enabled. -/
def step (threads : Nat) (s : VoidTaskQueue T) : VoidStep T → Option (VoidTaskQueue T)
  | .push task => if s.client = .idle then some { s with tasks := s.tasks.push task } else none
  | .isEmpty answer => if s.client = .idle ∧ s.isEmpty = answer then some s else none
  | .flushAtOnce => if s.client = .idle ∧ s.isEmpty then some s else none
  | .flushWait =>
    if s.client = .idle ∧ !s.isEmpty then some { s with client := .flushing } else none
  | .flushReturn =>
    if s.client = .flushing ∧ s.isEmpty then some { s with client := .idle } else none
  | .destroy =>
    if s.client = .idle then some { s with client := .destroying, tasks := s.tasks.markDone }
    else none
  | .pop i =>
    match s.worker i with
    | .waiting =>
      if i < threads then
        s.tasks.pop.map fun r ↦
          { s with tasks := r.2, worker := update s.worker i (.running r.1.1 r.1.2) }
      else none
    | _ => none
  | .finish i =>
    match s.worker i with
    | .running id _ =>
      some { s with
        worker := update s.worker i (.ran id)
        executed := id :: s.executed }
    | _ => none
  | .publish i =>
    match s.worker i with
    | .ran id =>
      some { s with
        worker := update s.worker i .waiting
        nextResultId := max s.nextResultId (id + 1) }
    | _ => none
  | .exit i =>
    match s.worker i with
    | .waiting =>
      if i < threads ∧ s.tasks.done ∧ s.tasks.tasks.isEmpty then
        some { s with worker := update s.worker i .exited }
      else none
    | _ => none

/-- A queue built with `strict_ordering = true` and its runs. -/
def system (T : Type) (threads : Nat) (bufferSize : Int) :
    TransitionSystem (VoidTaskQueue T) (VoidStep T) where
  init s := s = create true bufferSize
  step s l t := s.step threads l = some t

/-- Every task pushed has finished executing. -/
def AllExecuted (s : VoidTaskQueue T) : Prop := ∀ id < s.tasks.nextTaskId, id ∈ s.executed

/-- The result of the task pushed last is published only once every earlier task has
finished. -/
def PublishesInOrder (s : VoidTaskQueue T) (l : VoidStep T) : Prop :=
  ∀ i id, l = .publish i → s.worker i = .ran id → id + 1 = s.tasks.nextTaskId →
    ∀ j < id, j ∈ s.executed

/-! ## The invariant -/

/-- What holds in every state, however the workers interleave. -/
structure Inv (s : VoidTaskQueue T) : Prop where
  published_le : s.nextResultId ≤ s.tasks.nextTaskId
  queued_lt : ∀ t ∈ s.tasks.tasks, t.1 < s.tasks.nextTaskId
  running_lt : ∀ i id task, s.worker i = .running id task → id < s.tasks.nextTaskId
  ran : ∀ i id, s.worker i = .ran id → id < s.tasks.nextTaskId ∧ id ∈ s.executed

theorem Inv.create (bufferSize : Int) : Inv (create true bufferSize : VoidTaskQueue T) := by
  constructor <;> simp [VoidTaskQueue.create]

/-- What a step does to the pushed, the published and the finished ids. -/
inductive Effect (s : VoidTaskQueue T) : VoidStep T → VoidTaskQueue T → Prop
  | client (l : VoidStep T) (c : VoidClient) (done : Bool) (h : ∀ i, l ≠ .publish i) :
      Effect s l { s with client := c, tasks := { s.tasks with done := done } }
  | push (task : T) (h : s.tasks.done = false) :
      Effect s (.push task) { s with tasks := s.tasks.push task }
  | pop (i : Nat) (t : Nat × T) (ts : List (Nat × T)) (h : s.tasks.tasks = t :: ts) :
      Effect s (.pop i) { s with
        tasks := { s.tasks with tasks := ts }
        worker := update s.worker i (.running t.1 t.2) }
  | finish (i id : Nat) (task : T) (h : s.worker i = .running id task) :
      Effect s (.finish i) { s with
        worker := update s.worker i (.ran id)
        executed := id :: s.executed }
  | publish (i id : Nat) (h : s.worker i = .ran id) : Effect s (.publish i) { s with
        worker := update s.worker i .waiting
        nextResultId := max s.nextResultId (id + 1) }
  | exit (i : Nat) : Effect s (.exit i) { s with
        worker := update s.worker i .exited }

theorem step_effect {threads : Nat} (h : s.step threads l = some t) : Effect s l t := by
  cases l with
  | push task =>
    obtain ⟨-, rfl⟩ := ite_some_iff.mp h
    cases hd : s.tasks.done with
    | false => exact .push task hd
    | true =>
      have hpush : s.tasks.push task = s.tasks := by simp [push, hd]
      rw [hpush]
      exact .client _ s.client s.tasks.done (by simp)
  | isEmpty answer | flushAtOnce =>
    obtain ⟨-, rfl⟩ := ite_some_iff.mp h
    exact .client _ s.client s.tasks.done (by simp)
  | flushWait | flushReturn =>
    obtain ⟨-, rfl⟩ := ite_some_iff.mp h
    exact .client _ _ s.tasks.done (by simp)
  | destroy =>
    obtain ⟨-, rfl⟩ := ite_some_iff.mp h
    exact .client _ _ _ (by simp)
  | pop i =>
    simp only [step] at h
    split at h
    · simp only [Option.ite_none_right_eq_some, Option.map_eq_some_iff] at h
      obtain ⟨-, ⟨u, q⟩, hpop, rfl⟩ := h
      simp only [pop] at hpop
      split at hpop
      · cases hpop
      next u' ts hts =>
        cases hpop
        exact .pop i _ _ hts
    · cases h
  | finish i =>
    simp only [step] at h
    split at h
    next id task hw =>
      cases h
      exact .finish i id task hw
    · cases h
  | publish i =>
    simp only [step] at h
    split at h
    next id hw =>
      cases h
      exact .publish i id hw
    · cases h
  | exit i =>
    simp only [step] at h
    split at h
    · obtain ⟨-, rfl⟩ := ite_some_iff.mp h
      exact .exit i
    · cases h

/-- Every step keeps the invariant. -/
theorem Inv.effect (h : Inv s) (he : Effect s l t) : Inv t := by
  cases he with
  | client _ c done => exact ⟨h.published_le, h.queued_lt, h.running_lt, h.ran⟩
  | push task hd =>
    have hnext : (s.tasks.push task).nextTaskId = s.tasks.nextTaskId + 1 := by simp [push, hd]
    refine ⟨?_, fun t ht ↦ ?_, fun i id task' hw ↦ ?_, fun i id hw ↦ ?_⟩
    · have := h.published_le
      dsimp only
      omega
    · have hin : t ∈ s.tasks.tasks ++ [(s.tasks.nextTaskId, task)] := by
        refine (dropOldest_suffix s.tasks.bufferSize _).mem ?_
        simpa [push, hd] using ht
      dsimp only
      rcases List.mem_append.mp hin with hin | hin
      · have := h.queued_lt t hin
        omega
      · rw [List.mem_singleton.mp hin]
        omega
    · have := h.running_lt i id task' hw
      dsimp only
      omega
    · obtain ⟨hlt, hin⟩ := h.ran i id hw
      refine ⟨?_, hin⟩
      dsimp only
      omega
  | pop i t ts hts =>
    refine ⟨h.published_le, fun u hu ↦ ?_, fun j id task hw ↦ ?_, fun j id hw ↦ ?_⟩
    · exact h.queued_lt u (by rw [hts]; exact List.mem_cons_of_mem _ hu)
    · rcases update_eq_cases hw with ⟨_, hw⟩ | ⟨_, hw⟩
      · cases hw
        exact h.queued_lt t (by rw [hts]; exact List.mem_cons_self)
      · exact h.running_lt j id task hw
    · exact h.ran j id (eq_of_update_eq hw (by simp))
  | finish i id task hwi =>
    refine ⟨h.published_le, h.queued_lt, fun j id' task' hw ↦ ?_, fun j id' hw ↦ ?_⟩
    · exact h.running_lt j id' task' (eq_of_update_eq hw (by simp))
    · rcases update_eq_cases hw with ⟨_, hw⟩ | ⟨_, hw⟩
      · cases hw
        exact ⟨h.running_lt i id task hwi, List.mem_cons_self⟩
      · obtain ⟨hlt, hin⟩ := h.ran j id' hw
        exact ⟨hlt, List.mem_cons_of_mem _ hin⟩
  | publish i id hwi =>
    refine ⟨?_, h.queued_lt, fun j id' task hw ↦ ?_, fun j id' hw ↦ ?_⟩
    · have := h.published_le
      have := (h.ran i id hwi).1
      dsimp only
      omega
    · exact h.running_lt j id' task (eq_of_update_eq hw (by simp))
    · exact h.ran j id' (eq_of_update_eq hw (by simp))
  | exit i =>
    refine ⟨h.published_le, h.queued_lt, fun j id task hw ↦ ?_, fun j id hw ↦ ?_⟩
    · exact h.running_lt j id task (eq_of_update_eq hw (by simp))
    · exact h.ran j id (eq_of_update_eq hw (by simp))

/-- Only `publish` needs the condition. -/
private theorem publishesInOrder_of_ne {s : VoidTaskQueue T} (h : ∀ i, l ≠ .publish i) :
    PublishesInOrder s l :=
  fun i _ hl _ _ _ _ ↦ absurd hl (h i)

theorem isEmpty_iff {s : VoidTaskQueue T} :
    s.isEmpty = true ↔ s.nextResultId = s.tasks.nextTaskId := by simp [isEmpty]

/-- From a state in which emptiness is exact, a step keeps it so exactly when it publishes in
order. -/
theorem exact_iff (hs : Inv s) (hexact : s.isEmpty = true → AllExecuted s) (he : Effect s l t) :
    (t.isEmpty = true → AllExecuted t) ↔ PublishesInOrder s l := by
  simp only [isEmpty_iff] at hexact ⊢
  cases he with
  | client _ c done hl => exact iff_of_true hexact (publishesInOrder_of_ne hl)
  | push task hd =>
    refine iff_of_true (fun heq ↦ ?_) (publishesInOrder_of_ne (by simp))
    have := hs.published_le
    simp only [push, hd] at heq
    simp at heq
    omega
  | pop i u ts hts => exact iff_of_true hexact (publishesInOrder_of_ne (by simp))
  | finish i id task hw =>
    exact iff_of_true (fun heq j hj ↦ List.mem_cons_of_mem _ (hexact heq j hj))
      (publishesInOrder_of_ne (by simp))
  | publish i id hw =>
    obtain ⟨hlt, hin⟩ := hs.ran i id hw
    have hle := hs.published_le
    constructor
    · intro h i' id' hl hw' hlast j hj
      cases hl
      rw [hw] at hw'
      cases hw'
      exact h (by dsimp only; omega) j (by dsimp only; omega)
    · intro h heq j hj
      dsimp only at heq hj ⊢
      rcases Nat.lt_or_ge s.nextResultId (id + 1) with hnew | hold
      · have hlast : id + 1 = s.tasks.nextTaskId := by omega
        rcases Nat.lt_succ_iff_lt_or_eq.mp (show j < id + 1 by omega) with hj' | rfl
        · exact h i id rfl hw hlast j hj'
        · exact hin
      · exact hexact (by omega) j hj
  | exit i => exact iff_of_true hexact (publishesInOrder_of_ne (by simp))

/-! ## What an empty queue says -/

/-- A step that reports emptiness starts from an empty queue. -/
theorem isEmpty_of_reportsEmpty {threads : Nat} (h : s.step threads l = some t)
    (hl : l.ReportsEmpty) : s.isEmpty = true := by
  cases l <;> simp only [VoidStep.ReportsEmpty] at hl <;>
    simp only [step, Option.ite_none_right_eq_some] at h
  case isEmpty answer => rw [h.1.2, hl]
  case flushAtOnce => exact h.1.2
  case flushReturn => exact h.1.2

/-- In every run whose steps publish in order, a queue that reports emptiness, by `is_empty`
or by the return of `flush`, has executed every task pushed. The condition is exact: the first
step that breaks it leaves an empty queue with an unfinished task. -/
theorem empty_means_executed (threads : Nat) (bufferSize : Int) (s : VoidTaskQueue T)
    (h : ((system T threads bufferSize).restrict PublishesInOrder).Reachable s) :
    (s.isEmpty = true → AllExecuted s) ∧
    ∀ l t, (system T threads bufferSize).step s l t → (l.ReportsEmpty → AllExecuted s) ∧
      ((t.isEmpty = true → AllExecuted t) ↔ PublishesInOrder s l) := by
  have hinv : Inv s ∧ (s.isEmpty = true → AllExecuted s) := by
    refine h.invariant (I := fun s ↦ Inv s ∧ (s.isEmpty = true → AllExecuted s)) ?_ ?_
    · rintro s rfl
      exact ⟨.create bufferSize, fun _ id hid ↦ absurd hid (Nat.not_lt_zero id)⟩
    · rintro s l t ⟨hi, he⟩ ⟨hstep, hl⟩
      exact ⟨hi.effect (step_effect hstep), (exact_iff hi he (step_effect hstep)).mpr hl⟩
  refine ⟨hinv.2, fun l t hstep ↦ ⟨fun hl ↦ hinv.2 (isEmpty_of_reportsEmpty hstep hl), ?_⟩⟩
  exact exact_iff hinv.1 hinv.2 (step_effect hstep)

/-- Two workers take a task each, and the later task finishes first. -/
def overtaking : List (VoidStep Unit) := [.push (), .push (), .pop 0, .pop 1, .finish 1, .publish 1]

/-- After the overtaking run `flush` returns at once, and task `0` is still running. -/
theorem flush_returns_early : ¬∀ (threads : Nat) (bufferSize : Int) (s t : VoidTaskQueue Unit)
    (l : VoidStep Unit), (system Unit threads bufferSize).Reachable s →
      (system Unit threads bufferSize).step s l t → l.ReportsEmpty → AllExecuted s := by
  intro hall
  let start : VoidTaskQueue Unit := create true (-1)
  let s := (overtaking.foldlM (step 2) start).get rfl
  have hs : (system Unit 2 (-1)).Reachable s :=
    ⟨start, overtaking, rfl, .of_foldlM (fun _ _ _ h ↦ h) (Option.some_get _).symm⟩
  have h0 := hall 2 (-1) s s .flushAtOnce hs rfl trivial 0 (by decide)
  exact absurd h0 (by decide)

/-- One worker runs the one task pushed, and then `flush` returns. -/
theorem one_task_executed : ∃ s, ((system Unit 1 (-1)).restrict PublishesInOrder).Reachable s ∧
    s.tasks.nextTaskId = 1 ∧ AllExecuted s := by
  let start : VoidTaskQueue Unit := create true (-1)
  let s := ([.push (), .pop 0, .finish 0, .publish 0].foldlM (step 1) start).get rfl
  have hs : ((system Unit 1 (-1)).restrict PublishesInOrder).Reachable s := by
    refine ⟨start, [.push (), .pop 0, .finish 0, .publish 0], rfl,
      .cons ⟨rfl, publishesInOrder_of_ne (by simp)⟩ (.cons ⟨rfl, publishesInOrder_of_ne (by simp)⟩
        (.cons ⟨rfl, publishesInOrder_of_ne (by simp)⟩ (.cons ⟨rfl, ?_⟩ (.nil _))))⟩
    rintro i id hl hw - j hj
    cases hl
    cases hw
    exact absurd hj (Nat.not_lt_zero j)
  exact ⟨s, hs, rfl, (empty_means_executed 1 (-1) s hs).1 rfl⟩

end VoidTaskQueue
end Hisab.Parallel
