import Hisab.Parallel.VoidTaskQueue

/-!
# The task queue with results

`threaded_task_queue<R, Args...>` (`threaded_task_queue.h:255–422`), whose API is called from
one thread, its client. A worker takes a task, runs it, and puts the result into a heap
ordered by task id, from which the client pops. `flush` is the client popping until the queue
is empty.

The heap is a list sorted by id. A wait on the results' condition variable is a loop: the
predicate is checked under the lock, a client that finds it false blocks, and a notification
(or a spurious wake-up) takes it back to the check.
-/

namespace Hisab.Parallel

open Base Function

/-- `result_queue` (`threaded_task_queue.h:256–323`); the top of the heap is the head. -/
structure ResultQueue (R : Type) where
  results : List (Nat × R) := []
  nextResultId : Nat := 0
  strictOrdering : Bool
deriving Repr, DecidableEq

namespace ResultQueue

variable {R : Type}

/-- Insertion into the heap. -/
def insertById (p : Nat × R) : List (Nat × R) → List (Nat × R)
  | [] => [p]
  | q :: qs => if p.1 < q.1 then p :: q :: qs else q :: insertById p qs

/-- `push` (`threaded_task_queue.h:265–274`); a result older than one popped is dropped. -/
def push (q : ResultQueue R) (id : Nat) (result : R) : ResultQueue R :=
  if q.nextResultId ≤ id then { q with results := insertById (id, result) q.results } else q

/-- The predicate of the wait in `pop` (`threaded_task_queue.h:298–302`). -/
def ready (q : ResultQueue R) : Bool :=
  match q.results with
  | [] => false
  | top :: _ => !q.strictOrdering || top.1 == q.nextResultId

/-- `try_pop` (`threaded_task_queue.h:276–291`). -/
def tryPop (q : ResultQueue R) : Option ((Nat × R) × ResultQueue R) :=
  match q.results with
  | [] => none
  | top :: rest =>
    if q.strictOrdering ∧ top.1 ≠ q.nextResultId then none
    else some (top, { q with results := rest, nextResultId := top.1 + 1 })

end ResultQueue

/-- Where a worker stands in its loop (`threaded_task_queue.h:343–359`); it notifies after it
has put its result into the heap. -/
inductive ResultWorker (T R : Type)
  | waiting
  | running (id : Nat) (task : T)
  | ran (id : Nat) (result : R)
  | notifying
  | exited
deriving Repr, DecidableEq

/-- What the client does: nothing, wait in `pop`, or destroy the queue. -/
inductive ResultClient
  | idle
  | checking
  | blocked
  | popping
  | destroying
deriving Repr, DecidableEq

/-- The queue, its workers and its client. `pushed` and `popped` record the arguments pushed
and the results popped, with their ids; no step reads them. -/
structure ResultTaskQueue (T R : Type) where
  tasks : TaskQueue T
  results : ResultQueue R
  worker : Nat → ResultWorker T R := fun _ ↦ .waiting
  client : ResultClient := .idle
  pushed : List T := []
  popped : List (Nat × R) := []

/-- The steps: calls of the client, and the locked regions of a worker. -/
inductive ResultStep (T : Type)
  | push (task : T)
  | isEmpty (answer : Bool)
  | tryPop
  | popEmpty
  | popCall
  | popCheck
  | wake
  | popReturn
  | destroy
  | pop (i : Nat)
  | finish (i : Nat)
  | deliver (i : Nat)
  | notify (i : Nat)
  | exit (i : Nat)
deriving Repr, DecidableEq

namespace ResultTaskQueue

variable {T R : Type}

/-- The constructor (`threaded_task_queue.h:329–341`). -/
def create (strictOrdering : Bool) (bufferSize : Int) : ResultTaskQueue T R where
  tasks := { bufferSize := max 0 (if strictOrdering then 0 else bufferSize) }
  results := { strictOrdering := strictOrdering }

/-- `is_empty` (`threaded_task_queue.h:407–410`). -/
def isEmpty (s : ResultTaskQueue T R) : Bool := s.results.nextResultId == s.tasks.nextTaskId

/-- `result_queue::try_pop` called by the client. -/
def clientPop (s : ResultTaskQueue T R) : ResultTaskQueue T R :=
  match s.results.tryPop with
  | none => { s with client := .idle }
  | some (p, results) => { s with client := .idle, results := results, popped := s.popped ++ [p] }

/-- A notification, or a spurious wake-up: a blocked client goes back to its check. -/
def wakeClient (s : ResultTaskQueue T R) : ResultTaskQueue T R :=
  match s.client with
  | .blocked => { s with client := .checking }
  | _ => s

/-- One step of a queue whose tasks are run by `run` on the given number of threads; `none`
when it is not enabled. -/
def step (run : T → R) (threads : Nat) (s : ResultTaskQueue T R) :
    ResultStep T → Option (ResultTaskQueue T R)
  | .push task =>
    if s.client = .idle then
      some { s with tasks := s.tasks.push task, pushed := s.pushed ++ [task] }
    else none
  | .isEmpty answer => if s.client = .idle ∧ s.isEmpty = answer then some s else none
  | .tryPop => if s.client = .idle then some s.clientPop else none
  | .popEmpty => if s.client = .idle ∧ s.isEmpty then some s else none
  | .popCall => if s.client = .idle ∧ !s.isEmpty then some { s with client := .checking } else none
  | .popCheck =>
    if s.client = .checking then
      some { s with client := if s.results.ready then .popping else .blocked }
    else none
  | .wake => if s.client = .blocked then some s.wakeClient else none
  | .popReturn => if s.client = .popping then some s.clientPop else none
  | .destroy =>
    if s.client = .idle then some { s with client := .destroying, tasks := s.tasks.markDone }
    else none
  | .pop i =>
    match s.worker i with
    | .waiting =>
      if i < threads then
        s.tasks.pop.map fun r ↦
          { s with tasks := r.2, worker := update s.worker i (.running r.1.1 r.1.2) }
      else none
    | _ => none
  | .finish i =>
    match s.worker i with
    | .running id task => some { s with worker := update s.worker i (.ran id (run task)) }
    | _ => none
  | .deliver i =>
    match s.worker i with
    | .ran id result =>
      some { s with
        worker := update s.worker i .notifying
        results := s.results.push id result }
    | _ => none
  | .notify i =>
    match s.worker i with
    | .notifying => some { s.wakeClient with worker := update s.worker i .waiting }
    | _ => none
  | .exit i =>
    match s.worker i with
    | .waiting =>
      if i < threads ∧ s.tasks.done ∧ s.tasks.tasks.isEmpty then
        some { s with worker := update s.worker i .exited }
      else none
    | _ => none

/-- The queue and its runs. -/
def system (run : T → R) (threads : Nat) (strictOrdering : Bool)
    (bufferSize : Int) : TransitionSystem (ResultTaskQueue T R) (ResultStep T) where
  init s := s = create strictOrdering bufferSize
  step s l t := s.step run threads l = some t

end ResultTaskQueue
end Hisab.Parallel
