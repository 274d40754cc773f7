import Hisab.Parallel.CallbackIndex

/-!
# The threads of the callback queue

`CallbackQueue` with its worker threads (`threaded_callback_queue.cpp:25–210`): the stages of
`thread_worker::pop` under `mutex_`, the function of `set_number_of_threads`, which starts and
joins workers under `destroy_mutex_`, and the destructor. Of `n` threads the first `clients` are
outside; the constructor is a first call of `set_number_of_threads` by one of them. The next
thread never runs, and the others are workers once they are started. A negative number of threads
is left out, as `threads_.begin()` is not moved back.
-/

namespace Hisab.Parallel

open Base Function

/-- Where `pop` is while its worker holds `mutex_`. An index is what was read of
`thread_index_`. -/
inductive PopStage
  | onHold (index : Nat)
  | passed
  | canContinue (index : Nat)
deriving Repr, DecidableEq

/-- Where the function of `set_number_of_threads` is while it holds `destroy_mutex_`. -/
inductive ResizeStage
  | compared (size : Nat)
  | growing (left : Nat)
  | swapped (thread0 : Nat)
  | exchanged (tmp : Nat)
  | shrinking
  | joining
  | joined
deriving Repr, DecidableEq

/-- The thread that runs the function, the number it was given, and its stage. -/
structure Resize where
  self : Nat
  number : Nat
  stage : ResizeStage
deriving Repr, DecidableEq

/-- The function of a control task: its local `size` is read before `destroy_mutex_` is taken. -/
inductive ControlProgress
  | entered
  | sized (size : Nat)
  | resizing
  | returned
deriving Repr, DecidableEq

/-- Where the destructor is. -/
inductive DestructorStage
  | notCalled
  | called
  | joining
  | returned
deriving Repr, DecidableEq

/-- A queue with `number_of_threads_`, `threads_`, the `thread_index_` of each worker, the worker
that holds `mutex_` in `pop`, the function that holds `destroy_mutex_`, and `destroying_`. For
each control task there is the number it was given and the stage of its function; `inlined` are
those that `push_control` calls itself. -/
structure ThreadedQueue where
  queue : CallbackQueue
  numberOfThreads : Nat := 0
  threads : List Nat := []
  threadIndex : Nat → Nat := fun _ ↦ 0
  popping : Option (Nat × PopStage) := none
  number : Nat → Nat := fun _ ↦ 0
  control : Nat → ControlProgress := fun _ ↦ .entered
  inlined : List Nat := []
  resizing : Option Resize := none
  destroying : Bool := false
  destructor : DestructorStage := .notCalled

/-- A step of a thread, a call of `set_number_of_threads`, or a step of the destructor. -/
inductive ThreadedStep
  | run (thread : Nat) (action : QueueAction)
  | setNumberOfThreads (thread number : Nat)
  | destroy
deriving Repr, DecidableEq

namespace ThreadedQueue

variable (n clients : Nat) (s : ThreadedQueue)

/-- The thread has frames: a worker that has not left its loop. -/
def isAlive (u : Nat) : Bool := s.queue.thread u ≠ []

/-- A step of the queue itself. -/
def inner (l : QueueStep) : Option ThreadedQueue :=
  (s.queue.step n l).map fun q ↦ { s with queue := q }

/-- `thread_worker::pop` from one read to the next (`threaded_callback_queue.cpp:55–103`). A
worker on hold gives `mutex_` back, and one that cannot continue leaves its loop. -/
def pop (t : Nat) (fs : List QueueFrame) : Option ThreadedQueue :=
  match s.popping with
  | none =>
    if s.queue.mutexFree n then some { s with popping := some (t, .onHold (s.threadIndex t)) }
    else none
  | some (u, stage) =>
    if u = t then
      match stage with
      | .onHold index =>
        if index < s.numberOfThreads ∧ s.destroying = false ∧ s.queue.invokerQueue = [] then
          some { s with popping := none }
        else some { s with popping := some (t, .passed) }
      | .passed =>
        some { s with
          queue := { s.queue with invokerQueue := popFrontNullptr s.queue.invokerQueue }
          popping := some (t, .canContinue (s.threadIndex t)) }
      | .canContinue index =>
        if index < s.numberOfThreads ∧ s.queue.invokerQueue ≠ [] then
          (s.queue.step n ⟨t, .advance⟩).map fun q ↦ { s with queue := q, popping := none }
        else some { s with queue := s.queue.setStack t fs, popping := none }
    else none

/-- `thread_id_to_index_` has the workers that have not left
(`threaded_callback_queue.cpp:44–49, 157–163`). -/
def isRegistered (u : Nat) : Bool := s.threads.contains u && s.isAlive u

/-- A thread that can be started, if not all of the `n` are in use. -/
def newThread : Option Nat :=
  (List.range n).find? fun u ↦ clients < u && !s.isAlive u && !s.threads.contains u

/-- The end of the function, which gives `destroy_mutex_` back. -/
def returnControl (x : Nat) : ThreadedQueue :=
  { s with resizing := none, control := update s.control x .returned }

/-- The function takes an index that is not its own, when its worker has to go on with fewer
threads (`threaded_callback_queue.cpp:168–190`). -/
def swapThreads (r : Resize) : Option ThreadedQueue :=
  let index := s.threadIndex r.self
  if s.isRegistered r.self ∧ index ≠ 0 ∧ r.number ≤ index then
    match s.threads[0]?, s.threads[index]? with
    | some thread0, some u =>
      if s.isRegistered thread0 then
        some { s with
          threads := (s.threads.set index thread0).set 0 u
          resizing := some { r with stage := .swapped thread0 } }
      else some { s with resizing := some { r with stage := .shrinking } }
    | _, _ => none
  else some { s with resizing := some { r with stage := .shrinking } }

/-- The function of control task `x` under `destroy_mutex_`
(`threaded_callback_queue.cpp:147–200, 205–209`). -/
def resize (x : Nat) (r : Resize) : Option ThreadedQueue :=
  match r.stage with
  | .compared size =>
    if size < r.number then
      some { s with
        numberOfThreads := r.number
        resizing := some { r with stage := .growing (r.number - size) } }
    else s.swapThreads r
  | .growing 0 => some (s.returnControl x)
  | .growing (left + 1) =>
    (s.newThread n clients).map fun u ↦
      { s with
        queue := s.queue.setStack u [.loop]
        threads := s.threads ++ [u]
        threadIndex := update s.threadIndex u s.threads.length
        resizing := some { r with stage := .growing left } }
  | .swapped thread0 =>
    some { s with
      threadIndex := update s.threadIndex thread0 (s.threadIndex r.self)
      resizing := some { r with stage := .exchanged (s.threadIndex thread0) } }
  | .exchanged tmp =>
    some { s with
      threadIndex := update s.threadIndex r.self tmp
      resizing := some { r with stage := .shrinking } }
  | .shrinking =>
    if s.queue.mutexFree n ∧ s.popping = none then
      some { s with numberOfThreads := r.number, resizing := some { r with stage := .joining } }
    else none
  | .joining =>
    -- `join` of the thread that runs this throws, so it does not get past itself.
    if (s.threads.drop s.numberOfThreads).all fun u ↦ !s.isAlive u then
      some { s with resizing := some { r with stage := .joined } }
    else none
  | .joined => some ({ s with threads := s.threads.take r.number }.returnControl x)

/-- The function of a control task (`threaded_callback_queue.cpp:134–201`). -/
def runControl (t x : Nat) : Option ThreadedQueue :=
  match s.control x with
  | .entered => some { s with control := update s.control x (.sized s.threads.length) }
  | .sized size =>
    if s.resizing = none then
      if s.destroying ∨ size = s.number x then
        some { s with control := update s.control x .returned }
      else
        some { s with
          control := update s.control x .resizing
          resizing := some { self := t, number := s.number x, stage := .compared size } }
    else none
  | .resizing => s.resizing.bind (s.resize n clients x)
  | .returned => none

/-- `push_control` calls the function itself when there are no threads
(`threaded_callback_queue.h:888–893`). -/
def callInline (t x : Nat) (fs : List QueueFrame) : ThreadedQueue :=
  { s with
    queue := (s.queue.setStatus x .running).setStack t (.invoke x :: fs)
    inlined := x :: s.inlined }

/-- The next step of the innermost frame. -/
def advance (t : Nat) (fs : List QueueFrame) : QueueFrame → Option ThreadedQueue
  | .loop => s.pop n t fs
  | .body x => if (s.queue.future x).kind = .control then s.runControl n clients t x else none
  | .mustWait [] (.pushControl x _) =>
    if s.threads = [] then some (s.callInline t x fs) else s.inner n ⟨t, .advance⟩
  | f => if CallbackQueue.wantsMutex f ∧ s.popping.isSome then none else s.inner n ⟨t, .advance⟩

/-- The function of task `x` returns. A call by `push_control` itself is not followed by
`signal_dependent_shared_futures`: its frame is left to the thread that never runs. -/
def finish (t x : Nat) (fs : List QueueFrame) : Option ThreadedQueue :=
  if (s.queue.future x).kind = .control ∧ s.control x ≠ .returned then none
  else
    (s.queue.step n ⟨t, .finish⟩).map fun q ↦
      { s with
        queue :=
          if x ∈ s.inlined then (q.setStack t fs).setStack clients (.signal x :: q.thread clients)
          else q }

/-- The destructor (`threaded_callback_queue.cpp:116–128`), which is called when no call of a
client is under way. -/
def destroy : Option ThreadedQueue :=
  match s.destructor with
  | .notCalled =>
    if (List.range clients).all fun t ↦ s.queue.thread t = [.client] then
      some { s with destructor := .called }
    else none
  | .called =>
    if s.resizing = none ∧ s.queue.mutexFree n ∧ s.popping = none then
      some { s with destroying := true, destructor := .joining }
    else none
  | .joining =>
    if s.threads.all fun u ↦ !s.isAlive u then some { s with destructor := .returned } else none
  | .returned => none

/-- The thread may take a step: clients only before the destructor, nobody after it. -/
def mayRun (t : Nat) : Bool :=
  clients < n && t < n && t ≠ clients && (clients ≤ t || s.destructor = .notCalled) &&
    s.destructor ≠ .returned

/-- One step; `none` when it is not enabled. -/
def step : ThreadedStep → Option ThreadedQueue
  | .destroy => s.destroy n clients
  | .setNumberOfThreads t number =>
    if s.mayRun n clients t then
      (s.queue.step n ⟨t, .pushControl⟩).map fun q ↦
        { s with queue := q, number := update s.number s.queue.count number }
    else none
  | .run t action =>
    if s.mayRun n clients t then
      match s.queue.thread t with
      | [] => none
      | f :: fs =>
        match action with
        | .advance => s.advance n clients t fs f
        | .finish =>
          match f with
          | .body x => s.finish n clients t x fs
          | _ => none
        | .pushControl => none
        | action => s.inner n ⟨t, action⟩
    else none

/-- The queue before its constructor calls `set_number_of_threads`. -/
def start : ThreadedQueue where
  queue := { thread := fun t ↦ if t < clients then [.client] else [] }

/-- The queue and its runs with `n` threads, the first `clients` of which are clients. -/
def system : TransitionSystem ThreadedQueue ThreadedStep where
  init s := s = start clients
  step s l s' := s.step n clients l = some s'

end ThreadedQueue
end Hisab.Parallel
