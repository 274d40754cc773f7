import Hisab.Base.TransitionSystem

/-!
# The threaded callback queue

`threaded_callback_queue` (`threaded_callback_queue.h:698–929`,
`threaded_callback_queue.cpp:38–106, 212–348`) with a stack of frames for every thread: the
loop of a worker, a client outside, the functions of the queue that are under way and the
bodies of tasks, which may call the queue again. A step is one access of an atomic variable
or one locked region; a lock that is held while its holder takes another lock or runs a task
is held across steps. Futures are numbered in the order they are created.
-/

namespace Hisab.Parallel

open Base

/-- `status` (`threaded_callback_queue.h:273–280`). -/
inductive FutureStatus
  | constructing
  | onHold
  | enqueued
  | running
  | ready
deriving Repr, DecidableEq

/-- The function of an invoker: the user's, the one of `set_number_of_threads`, a
`handle_dependent_invoker` for another future, or the empty one of `wait`. -/
inductive TaskKind
  | user
  | control
  | registration (d : Nat)
  | empty
deriving Repr, DecidableEq

/-- `shared_future_base`, with whether the function returns a value, and the futures that it
has to wait for. -/
structure SharedFuture where
  status : FutureStatus := .constructing
  kind : TaskKind := .user
  returnsValue : Bool := false
  priors : List Nat := []
  dependents : List Nat := []
  remaining : Int := 0
  invokerIndex : Int := 0
  isHighPriority : Bool := false
deriving Repr, DecidableEq

/-- What follows a call of `must_wait`. -/
inductive MustWaitUse
  | pushDependent (priors : List Nat) (returnsValue : Bool)
  | wait (futures : List Nat)
  | pushControl (x : Nat) (futures : List Nat)
deriving Repr, DecidableEq

/-- A frame of a thread's stack: the place the thread has reached in a function. -/
inductive QueueFrame
  | loop
  | client
  | push (x : Nat)
  | pushFront (x : Nat)
  | mustWait (rest : List Nat) (use : MustWaitUse)
  | wait (rest : List Nat) (mustWaitFlag : Bool) (futures : List Nat)
  | tryInvoke (x : Nat)
  | tryInvokeLock (x : Nat)
  | tryInvokeLocked (x : Nat)
  | register (d : Nat) (rest : List Nat)
  | registerLock (d p : Nat) (rest : List Nat)
  | registerAdd (d : Nat) (rest : List Nat)
  | blocked (x : Nat)
  | invoke (x : Nat)
  | body (x : Nat)
  | signal (x : Nat)
  | signalling (x : Nat) (invokersToLaunch : List Nat)
  | launch (invokers : List Nat)
  | launching (index : Int) (invokers : List Nat)
deriving Repr, DecidableEq

/-- The futures, the deque with its holes, the threads and `control_futures_`. `entered` holds
the futures whose function was called, in order. -/
structure CallbackQueue where
  future : Nat → SharedFuture := fun _ ↦ {}
  count : Nat := 0
  invokerQueue : List (Option Nat) := []
  thread : Nat → List QueueFrame
  controlFutures : List Nat := []
  entered : List Nat := []

/-- What a thread does: the next step of its innermost frame, or a call or the return of the
code that this frame runs. -/
inductive QueueAction
  | advance
  | push (returnsValue : Bool)
  | pushDependent (priors : List Nat) (returnsValue : Bool)
  | wait (futures : List Nat)
  | pushControl
  | finish
deriving Repr, DecidableEq

/-- A step names its thread. -/
structure QueueStep where
  thread : Nat
  action : QueueAction
deriving Repr, DecidableEq

/-- `pop_front_nullptr` (`threaded_callback_queue.cpp:212–218`). -/
def popFrontNullptr : List (Option Nat) → List (Option Nat)
  | none :: q => popFrontNullptr q
  | q => q

namespace CallbackQueue

/-! ## Locks -/

/-- The frame holds `mutex_`. -/
def holdsMutex : QueueFrame → Bool
  | .tryInvokeLocked _ | .launching _ _ => true
  | _ => false

/-- The frame holds the mutex of future `x`; a function that returns a value runs under it
(`threaded_callback_queue.h:480–484`). -/
def holdsFuture (s : CallbackQueue) (x : Nat) : QueueFrame → Bool
  | .body y => y == x && (s.future y).returnsValue
  | .signalling y _ | .pushFront y => y == x
  | _ => false

/-- None of the `n` threads holds `mutex_`. -/
def mutexFree (n : Nat) (s : CallbackQueue) : Bool :=
  (List.range n).all fun t ↦ !(s.thread t).any holdsMutex

/-- None of the `n` threads holds the mutex of future `x`. -/
def futureFree (n : Nat) (s : CallbackQueue) (x : Nat) : Bool :=
  (List.range n).all fun t ↦ !(s.thread t).any (s.holdsFuture x)

/-! ## The functions of the queue -/

/-- `front_invoker_index` (`threaded_callback_queue.h:307–318`). -/
def frontInvokerIndex (s : CallbackQueue) (q : List (Option Nat)) : Int :=
  match q.findSome? id with
  | some x => (s.future x).invokerIndex
  | none => 0

/-- `back_invoker_index` (`threaded_callback_queue.h:319–342`). -/
def backInvokerIndex (s : CallbackQueue) : Int :=
  match s.invokerQueue.reverse.findSome? id with
  | some x => (s.future x).invokerIndex
  | none => -1

/-- Thread `t` goes on with another stack. -/
def setStack (s : CallbackQueue) (t : Nat) (stack : List QueueFrame) : CallbackQueue :=
  { s with thread := Function.update s.thread t stack }

/-- Future `x` is now `r`. -/
def setFuture (s : CallbackQueue) (x : Nat) (r : SharedFuture) : CallbackQueue :=
  { s with future := Function.update s.future x r }

def setStatus (s : CallbackQueue) (x : Nat) (status : FutureStatus) : CallbackQueue :=
  s.setFuture x { s.future x with status := status }

/-- A new future, with number `count`. -/
def create (s : CallbackQueue) (r : SharedFuture) : CallbackQueue :=
  { s.setFuture s.count r with count := s.count + 1 }

/-- `thread_worker::pop` (`threaded_callback_queue.cpp:55–85`): a worker waits while the queue
is empty, takes the first task, or leaves its loop when there are only holes. -/
def pop (n : Nat) (s : CallbackQueue) (t : Nat) (fs : List QueueFrame) : Option CallbackQueue :=
  if s.mutexFree n ∧ s.invokerQueue ≠ [] then
    match popFrontNullptr s.invokerQueue with
    | some x :: q =>
      some { (s.setStatus x .running).setStack t (.invoke x :: .loop :: fs) with
        invokerQueue := popFrontNullptr q }
    | _ => some { s.setStack t fs with invokerQueue := [] }
  else none

/-- The locked region of `push` (`threaded_callback_queue.h:921–925`). -/
def pushBack (n : Nat) (s : CallbackQueue) (t x : Nat) (fs : List QueueFrame) :
    Option CallbackQueue :=
  if s.mutexFree n then
    some { (s.setFuture x { s.future x with invokerIndex := s.backInvokerIndex + 1 }).setStack t fs
      with invokerQueue := s.invokerQueue ++ [some x] }
  else none

/-- The locked region of `push_control` (`threaded_callback_queue.h:899–902`). -/
def pushFront (n : Nat) (s : CallbackQueue) (t x : Nat) (fs : List QueueFrame) :
    Option CallbackQueue :=
  if s.mutexFree n then
    let index := if s.invokerQueue = [] then 0 else s.frontInvokerIndex s.invokerQueue - 1
    some { (s.setFuture x { s.future x with invokerIndex := index }).setStack t fs with
      invokerQueue := some x :: s.invokerQueue }
  else none

/-- What follows when `must_wait` answers no: `push` of the task, the end of `wait`, or the
control task at the front (`threaded_callback_queue.h:839–842, 784–787, 888–898`). -/
def mustNotWait (n : Nat) (s : CallbackQueue) (t : Nat) (fs : List QueueFrame) :
    MustWaitUse → Option CallbackQueue
  | .pushDependent priors returnsValue =>
    some ((s.create { status := .enqueued, returnsValue := returnsValue, priors := priors }).setStack
      t (.push s.count :: fs))
  | .wait _ => some (s.setStack t fs)
  | .pushControl x _ =>
    if s.futureFree n x then some ((s.setStatus x .enqueued).setStack t (.pushFront x :: fs))
    else none

/-- What follows when `must_wait` answers yes: a task that registers the dependent one, or the
registration itself (`threaded_callback_queue.h:844–853, 789–795, 908–909`). -/
def mustDoWait (s : CallbackQueue) (t : Nat) (fs : List QueueFrame) : MustWaitUse → CallbackQueue
  | .pushDependent priors returnsValue =>
    ((s.create { returnsValue := returnsValue, priors := priors }).create
      { status := .enqueued, kind := .registration s.count }).setStack t (.push (s.count + 1) :: fs)
  | .wait futures =>
    (s.create { kind := .empty, priors := futures, isHighPriority := true }).setStack t
      (.register s.count futures :: .blocked s.count :: fs)
  | .pushControl x futures =>
    (s.setFuture x { s.future x with isHighPriority := true }).setStack t
      (.register x futures :: fs)

/-- `try_invoke` returns false to the loop of `wait` (`threaded_callback_queue.h:776–778`). -/
def returnFalse : List QueueFrame → List QueueFrame
  | .wait rest _ futures :: fs => .wait rest true futures :: fs
  | fs => fs

/-- One turn of the loop of `wait` (`threaded_callback_queue.h:766–782`). -/
def waitLoop (s : CallbackQueue) (t : Nat) (mustWaitFlag : Bool) (futures : List Nat)
    (fs : List QueueFrame) : List Nat → CallbackQueue
  | [] => s.setStack t (if mustWaitFlag then .mustWait futures (.wait futures) :: fs else fs)
  | p :: rest =>
    match (s.future p).status with
    | .ready => s.setStack t (.wait rest mustWaitFlag futures :: fs)
    | .enqueued => s.setStack t (.tryInvoke p :: .wait rest mustWaitFlag futures :: fs)
    | _ => s.setStack t (.wait rest true futures :: fs)

/-- `try_invoke` from the lock of `mutex_` to the lock of the future's
(`threaded_callback_queue.cpp:292–301`). -/
def tryInvokeLock (n : Nat) (s : CallbackQueue) (t x : Nat) (fs : List QueueFrame) :
    Option CallbackQueue :=
  if s.mutexFree n then
    let q := popFrontNullptr s.invokerQueue
    some { s.setStack t (if q = [] then returnFalse fs else .tryInvokeLocked x :: fs) with
      invokerQueue := q }
  else none

/-- The queue without the element at `index`, which becomes a hole unless it is the first
(`threaded_callback_queue.cpp:326–339`). -/
def takeAt (q : List (Option Nat)) (index : Nat) : List (Option Nat) :=
  if index = 0 then popFrontNullptr q.tail else q.set index none

/-- `try_invoke` under both locks (`threaded_callback_queue.cpp:301–342`). -/
def tryInvokeLocked (n : Nat) (s : CallbackQueue) (t x : Nat) (fs : List QueueFrame) :
    Option CallbackQueue :=
  if s.futureFree n x then
    let index := (s.future x).invokerIndex - s.frontInvokerIndex s.invokerQueue
    if (s.future x).status = .enqueued ∧ 0 ≤ index ∧ index < s.invokerQueue.length ∧
        s.invokerQueue[index.toNat]? = some (some x) then
      some { (s.setStatus x .running).setStack t (.invoke x :: fs) with
        invokerQueue := takeAt s.invokerQueue index.toNat }
    else some (s.setStack t (returnFalse fs))
  else none

/-- `handle_dependent_invoker` at a prior, or at its end
(`threaded_callback_queue.h:726–751`). -/
def register (n : Nat) (s : CallbackQueue) (t d : Nat) (fs : List QueueFrame) :
    List Nat → Option CallbackQueue
  | p :: rest =>
    some (s.setStack t (if (s.future p).status = .ready then .register d rest :: fs
      else .registerLock d p rest :: fs))
  | [] =>
    if s.futureFree n d then
      if (s.future d).remaining = 0 then
        some ((s.setStatus d .running).setStack t (.invoke d :: fs))
      else some ((s.setStatus d .onHold).setStack t fs)
    else none

/-- `handle_dependent_invoker` under the lock of a prior
(`threaded_callback_queue.h:732–736`). -/
def registerLock (n : Nat) (s : CallbackQueue) (t d p : Nat) (rest : List Nat)
    (fs : List QueueFrame) : Option CallbackQueue :=
  if s.futureFree n p then
    if (s.future p).status = .ready then some (s.setStack t (.register d rest :: fs))
    else
      some ((s.setFuture p
        { s.future p with dependents := (s.future p).dependents ++ [d] }).setStack t
          (.registerAdd d rest :: fs))
  else none

/-- The call of the function (`threaded_callback_queue.h:480–483, 497`). -/
def enter (n : Nat) (s : CallbackQueue) (t x : Nat) (fs : List QueueFrame) : Option CallbackQueue :=
  if !(s.future x).returnsValue || s.futureFree n x then
    let stack :=
      match (s.future x).kind with
      | .registration d => .register d (s.future d).priors :: .body x :: fs
      | _ => .body x :: fs
    some { s.setStack t stack with entered := s.entered ++ [x] }
  else none

/-- What the copy of `worker` in a control task erases: it was made before `future_` was set
(`threaded_callback_queue.h:869–877`). -/
def controlWorkerFuture : Option Nat := none

/-- The return of the function: the status under the lock, which a function that returns a
value holds already (`threaded_callback_queue.h:484, 498–501, 863–864`). -/
def finish (n : Nat) (s : CallbackQueue) (t x : Nat) (fs : List QueueFrame) :
    Option CallbackQueue :=
  if (s.future x).returnsValue || s.futureFree n x then
    let controlFutures :=
      if (s.future x).kind = .control then s.controlFutures.filter (some · ≠ controlWorkerFuture)
      else s.controlFutures
    some { (s.setStatus x .ready).setStack t (.signal x :: fs) with
      controlFutures := controlFutures }
  else none

/-- Dependent `d` of `x` has a prior less to wait for. The dependents that the loop has passed
are not looked at again, and `ds` are left. -/
def countDown (s : CallbackQueue) (x d : Nat) (ds : List Nat) : CallbackQueue :=
  let s := s.setFuture x { s.future x with dependents := ds }
  s.setFuture d { s.future d with remaining := (s.future d).remaining - 1 }

/-- The loop of `signal_dependent_shared_futures` at its next dependent, or at its end
(`threaded_callback_queue.cpp:233–253`). -/
def signalling (n : Nat) (s : CallbackQueue) (t x : Nat) (invokersToLaunch : List Nat)
    (fs : List QueueFrame) : Option CallbackQueue :=
  match (s.future x).dependents with
  | [] => some (s.setStack t (if invokersToLaunch = [] then fs else .launch invokersToLaunch :: fs))
  | d :: ds =>
    if s.futureFree n d then
      let s := s.countDown x d ds
      if (s.future d).status = .onHold ∧ (s.future d).remaining = 0 then
        if (s.future d).isHighPriority then
          some ((s.setStatus d .running).setStack t
            (.invoke d :: .signalling x invokersToLaunch :: fs))
        else some (s.setStack t (.signalling x (invokersToLaunch ++ [d]) :: fs))
      else some (s.setStack t (.signalling x invokersToLaunch :: fs))
    else none

/-- `signal_dependent_shared_futures` takes `mutex_` (`threaded_callback_queue.cpp:258–262`). -/
def launch (n : Nat) (s : CallbackQueue) (t : Nat) (invokers : List Nat) (fs : List QueueFrame) :
    Option CallbackQueue :=
  if s.mutexFree n then
    let q := popFrontNullptr s.invokerQueue
    let index := if q = [] then (invokers.length : Int) else s.frontInvokerIndex q
    some { s.setStack t (.launching index invokers :: fs) with invokerQueue := q }
  else none

/-- One launch at the front, or the end of the region (`threaded_callback_queue.cpp:263–273`). -/
def launching (n : Nat) (s : CallbackQueue) (t : Nat) (index : Int) (fs : List QueueFrame) :
    List Nat → Option CallbackQueue
  | [] => some (s.setStack t fs)
  | d :: ds =>
    if s.futureFree n d then
      some { (s.setFuture d { s.future d with
          invokerIndex := index - 1, status := .enqueued }).setStack t
            (.launching (index - 1) ds :: fs) with
        invokerQueue := some d :: s.invokerQueue }
    else none

/-- The next step of the innermost frame. -/
def advance (n : Nat) (s : CallbackQueue) (t : Nat) (fs : List QueueFrame) :
    QueueFrame → Option CallbackQueue
  | .client | .body _ => none
  | .loop => s.pop n t fs
  | .push x => s.pushBack n t x fs
  | .pushFront x => s.pushFront n t x fs
  | .mustWait [] use => s.mustNotWait n t fs use
  | .mustWait (p :: rest) use =>
    some (if (s.future p).status = .ready then s.setStack t (.mustWait rest use :: fs)
      else s.mustDoWait t fs use)
  | .wait rest flag futures => some (s.waitLoop t flag futures fs rest)
  | .tryInvoke x =>
    some (s.setStack t
      (if (s.future x).status = .enqueued then .tryInvokeLock x :: fs else returnFalse fs))
  | .tryInvokeLock x => s.tryInvokeLock n t x fs
  | .tryInvokeLocked x => s.tryInvokeLocked n t x fs
  | .register d rest => s.register n t d fs rest
  | .registerLock d p rest => s.registerLock n t d p rest fs
  | .registerAdd d rest =>
    some ((s.setFuture d { s.future d with remaining := (s.future d).remaining + 1 }).setStack t
      (.register d rest :: fs))
  | .blocked x => if (s.future x).status = .ready then some (s.setStack t fs) else none
  | .invoke x => s.enter n t x fs
  | .signal x => if s.futureFree n x then some (s.setStack t (.signalling x [] :: fs)) else none
  | .signalling x invokersToLaunch => s.signalling n t x invokersToLaunch fs
  | .launch invokers => s.launch n t invokers fs
  | .launching index invokers => s.launching n t index fs invokers

/-- The frame runs code that may call the queue: a client's or a user function. -/
def runsUserCode (s : CallbackQueue) : QueueFrame → Bool
  | .client => true
  | .body x => (s.future x).kind = .user
  | _ => false

/-- The futures that a call may name: those of the tasks pushed so far. -/
def areUserFutures (s : CallbackQueue) (futures : List Nat) : Bool :=
  futures.all fun p ↦ p < s.count && (s.future p).kind = .user

/-- One step of one of the `n` threads; `none` when it is not enabled. -/
def step (n : Nat) (s : CallbackQueue) (l : QueueStep) : Option CallbackQueue :=
  if l.thread < n then
    match s.thread l.thread with
    | [] => none
    | f :: fs =>
      match l.action with
      | .advance => s.advance n l.thread fs f
      | .push returnsValue =>
        if s.runsUserCode f then
          some ((s.create { status := .enqueued, returnsValue := returnsValue }).setStack l.thread
            (.push s.count :: f :: fs))
        else none
      | .pushDependent priors returnsValue =>
        if s.runsUserCode f ∧ s.areUserFutures priors then
          some (s.setStack l.thread
            (.mustWait priors (.pushDependent priors returnsValue) :: f :: fs))
        else none
      | .wait futures =>
        if s.runsUserCode f ∧ s.areUserFutures futures then
          some (s.setStack l.thread (.wait futures false futures :: f :: fs))
        else none
      | .pushControl =>
        if s.runsUserCode f then
          some { (s.create { kind := .control, priors := s.controlFutures }).setStack l.thread
              (.mustWait s.controlFutures (.pushControl s.count s.controlFutures) :: f :: fs) with
            controlFutures := s.controlFutures ++ [s.count] }
        else none
      | .finish =>
        match f with
        | .body x => s.finish n l.thread x fs
        | _ => none
  else none

/-- A queue with `workers` worker threads, and clients on the other threads. -/
def start (workers : Nat) : CallbackQueue where
  thread t := if t < workers then [.loop] else [.client]

/-- The queue and its runs with `n` threads, the first `workers` of which are workers. -/
def system (n workers : Nat) : TransitionSystem CallbackQueue QueueStep where
  init s := s = start workers
  step s l t := s.step n l = some t

end CallbackQueue
end Hisab.Parallel
