import Hisab.Base.TransitionSystem
import Hisab.Parallel.ProxyThreads

/-!
# Jobs that create proxies

The pool at work (`parallel_thread_pool.cpp:137–318, 584–617`): threads outside submit to
top-level proxies, and a job creates nested proxies, submits to them and joins them, each by
the thread that runs the job. The locked regions are steps; no thread blocks in one. A thread
blocks in `join` on the futures of its proxy.
-/

namespace Hisab.Parallel

open Base Function

/-- `thread_job`: the proxy that owns it, and the number of the submission. -/
structure ThreadJob where
  id : Nat
  proxy : Nat
deriving Repr, DecidableEq

/-- What a started job does: its own code, or `join` of a proxy, where it runs the jobs of the
proxy that are queued at its own thread and then waits for the rest of the futures. -/
inductive JobMode
  | running
  | helping (p : Nat)
  | waiting (p : Nat) (futures : List Nat)
deriving Repr, DecidableEq

/-- A `run_job` on a thread's stack, with the index it was called with and the job that was
there then. -/
structure JobFrame where
  jobIndex : Nat
  job : Nat
  mode : JobMode := .running
deriving Repr, DecidableEq

/-- `thread_data`; `running_job_` is the index of the innermost frame. -/
structure PoolThread where
  jobs : List ThreadJob := []
  stack : List JobFrame := []
deriving Repr, DecidableEq

/-- The pool and the proxies. `unjoined` marks the proxies submitted to since their last
`join`. `invoked` and `finished` hold the jobs whose function was called and whose promise
was set, in order. -/
structure NestedPool where
  proxies : List PoolProxy := []
  nextThread : Nat → Nat := fun _ ↦ 0
  futures : Nat → List Nat := fun _ ↦ []
  unjoined : Nat → Bool := fun _ ↦ false
  thread : Nat → PoolThread := fun _ ↦ {}
  nextJob : Nat := 0
  invoked : List Nat := []
  finished : List Nat := []

/-- The steps of the threads outside, and those of pool thread `i`. -/
inductive NestedStep
  | allocateTop (threadCount : Nat)
  | submitTop (p : Nat)
  | joinTop (p : Nat)
  | run (i : Nat)
  | allocate (i threadCount : Nat)
  | submit (i p : Nat)
  | join (i p : Nat)
  | help (i : Nat)
  | wait (i : Nat)
  | joined (i : Nat)
  | finish (i : Nat)
deriving Repr, DecidableEq

/-- The pool thread that takes the step. -/
def NestedStep.thread : NestedStep → Option Nat
  | .allocateTop _ | .submitTop _ | .joinTop _ => none
  | .run i | .allocate i _ | .submit i _ | .join i _ | .help i | .wait i | .joined i
  | .finish i => some i

namespace NestedPool

/-- Pool thread `i` goes on as `th`. -/
def setThread (s : NestedPool) (i : Nat) (th : PoolThread) : NestedPool :=
  { s with thread := update s.thread i th }

/-- The thread's innermost job goes on in `mode`. -/
def setMode (s : NestedPool) (i : Nat) (f : JobFrame) (fs : List JobFrame) (mode : JobMode) :
    NestedPool :=
  s.setThread i { s.thread i with stack := { f with mode := mode } :: fs }

/-- `proxy::do_job` (`parallel_thread_pool.cpp:291–318`). -/
def doJob (s : NestedPool) (p : Nat) (x : PoolProxy) : Option NestedPool :=
  let next := (s.nextThread p + 1) % x.threads.length
  x.threads[next]?.map fun i ↦
    let own := x.parent.isSome && next == 0
    let th := s.thread i
    { s.setThread i { th with jobs := th.jobs ++ [⟨s.nextJob, p⟩] } with
      nextThread := update s.nextThread p next
      futures := if own then s.futures else update s.futures p (s.futures p ++ [s.nextJob])
      unjoined := update s.unjoined p true
      nextJob := s.nextJob + 1 }

/-- `run_job` up to the call of the function (`parallel_thread_pool.cpp:137–155`). -/
def runJob (s : NestedPool) (i jobIndex : Nat) : Option NestedPool :=
  let th := s.thread i
  th.jobs[jobIndex]?.map fun e ↦
    { s.setThread i { th with stack := { jobIndex := jobIndex, job := e.id } :: th.stack } with
      invoked := s.invoked ++ [e.id] }

/-- `run_job` after the function (`parallel_thread_pool.cpp:169–173`). -/
def endJob (s : NestedPool) (i : Nat) (f : JobFrame) (fs : List JobFrame) : Option NestedPool :=
  let th := s.thread i
  th.jobs[f.jobIndex]?.map fun e ↦
    { s.setThread i { jobs := th.jobs.eraseIdx f.jobIndex, stack := fs } with
      finished := s.finished ++ [e.id] }

/-- The end of `proxy::join` (`parallel_thread_pool.cpp:266`). -/
def clearFutures (s : NestedPool) (p : Nat) : NestedPool :=
  { s with
    futures := update s.futures p []
    unjoined := update s.unjoined p false }

/-- Some proxy that the job created has not been joined. -/
def hasUnjoined (s : NestedPool) (i job : Nat) : Bool :=
  (List.range s.proxies.length).any fun p ↦
    s.unjoined p && (s.proxies[p]?.bind PoolProxy.creator) == some (i, job)

/-- The innermost job of pool thread `i`, where it runs its own code. -/
def runningFrame (s : NestedPool) (i : Nat) : Option (JobFrame × List JobFrame) :=
  match (s.thread i).stack with
  | f :: fs => if f.mode = .running then some (f, fs) else none
  | [] => none

/-- One step of a pool of `n` threads; `none` when it is not enabled. -/
def step (n : Nat) (s : NestedPool) : NestedStep → Option NestedPool
  | .allocateTop threadCount =>
    some { s with proxies := s.proxies ++ [topLevelProxy n threadCount] }
  | .submitTop p =>
    match s.proxies[p]? with
    | some x => if x.parent = none then s.doJob p x else none
    | none => none
  | .joinTop p =>
    match s.proxies[p]? with
    | some x =>
      if x.parent = none ∧ ∀ a ∈ s.futures p, a ∈ s.finished then some (s.clearFutures p)
      else none
    | none => none
  | .run i =>
    -- The worker loop takes the job queued last.
    if (s.thread i).stack = [] then s.runJob i ((s.thread i).jobs.length - 1) else none
  | .allocate i threadCount =>
    (s.runningFrame i).bind fun r ↦
      (s.thread i).jobs[r.1.jobIndex]?.map fun e ↦
        { s with
          proxies := s.proxies ++ [nestedProxy n s.proxies e.proxy i r.1.job threadCount] }
  | .submit i p =>
    (s.runningFrame i).bind fun r ↦
      match s.proxies[p]? with
      | some x => if x.creator = some (i, r.1.job) then s.doJob p x else none
      | none => none
  | .join i p =>
    (s.runningFrame i).bind fun r ↦
      match s.proxies[p]? with
      | some x =>
        if x.creator = some (i, r.1.job) then some (s.setMode i r.1 r.2 (.helping p)) else none
      | none => none
  | .help i =>
    match (s.thread i).stack with
    | f :: fs =>
      match f.mode with
      | .helping p =>
        match (s.thread i).jobs.findIdx? fun e ↦ e.proxy == p with
        | some k => s.runJob i k
        | none => some (s.setMode i f fs (.waiting p (s.futures p)))
      | _ => none
    | [] => none
  | .wait i =>
    match (s.thread i).stack with
    | f :: fs =>
      match f.mode with
      | .waiting p (a :: futures) =>
        if a ∈ s.finished then some (s.setMode i f fs (.waiting p futures)) else none
      | _ => none
    | [] => none
  | .joined i =>
    match (s.thread i).stack with
    | f :: fs =>
      match f.mode with
      | .waiting p [] => some ((s.clearFutures p).setMode i f fs .running)
      | _ => none
    | [] => none
  | .finish i =>
    -- The proxies a job created are joined before it returns or throws.
    (s.runningFrame i).bind fun r ↦ if s.hasUnjoined i r.1.job then none else s.endJob i r.1 r.2

/-- A pool of `n` threads and its runs. -/
def system (n : Nat) : TransitionSystem NestedPool NestedStep where
  init s := s = {}
  step s l t := s.step n l = some t

/-- Pool thread `i` waits in `join` for a job that is queued at pool thread `j` or runs
there. -/
def WaitsFor (s : NestedPool) (i j : Nat) : Prop :=
  ∃ f fs p futures, (s.thread i).stack = f :: fs ∧ f.mode = .waiting p futures ∧
    ∃ e ∈ (s.thread j).jobs, e.id ∈ futures

end NestedPool
end Hisab.Parallel
