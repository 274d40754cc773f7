import Hisab.Base.TransitionSystem

/-!
# Profiler sessions

`profiler_session` (`Library/Profiler/native/session/profiler.cpp:170–406`) with the global
profiler lock (`profiler_lock.cpp`), the global current session and the collection of backends
(`profiler_collection.cpp`, `profiler_controller.cpp`). Any number of sessions are constructed,
started, stopped and destroyed, each by one call at a time. A step is one access of the flags,
of the lock or of the current session, or one call of a backend.
-/

namespace Hisab.Profiler

open Base Function

/-- `profiler_state_enum`. -/
inductive ProfilerStateEnum
  | init
  | start
  | stop
  | collectData
  deriving DecidableEq, Repr

/-- `profiler_controller` of a backend; `status` is whether `status_` is ok. -/
structure ProfilerController where
  backend : Nat
  state : ProfilerStateEnum := .init
  status : Bool := true
  deriving DecidableEq, Repr

/-- For each backend, whether its start succeeded and how often its stop was invoked. -/
structure BackendLog where
  started : Nat → Bool := fun _ ↦ false
  stops : Nat → Nat := fun _ ↦ 0

namespace BackendLog

variable (log : BackendLog) (b : Nat)

def start (ok : Bool) : BackendLog := { log with started := update log.started b ok }

def stop : BackendLog := { log with stops := update log.stops b (log.stops b + 1) }

end BackendLog

namespace ProfilerController

variable (c : ProfilerController) (ok : Bool) (log : BackendLog)

/-- `profiler_controller::start`, `profiler_controller.cpp:40–61`. -/
def start : ProfilerController × BackendLog :=
  match c.state, c.status with
  | .init, true => ({ c with state := .start, status := ok }, log.start c.backend ok)
  | .init, false => ({ c with state := .start }, log)
  | _, _ => ({ c with status := false }, log)

/-- `profiler_controller::stop`, `profiler_controller.cpp:63–84`. -/
def stop : ProfilerController × BackendLog :=
  match c.state, c.status with
  | .start, true => ({ c with state := .stop, status := ok }, log.stop c.backend)
  | .start, false => ({ c with state := .stop }, log)
  | _, _ => ({ c with status := false }, log)

/-- `profiler_controller::collect_data`, `profiler_controller.cpp:86–107`. -/
def collectData : ProfilerController :=
  match c.state, c.status with
  | .stop, true => { c with state := .collectData, status := ok }
  | .stop, false => { c with state := .collectData }
  | _, _ => { c with status := false }

/-- `~profiler_controller`, `profiler_controller.cpp:31–38`. -/
def destroy : BackendLog := if c.state = .start ∧ c.status = true then log.stop c.backend else log

end ProfilerController

/-- Where a call of `start`, `stop` or the destructor is; `next` is the next backend of a loop,
and `destroying` tells that the destructor has called `stop`. -/
inductive SessionCall
  | startAcquire (backends : Nat)
  | startProfilers (next : Nat) (ok : Bool)
  | startReset
  | startRelease
  | startDeactivate
  | startPublish
  | stopProfilers (next : Nat) (destroying : Bool)
  | collectProfilers (next : Nat) (destroying : Bool)
  | stopReset (destroying : Bool)
  | stopLoad (destroying : Bool)
  | stopStore (destroying : Bool)
  | stopRelease (destroying : Bool)
  | cleanupReset
  | cleanupRelease
  deriving DecidableEq, Repr

/-- `active_`, `profiler_lock_` and `backend_profilers_`, the call under way, and whether
`start` has returned true with no `stop` or destruction begun since. -/
structure ProfilerSession where
  active : Bool := false
  lock : Bool := false
  profilers : List ProfilerController := []
  call : Option SessionCall := none
  running : Bool := false
  deriving DecidableEq, Repr

/-- `g_session_active`, `g_current_session`, the session objects there are, and the backends
made so far. -/
structure SessionsState where
  sessionActive : Bool := false
  currentSession : Option Nat := none
  sessions : Nat → Option ProfilerSession := fun _ ↦ none
  backends : Nat := 0
  log : BackendLog := {}

/-- The calls, and the next step of a call with what a backend returns in it. The factories
make `backends` backends for a `start`. -/
inductive SessionsStep
  | construct (x : Nat)
  | start (x : Nat) (backends : Nat)
  | stop (x : Nat)
  | destroy (x : Nat)
  | advance (x : Nat) (ok : Bool)
  deriving DecidableEq, Repr

namespace SessionsState

variable (s : SessionsState)

def setSession (x : Nat) (session : ProfilerSession) : SessionsState :=
  { s with sessions := update s.sessions x (some session) }

/-- The first step of `stop`: `active_.exchange(false)`. -/
def beginStop (x : Nat) (session : ProfilerSession) (destroying : Bool) : SessionsState :=
  s.setSession x
    { session with active := false, running := false, call := some (.stopProfilers 0 destroying) }

/-- `ProfilerLock::Acquire`, `profiler_lock.cpp:64–88`, and what `start` does on its result. -/
def acquire (disabled : Bool) (x : Nat) (session : ProfilerSession) (backends : Nat) :
    SessionsState :=
  if disabled || s.sessionActive then s.setSession x { session with call := some .startDeactivate }
  else
    { s.setSession x { session with
          lock := true
          profilers := (List.range' s.backends backends).map fun b ↦ { backend := b }
          call := some (.startProfilers 0 true) } with
      sessionActive := true
      backends := s.backends + backends }

/-- `ProfilerLock::ReleaseIfActive`, `profiler_lock.cpp:90–97`. -/
def releaseIfActive (x : Nat) (session : ProfilerSession) : SessionsState :=
  if session.lock then { s.setSession x { session with lock := false } with sessionActive := false }
  else s.setSession x session

/-- The destructors of a collection of backends, one after another; then the call goes on. -/
def resetProfilers (x : Nat) (session : ProfilerSession) (next : SessionCall) : SessionsState :=
  match session.profilers with
  | c :: profilers => { s.setSession x { session with profilers } with log := c.destroy s.log }
  | [] => s.setSession x { session with call := some next }

/-- The next step of a call. -/
def advance (disabled : Bool) (x : Nat) (session : ProfilerSession) (ok : Bool) :
    SessionCall → SessionsState
  | .startAcquire backends => s.acquire disabled x session backends
  | .startProfilers next allOk =>
    match session.profilers[next]? with
    | some c =>
      let (c, log) := c.start ok s.log
      { s.setSession x { session with
          profilers := session.profilers.set next c
          call := some (.startProfilers (next + 1) (allOk && c.status)) } with log }
    | none => s.setSession x
        { session with call := some (if allOk then .startPublish else .startReset) }
  | .startReset => s.resetProfilers x session .startRelease
  | .startRelease => s.releaseIfActive x { session with call := some .startDeactivate }
  | .startDeactivate => s.setSession x { session with active := false, call := none }
  | .startPublish =>
    { s.setSession x { session with call := none, running := true } with currentSession := some x }
  | .stopProfilers next destroying =>
    match session.profilers[next]? with
    | some c =>
      let (c, log) := c.stop ok s.log
      { s.setSession x { session with
          profilers := session.profilers.set next c
          call := some (.stopProfilers (next + 1) destroying) } with log }
    | none => s.setSession x { session with call := some (.collectProfilers 0 destroying) }
  | .collectProfilers next destroying =>
    match session.profilers[next]? with
    | some c => s.setSession x { session with
        profilers := session.profilers.set next (c.collectData ok)
        call := some (.collectProfilers (next + 1) destroying) }
    | none => s.setSession x { session with call := some (.stopReset destroying) }
  | .stopReset destroying => s.resetProfilers x session (.stopLoad destroying)
  | .stopLoad destroying =>
    s.setSession x { session with
      call := some
        (if s.currentSession = some x then .stopStore destroying else .stopRelease destroying) }
  | .stopStore destroying =>
    { s.setSession x { session with call := some (.stopRelease destroying) } with
      currentSession := none }
  | .stopRelease destroying =>
    s.releaseIfActive x { session with call := if destroying then some .cleanupReset else none }
  | .cleanupReset => s.resetProfilers x session .cleanupRelease
  | .cleanupRelease => { s.releaseIfActive x session with sessions := update s.sessions x none }

def step (disabled : Bool) : SessionsStep → Option SessionsState
  | .construct x => if s.sessions x = none then some (s.setSession x {}) else none
  | .start x backends => do
    let session ← s.sessions x
    if session.call ≠ none then none
    else if session.active then return s
    else return s.setSession x { session with active := true, call := some (.startAcquire backends) }
  | .stop x => do
    let session ← s.sessions x
    if session.call ≠ none then none
    else if session.active then return s.beginStop x session false
    else return s
  | .destroy x => do
    let session ← s.sessions x
    if session.call ≠ none then none
    else if session.active then return s.beginStop x session true
    else return s.setSession x { session with call := some .cleanupReset }
  | .advance x ok => do
    let session ← s.sessions x
    let call ← session.call
    return s.advance disabled x session ok call

end SessionsState

/-- Programs over sessions; `disabled` is what `PROFILER_DISABLE_PROFILING` says. -/
def profilerSessions (disabled : Bool) : TransitionSystem SessionsState SessionsStep where
  init s := s = {}
  step s a s' := s.step disabled a = some s'

end Hisab.Profiler
