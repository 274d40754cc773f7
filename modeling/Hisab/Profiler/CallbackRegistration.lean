import Hisab.Base.TransitionSystem
import Hisab.Profiler.CallbackManagers

/-!
# Registering callbacks from many threads

The calls of `record_function.cpp` that register, change and read callbacks, step by step:
`update_mutex_` is taken and given back, and the version and the global callbacks are stored one
after the other, so that `version()`, which does not take the mutex, is read at any moment between.
What a thread does to its own manager no other thread sees; it is one step with the snapshot that
follows.
-/

namespace Hisab.Profiler.RecordFunctions

open Base Function

/-- The changes of `GlobalCallbackManager` (`record_function.cpp:243–289`). -/
inductive GlobalChange (F : Type)
  | addCallback (callback : RecordFunctionCallback F)
  | setCallbackEnabled (handle : Nat) (enabled : Bool)
  | removeCallback (handle : Nat)
  | clearCallbacks

/-- The calls that go to the manager of the thread first (`record_function.cpp:632–746`).
`disableCallback` and `reenableCallback` enable or disable a handle. -/
inductive LocalCall (F : Type)
  | addThreadLocalCallback (callback : RecordFunctionCallback F)
  | setCallbackEnabled (handle : Nat) (enabled : Bool)
  | removeCallback (handle : Nat)
  | clearThreadLocalCallbacks
  | setRecordFunctionTls (tls : RecordFunctionTLS F)
  | enableRecordFunction (enable : Bool)
  | getStepCallbacks (scope : RecordScope)

/-- The calls; `clearCallbacks` is two of them. -/
inductive Call (F : Type)
  | addGlobalCallback (callback : RecordFunctionCallback F)
  | clearGlobalCallbacks
  | viaManager (call : LocalCall F)

/-- Where a thread is: in no call, before its manager, before the mutex, before the first or the
second store of a change, before the mutex is given back, or, in `getStepCallbacks`, before the
snapshot or before the return. -/
inductive Pc (F : Type)
  | idle
  | calling (call : LocalCall F)
  | acquiring (change : GlobalChange F)
  | entered (change : GlobalChange F)
  | halfway (change : GlobalChange F)
  | leaving
  | refreshing (scope : RecordScope)
  | answering (scope : RecordScope)

/-- The global callbacks with their version, the holder of the mutex, the next handle and the
threads. `registered` is not in the source: the global callbacks as the mutex was last given
back. -/
structure State (F Gen : Type) where
  version : Nat := 1
  callbacks : List (RecordFunctionCallbacksEntry F) := []
  owner : Option Nat := none
  nextHandle : Nat := 1
  managers : Nat → Option (LocalCallbackManager F Gen) := fun _ ↦ none
  pc : Nat → Pc F := fun _ ↦ .idle
  registered : List (RecordFunctionCallbacksEntry F) := []

/-- A call starts, its next step, and the return of `getStepCallbacks`. -/
inductive Action (F : Type)
  | call (call : Call F)
  | step
  | ret

variable {F Gen : Type}

def Call.start : Call F → Pc F
  | .addGlobalCallback callback => .acquiring (.addCallback callback)
  | .clearGlobalCallbacks => .acquiring .clearCallbacks
  | .viaManager call => .calling call

namespace State

/-- The pair that `getSnapshot` returns. -/
def snapshot (s : State F Gen) : Nat × List (RecordFunctionCallbacksEntry F) :=
  (s.version, s.callbacks)

def goto (s : State F Gen) (t : Nat) (pc : Pc F) : State F Gen := { s with pc := update s.pc t pc }

def setManager (s : State F Gen) (t : Nat) (manager : LocalCallbackManager F Gen) : State F Gen :=
  { s with managers := update s.managers t (some manager) }

@[simp] theorem goto_pc_self (s : State F Gen) (t : Nat) (pc : Pc F) : (s.goto t pc).pc t = pc :=
  update_self ..

theorem goto_pc_of_ne {s : State F Gen} {t t' : Nat} {pc : Pc F} (h : t' ≠ t) :
    (s.goto t pc).pc t' = s.pc t' :=
  update_of_ne h ..

@[simp] theorem setManager_managers_self (s : State F Gen) (t : Nat)
    (manager : LocalCallbackManager F Gen) : (s.setManager t manager).managers t = some manager :=
  update_self ..

theorem setManager_managers_of_ne {s : State F Gen} {t t' : Nat}
    {manager : LocalCallbackManager F Gen} (h : t' ≠ t) :
    (s.setManager t manager).managers t' = s.managers t' :=
  update_of_ne h ..

/-- The first store of a change, if there is something to change. -/
def firstStore (s : State F Gen) (t : Nat) : GlobalChange F → State F Gen
  | .addCallback callback =>
    ({ s with version := s.version + 1 } : State F Gen).goto t (.halfway (.addCallback callback))
  | .setCallbackEnabled handle enabled =>
    match findCallback s.callbacks handle with
    | some el =>
      if el.enabled ≠ enabled then
        ({ s with version := s.version + 1 } : State F Gen).goto t
          (.halfway (.setCallbackEnabled handle enabled))
      else s.goto t .leaving
    | none => s.goto t .leaving
  | .removeCallback handle =>
    match findCallback s.callbacks handle with
    | some _ =>
      ({ s with callbacks := eraseCallback s.callbacks handle } : State F Gen).goto t
        (.halfway (.removeCallback handle))
    | none => s.goto t .leaving
  | .clearCallbacks =>
    ({ s with version := s.version + 1 } : State F Gen).goto t (.halfway .clearCallbacks)

/-- The second store. -/
def secondStore (s : State F Gen) (t : Nat) : GlobalChange F → State F Gen
  | .addCallback callback =>
    ({ s with
        callbacks := s.callbacks ++ [{ callback, handle := s.nextHandle }]
        nextHandle := s.nextHandle + 1 } : State F Gen).goto t .leaving
  | .setCallbackEnabled handle enabled =>
    ({ s with callbacks := setEnabled s.callbacks handle enabled } : State F Gen).goto t .leaving
  | .removeCallback _ => ({ s with version := s.version + 1 } : State F Gen).goto t .leaving
  | .clearCallbacks => ({ s with callbacks := [] } : State F Gen).goto t .leaving

variable (geometric : Rat → Gen → Nat × Gen) (seed : Gen)

/-- The change of the thread's own callbacks is made, and its entries are built from the
snapshot. A handle that the thread does not have goes to the global callbacks. -/
def applyEffect (s : State F Gen) (t : Nat) (missing : Pc F) :
    LocalCallbackManager.Effect F Gen → Option (State F Gen)
  | .rebuildAll manager =>
    if s.owner = none then
      some ((s.setManager t (manager.rebuildAll geometric s.snapshot)).goto t .idle)
    else none
  | .rebuildScopes callback manager =>
    if s.owner = none then
      some ((s.setManager t (manager.rebuildCallbackScopes geometric s.snapshot callback)).goto t
        .idle)
    else none
  | .unchanged => some (s.goto t .idle)
  | .notFound => some (s.goto t missing)

/-- The step of a call in the manager of its thread. -/
def enter (s : State F Gen) (t : Nat) (manager : LocalCallbackManager F Gen) :
    LocalCall F → Option (State F Gen)
  | .addThreadLocalCallback callback =>
    ({ s with nextHandle := s.nextHandle + 1 } : State F Gen).applyEffect geometric t .idle
      (manager.addCallback callback s.nextHandle)
  | .setCallbackEnabled handle enabled =>
    s.applyEffect geometric t (.acquiring (.setCallbackEnabled handle enabled))
      (manager.setCallbackEnabled handle enabled)
  | .removeCallback handle =>
    s.applyEffect geometric t (.acquiring (.removeCallback handle)) (manager.removeCallback handle)
  | .clearThreadLocalCallbacks => s.applyEffect geometric t .idle manager.clearCallbacks
  | .setRecordFunctionTls tls => s.applyEffect geometric t .idle (manager.setTLS tls)
  | .enableRecordFunction enable =>
    s.applyEffect geometric t .idle (manager.enableRecordFunction enable)
  -- `rebuildActiveCallbacksIfNeeded` reads the version without the mutex.
  | .getStepCallbacks scope =>
    if s.version = manager.globalVersion then some (s.goto t (.answering scope))
    else some (s.goto t (.refreshing scope))

/-- A step of a thread that is in a call. -/
def advance (s : State F Gen) (t : Nat) : Option (State F Gen) :=
  match s.pc t with
  | .idle => none
  | .calling call =>
    match s.managers t with
    | some manager => s.enter geometric t manager call
    | none =>
      if s.owner = none then
        some (s.setManager t (LocalCallbackManager.construct geometric t seed s.snapshot))
      else none
  | .acquiring change =>
    if s.owner = none then some (({ s with owner := some t } : State F Gen).goto t (.entered change))
    else none
  | .entered change => some (s.firstStore t change)
  | .halfway change => some (s.secondStore t change)
  | .leaving => some (({ s with owner := none, registered := s.callbacks } : State F Gen).goto t .idle)
  | .refreshing scope =>
    match s.managers t with
    | some manager =>
      if s.owner = none then
        some ((s.setManager t (manager.rebuildAll geometric s.snapshot)).goto t (.answering scope))
      else none
    | none => none
  | .answering _ => none

/-- What `getStepCallbacks` returns, with the manager after the step of its entry. -/
def answer (s : State F Gen) (t : Nat) : Option (StepCallbacks F × LocalCallbackManager F Gen) :=
  match s.pc t, s.managers t with
  | .answering scope, some manager =>
    let (entry, generator) := (manager.activeCallbacks scope).getActiveCallbacksImpl geometric
      manager.threadId manager.generator
    some (entry.activeCallbacks, { manager with
      activeCallbacks := update manager.activeCallbacks scope entry
      generator })
  | _, _ => none

def next (s : State F Gen) : Nat × Action F → Option (State F Gen)
  | (t, .call call) =>
    match s.pc t with
    | .idle => some (s.goto t call.start)
    | _ => none
  | (t, .step) => s.advance geometric seed t
  | (t, .ret) =>
    match s.answer geometric t with
    | some (_, manager) => some ((s.setManager t manager).goto t .idle)
    | none => none

end State

/-- The calls of all threads in every order of their steps. -/
def registration (geometric : Rat → Gen → Nat × Gen) (seed : Gen) :
    TransitionSystem (State F Gen) (Nat × Action F) where
  init s := s = {}
  step s l s' := s.next geometric seed l = some s'

end Hisab.Profiler.RecordFunctions
