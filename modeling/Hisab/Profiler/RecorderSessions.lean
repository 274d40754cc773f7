import Hisab.Base.TransitionSystem
import Hisab.Profiler.SplitEvents

/-!
# Sessions of the recorder

`traceme_recorder::start`, `stop` and `record` (`traceme_recorder.cpp:171–276`) with the
registry of recorders (`per_thread.h:97–152`) and any number of threads. A step is one access
of the level, one locked region of the registry, or one operation of a recorder's queue. The
log has what has happened in order, and an event in a queue carries its place in the log;
what a call of `stop` takes is given before split activities are paired.
-/

namespace Hisab.Profiler

open Base Function

/-- `kTracingDisabled`. -/
def kTracingDisabled : Int := -1

/-- An event and its place in the log. -/
abbrev Stamped := Nat × Event

/-- The events of one call of `stop`, for each recorder that has any. -/
abbrev SessionEvents := List (Nat × List Stamped)

/-- A thread that records: its recorder is created and registered by its first `record` and
unregistered when it ends. -/
inductive ProducerThread
  | unregistered
  | live
  | exited
deriving Repr, DecidableEq

/-- Where a call of `start` or `stop` is. `clear` and `consume` have the recorders that are
left; the `clear` of a queue has the number of events up to the `end` that it has read. -/
inductive ControlCall
  | absent
  | startCalled (level : Int)
  | startRecording
  | clearing (recorders : List Nat) (left : Option Nat)
  | stopCalled
  | stopRecording
  | consuming (recorders : List Nat) (events : List Stamped) (result : SessionEvents)
  | returned
deriving Repr, DecidableEq

/-- The call has changed the level and has not returned. -/
def ControlCall.underWay : ControlCall → Bool
  | .startRecording | .clearing _ _ | .stopRecording | .consuming _ _ _ => true
  | _ => false

/-- The queue that the call pops or clears. -/
def ControlCall.queue? : ControlCall → Option Nat
  | .clearing (r :: _) _ | .consuming (r :: _) _ _ => some r
  | _ => none

/-- What has happened: a push, a call, its change of the level, its return. -/
inductive SessionEntry
  | recorded (recorder : Nat) (event : Event)
  | startCalled (c : Nat)
  | started (c : Nat)
  | startReturned (c : Nat) (result : Bool)
  | stopCalled (c : Nat)
  | stopped (c : Nat)
  | stopReturned (c : Nat) (result : SessionEvents)
deriving Repr, DecidableEq

/-- `g_trace_level`, `threads_` and `recording_` of the registry, the queues, and the threads. -/
structure SessionState where
  level : Int := kTracingDisabled
  threads : List (Nat × Bool) := []
  recording : Bool := false
  queues : Nat → List Stamped := fun _ ↦ []
  producers : Nat → ProducerThread := fun _ ↦ .unregistered
  calls : Nat → ControlCall := fun _ ↦ .absent
  log : List SessionEntry := []

/-- The steps. A snapshot of the registry has its recorders in any order. -/
inductive SessionStep
  | register (t : Nat)
  | record (t : Nat) (event : Event)
  | exit (t : Nat)
  | start (c : Nat) (level : Int)
  | stop (c : Nat)
  | advance (c : Nat) (order : List Nat)
deriving Repr, DecidableEq

namespace SessionState

variable (s : SessionState)

/-- The keys of `threads_`. -/
def registered : List Nat := s.threads.map Prod.fst

def setCall (c : Nat) (call : ControlCall) : SessionState :=
  { s with calls := update s.calls c call }

def setQueue (r : Nat) (q : List Stamped) : SessionState := { s with queues := update s.queues r q }

def logged (entry : SessionEntry) : SessionState := { s with log := s.log ++ [entry] }

section Frame

variable {c c' r r' : Nat} {call : ControlCall} {q : List Stamped} {entry : SessionEntry}

@[simp] theorem setCall_self : (s.setCall c call).calls c = call := update_self ..

@[simp] theorem setCall_of_ne (h : c' ≠ c) : (s.setCall c call).calls c' = s.calls c' := 
  update_of_ne h ..

@[simp] theorem setCall_queues : (s.setCall c call).queues = s.queues := rfl

@[simp] theorem setCall_log : (s.setCall c call).log = s.log := rfl

@[simp] theorem setQueue_self : (s.setQueue r q).queues r = q := update_self ..

@[simp] theorem setQueue_of_ne (h : r' ≠ r) : (s.setQueue r q).queues r' = s.queues r' := 
  update_of_ne h ..

@[simp] theorem setQueue_calls : (s.setQueue r q).calls = s.calls := rfl

@[simp] theorem setQueue_log : (s.setQueue r q).log = s.log := rfl

@[simp] theorem logged_log : (s.logged entry).log = s.log ++ [entry] := rfl

@[simp] theorem logged_queues : (s.logged entry).queues = s.queues := rfl

@[simp] theorem logged_calls : (s.logged entry).calls = s.calls := rfl

end Frame

/-- `Register`. -/
def register (t : Nat) : SessionState :=
  { s with
    threads := s.threads.filter (fun entry ↦ entry.1 ≠ t) ++ [(t, true)]
    producers := update s.producers t .live }

/-- `record`: the push of an event. -/
def record (t : Nat) (event : Event) : SessionState :=
  (s.setQueue t (s.queues t ++ [(s.log.length, event)])).logged (.recorded t event)

/-- `Unregister`. -/
def unregister (t : Nat) : SessionState :=
  { s with
    threads :=
      if s.recording then s.threads.map fun entry ↦ if entry.1 = t then (t, false) else entry
      else s.threads.filter fun entry ↦ entry.1 ≠ t
    producers := update s.producers t .exited }

section Threads

variable {t t' : Nat}

@[simp] theorem register_of_ne (h : t' ≠ t) : (s.register t).producers t' = s.producers t' :=
  update_of_ne h ..

@[simp] theorem unregister_self : (s.unregister t).producers t = .exited := update_self ..

@[simp] theorem unregister_of_ne (h : t' ≠ t) :
    (s.unregister t).producers t' = s.producers t' := update_of_ne h ..

end Threads

/-- The compare-and-exchange of `start`, `traceme_recorder.cpp:242–258`. -/
def compareExchange (c : Nat) (level : Int) : SessionState :=
  if s.level = kTracingDisabled then
    ({ s with level := level }.setCall c .startRecording).logged (.started c)
  else (s.setCall c .returned).logged (.startReturned c false)

/-- `StartRecording`. -/
def startRecording (c : Nat) (order : List Nat) : SessionState :=
  { s with recording := true }.setCall c (.clearing order none)

/-- The next operation of `clear`. -/
def clearStep (c : Nat) : List Nat → Option Nat → SessionState
  | [], _ => (s.setCall c .returned).logged (.startReturned c true)
  | r :: rs, none => s.setCall c (.clearing (r :: rs) (some (s.queues r).length))
  | _ :: rs, some 0 => s.setCall c (.clearing rs none)
  | r :: rs, some (left + 1) =>
    (s.setQueue r (s.queues r).tail).setCall c (.clearing (r :: rs) (some left))

/-- The exchange of `stop`, `traceme_recorder.cpp:265–276`. -/
def exchange (c : Nat) : SessionState :=
  if s.level ≠ kTracingDisabled then
    ({ s with level := kTracingDisabled }.setCall c .stopRecording).logged (.stopped c)
  else (s.setCall c .returned).logged (.stopReturned c [])

/-- `StopRecording`. -/
def stopRecording (c : Nat) (order : List Nat) : SessionState :=
  { s with threads := s.threads.filter Prod.snd, recording := false }.setCall c
    (.consuming order [] [])

/-- The next operation of `consume`: a pop, whose failure ends the queue. -/
def consumeStep (c : Nat) (events : List Stamped) (result : SessionEvents) : List Nat → SessionState
  | [] => (s.setCall c .returned).logged (.stopReturned c result)
  | r :: rs =>
    match s.queues r with
    | event :: queue =>
      (s.setQueue r queue).setCall c (.consuming (r :: rs) (events ++ [event]) result)
    | [] => s.setCall c (.consuming rs [] (if events = [] then result else result ++ [(r, events)]))

/-- The next step of a call. -/
def advance (c : Nat) (order : List Nat) : Option SessionState :=
  match s.calls c with
  | .startCalled level => some (s.compareExchange c level)
  | .startRecording => if order.Perm s.registered then some (s.startRecording c order) else none
  | .clearing recorders left => some (s.clearStep c recorders left)
  | .stopCalled => some (s.exchange c)
  | .stopRecording => if order.Perm s.registered then some (s.stopRecording c order) else none
  | .consuming recorders events result => some (s.consumeStep c events result recorders)
  | .absent | .returned => none

/-- One step, if it can be taken. -/
def step : SessionStep → Option SessionState
  | .register t => if s.producers t = .unregistered then some (s.register t) else none
  | .record t event => if s.producers t = .live then some (s.record t event) else none
  | .exit t => if s.producers t = .live then some (s.unregister t) else none
  | .start c level =>
    if s.calls c = .absent then
      some ((s.setCall c (.startCalled (if level > 0 then level else 0))).logged (.startCalled c))
    else none
  | .stop c =>
    if s.calls c = .absent then some ((s.setCall c .stopCalled).logged (.stopCalled c)) else none
  | .advance c order => s.advance c order

/-- The next step of the call changes the level. -/
def TakesEffect (c : Nat) : Prop :=
  (∃ level, s.calls c = .startCalled level) ∧ s.level = kTracingDisabled ∨
    s.calls c = .stopCalled ∧ s.level ≠ kTracingDisabled

end SessionState

/-- The recorder with its threads. -/
def traceRecorder : TransitionSystem SessionState SessionStep where
  init s := s = {}
  step s l s' := s.step l = some s'

/-- A call changes the level only when no other call that has changed it is under way. -/
def SessionsApart (s : SessionState) : SessionStep → Prop
  | .advance c _ => s.TakesEffect c → ∀ c', (s.calls c').underWay = false
  | _ => True

/-! ### What sessions should guarantee -/

/-- What a call of `stop` has taken from the queue of `r`. -/
def eventsOf (result : SessionEvents) (r : Nat) : List Stamped :=
  (result.filter fun entry ↦ entry.1 = r).flatMap Prod.snd

/-- What all calls of `stop` have returned from the queue of `r`, one after the other. -/
def returnedOf (log : List SessionEntry) (r : Nat) : List Stamped :=
  log.flatMap fun
    | SessionEntry.stopReturned _ result => eventsOf result r
    | _ => []

/-- The level has not changed between these places of the log. -/
def UnchangedBetween (log : List SessionEntry) (i j : Nat) : Prop :=
  ∀ k c : Nat, i < k → k < j → log[k]? ≠ some (.started c) ∧ log[k]? ≠ some (.stopped c)

/-- `start` call `c₁` has set the level at `i`, and `stop` call `c₂` is the next to reset it,
at `j`. -/
structure Matching (log : List SessionEntry) (c₁ c₂ i j : Nat) : Prop where
  started : log[i]? = some (.started c₁)
  stopped : log[j]? = some (.stopped c₂)
  lt : i < j
  unchanged : UnchangedBetween log i j

/-- The events that a `stop` returns belong to its session: none that was recorded before
the matching `start` was called, and every one that was recorded after that had returned and
before this was called, once and in order. -/
def SessionsIsolated (log : List SessionEntry) : Prop :=
  ∀ (c₁ c₂ i j k : Nat) (result : SessionEvents), Matching log c₁ c₂ i j → log[k]? = some (.stopReturned c₂ result) →
    (∀ r, ((eventsOf result r).map Prod.fst).Pairwise (· < ·)) ∧
    (∀ r n e, (n, e) ∈ eventsOf result r → log[n]? = some (.recorded r e) ∧
      ∀ a : Nat, log[a]? = some (.startCalled c₁) → a < n) ∧
    ∀ b d : Nat, log[b]? = some (.startReturned c₁ true) → log[d]? = some (.stopCalled c₂) →
      ∀ n r e, b < n → n < d → log[n]? = some (.recorded r e) → (n, e) ∈ eventsOf result r

/-- No queue is popped or cleared by two threads, no event is returned twice, and sessions
are isolated. -/
structure SessionState.Guarantees (s : SessionState) : Prop where
  exclusive : ∀ c c' r, (s.calls c).queue? = some r → (s.calls c').queue? = some r → c = c'
  returned_once : ∀ r, ((returnedOf s.log r).map Prod.fst).Pairwise (· < ·)
  isolated : SessionsIsolated s.log

end Hisab.Profiler
