import Mathlib.Logic.Function.Basic

/-!
# Collecting the events of a session

`traceme_recorder::consume` with `ThreadLocalRecorder::Consume` and `SplitEventTracker`
(`traceme_recorder.cpp:86–134, 178–235`). The elements of a `std::deque` are objects that
keep their identity when the deque is moved; a copy of the deque has new objects, and those
of the original go when it is destroyed. A use of an object that is gone is a fault.
-/

namespace Hisab.Profiler

open Function

/-- `traceme_recorder::Event`. -/
structure Event where
  name : String
  startTime : Int
  endTime : Int
deriving Repr, DecidableEq

/-- `is_start`. -/
def Event.isStart (e : Event) : Bool := e.endTime < 0

/-- `is_end`. -/
def Event.isEnd (e : Event) : Bool := e.startTime < 0

/-- `activity_id`. -/
def Event.activityId (e : Event) : Int :=
  if e.isStart then -e.endTime else if e.isEnd then -e.startTime else 1

/-- What an end event takes from its start. -/
def Event.merge (start e : Event) : Event :=
  { e with name := start.name, startTime := start.startTime }

/-- `traceme_recorder::ThreadInfo`. -/
structure ThreadInfo where
  tid : Nat
  name : String
deriving Repr, DecidableEq

/-- The events that have been popped from one queue, or returned for it. -/
abbrev EventList := ThreadInfo × List Event

/-- Undefined behaviour. -/
inductive TraceFault
  | danglingEvent
deriving Repr, DecidableEq

/-! ### Objects -/

/-- The events that live in deques, by identity; no identity is used twice. -/
structure EventHeap where
  objects : Nat → Option Event := fun _ ↦ none
  next : Nat := 0

namespace EventHeap

variable (h : EventHeap)

/-- New objects with the identities from `next` on. -/
def allocate (es : List Event) : EventHeap where
  objects p := if p < h.next then h.objects p else es[p - h.next]?
  next := h.next + es.length

/-- The identities of the new objects of `allocate`. -/
def allocated (es : List Event) : List Nat := List.range' h.next es.length

def destroy (ps : List Nat) : EventHeap :=
  { h with objects := fun p ↦ if p ∈ ps then none else h.objects p }

def read (p : Nat) : Except TraceFault Event :=
  match h.objects p with
  | some e => .ok e
  | none => .error .danglingEvent

def readAll : List Nat → Except TraceFault (List Event)
  | [] => .ok []
  | p :: ps => do
    let e ← h.read p
    let es ← readAll ps
    return e :: es

/-- An assignment to the members of an event. -/
def write (p : Nat) (e : Event) : EventHeap := { h with objects := update h.objects p (some e) }

end EventHeap

/-! ### `SplitEventTracker` -/

/-- `SplitEventTracker`; the end events are kept by address. -/
structure SplitEventTracker where
  startEvents : Int → Option Event := fun _ ↦ none
  endEvents : List Nat := []

namespace SplitEventTracker

variable (tracker : SplitEventTracker) (h : EventHeap)

/-- `AddStart`; `emplace` leaves an entry that is there. -/
def addStart (e : Event) : SplitEventTracker :=
  match tracker.startEvents e.activityId with
  | some _ => tracker
  | none => { tracker with startEvents := update tracker.startEvents e.activityId (some e) }

/-- `FindStartAndMerge`. -/
def findStartAndMerge (p : Nat) : Except TraceFault (Bool × SplitEventTracker × EventHeap) := do
  let e ← h.read p
  match tracker.startEvents e.activityId with
  | none => return (false, tracker, h)
  | some start =>
    return (true, { tracker with startEvents := update tracker.startEvents e.activityId none },
      h.write p (start.merge e))

/-- `AddEnd`. -/
def addEnd (p : Nat) : Except TraceFault (SplitEventTracker × EventHeap) := do
  let (found, tracker, h) ← tracker.findStartAndMerge h p
  return (if found then tracker else { tracker with endEvents := tracker.endEvents ++ [p] }, h)

/-- The loop of `HandleCrossThreadEvents`. -/
def mergeAll (tracker : SplitEventTracker) (h : EventHeap) : List Nat → Except TraceFault EventHeap
  | [] => .ok h
  | p :: ps => do
    let (_, tracker, h) ← tracker.findStartAndMerge h p
    mergeAll tracker h ps

/-- `HandleCrossThreadEvents`. -/
def handleCrossThreadEvents : Except TraceFault EventHeap := mergeAll tracker h tracker.endEvents

end SplitEventTracker

/-! ### `Consume` -/

/-- The loop of `ThreadLocalRecorder::Consume` over what the queue holds, with the deque
`events`. -/
def consumeQueue (tracker : SplitEventTracker) (h : EventHeap) (events : List Nat) :
    List Event → Except TraceFault (SplitEventTracker × EventHeap × List Nat)
  | [] => .ok (tracker, h, events)
  | e :: es =>
    if e.isStart then consumeQueue (tracker.addStart e) h events es
    else
      let p := h.next
      let h := h.allocate [e]
      let events := events ++ [p]
      if e.isEnd then do
        let (tracker, h) ← tracker.addEnd h p
        consumeQueue tracker h events es
      else consumeQueue tracker h events es

/-- `traceme_recorder::ThreadEvents`. -/
structure ThreadEvents where
  thread : ThreadInfo
  events : List Nat
deriving Repr, DecidableEq

/-- What `push_back` does with the elements of the vector. -/
inductive Relocation
  | inPlace
  | moves
  | copies
deriving Repr, DecidableEq

/-- The copies of the elements of the vector. -/
def copyThreadEvents (h : EventHeap) :
    List ThreadEvents → Except TraceFault (EventHeap × List ThreadEvents)
  | [] => .ok (h, [])
  | t :: ts => do
    let es ← h.readAll t.events
    let (h', ts') ← copyThreadEvents (h.allocate es) ts
    return (h', { t with events := h.allocated es } :: ts')

/-- `result.push_back`; where the elements are copied, the originals are destroyed. -/
def pushBack (relocation : Relocation) (h : EventHeap) (result : List ThreadEvents)
    (t : ThreadEvents) : Except TraceFault (EventHeap × List ThreadEvents) :=
  match relocation with
  | .copies => do
    let (h', result') ← copyThreadEvents h result
    return (h'.destroy (result.flatMap ThreadEvents.events), result' ++ [t])
  | _ => .ok (h, result ++ [t])

/-- One recorder in the loop of `traceme_recorder::consume`; `growth` says what the vector
does with its elements when one is pushed behind that many. -/
def consumeRecorder (growth : Nat → Relocation) (tracker : SplitEventTracker) (h : EventHeap)
    (result : List ThreadEvents) (recorder : EventList) :
    Except TraceFault (SplitEventTracker × EventHeap × List ThreadEvents) := do
  let (tracker, h, events) ← consumeQueue tracker h [] recorder.2
  if events = [] then return (tracker, h, result)
  else
    let (h, result) ← pushBack (growth result.length) h result { thread := recorder.1, events }
    return (tracker, h, result)

/-- The loop of `traceme_recorder::consume` over the recorders. -/
def consumeRecorders (growth : Nat → Relocation) (tracker : SplitEventTracker) (h : EventHeap)
    (result : List ThreadEvents) :
    List EventList → Except TraceFault (SplitEventTracker × EventHeap × List ThreadEvents)
  | [] => .ok (tracker, h, result)
  | recorder :: recorders => do
    let (tracker, h, result) ← consumeRecorder growth tracker h result recorder
    consumeRecorders growth tracker h result recorders

/-- The events of the vector that is returned. -/
def readResult (h : EventHeap) : List ThreadEvents → Except TraceFault (List EventList)
  | [] => .ok []
  | t :: ts => do
    let es ← h.readAll t.events
    let rest ← readResult h ts
    return (t.thread, es) :: rest

/-- `traceme_recorder::consume`, on what each recorder's queue holds. -/
def consume (growth : Nat → Relocation) (recorders : List EventList) :
    Except TraceFault (List EventList) := do
  let (tracker, h, result) ← consumeRecorders growth {} {} [] recorders
  let h ← tracker.handleCrossThreadEvents h
  readResult h result

/-! ### What a session should give -/

/-- The starts among the events. -/
def startsOf (es : List Event) : List Event := es.filter Event.isStart

/-- The ends among the events. -/
def endsOf (es : List Event) : List Event := es.filter fun e ↦ !e.isStart && e.isEnd

/-- All events of the queues, in the order in which they are popped. -/
def allEvents (recorders : List EventList) : List Event := recorders.flatMap Prod.snd

/-- An end event with the name and the start time of its start, if there is one. -/
def pairedWith (starts : List Event) (e : Event) : Event :=
  if e.isEnd then
    match starts.find? fun start ↦ start.activityId = e.activityId with
    | some start => start.merge e
    | none => e
  else e

/-- The other events of a queue. -/
def keptOf (es : List Event) : List Event := es.filter fun e ↦ !e.isStart

/-- Every queue that has an event besides starts, with these events in order, each end
paired with its start in whatever queue that is. -/
def pairedEvents (recorders : List EventList) : List EventList :=
  (recorders.filter fun r ↦ keptOf r.2 ≠ []).map fun r ↦
    (r.1, (keptOf r.2).map (pairedWith (startsOf (allEvents recorders))))

/-- No two starts and no two ends have the same activity. -/
def UniqueIds (es : List Event) : Prop :=
  ((startsOf es).map Event.activityId).Nodup ∧ ((endsOf es).map Event.activityId).Nodup

/-- Some end has no start before it. -/
def EndBeforeStart (es : List Event) : Prop :=
  ∃ es₁ e es₂, es = es₁ ++ e :: es₂ ∧ e.isStart = false ∧ e.isEnd = true ∧
    ∀ start ∈ startsOf es₁, start.activityId ≠ e.activityId

/-- When the vector copies its elements, no end in them has been popped before its start. -/
def CopiesOnlySettled (growth : Nat → Relocation) (recorders : List EventList) : Prop :=
  ∀ before r after, recorders = before ++ r :: after → keptOf r.2 ≠ [] →
    growth (before.filter fun r ↦ keptOf r.2 ≠ []).length = .copies →
    ¬ EndBeforeStart (allEvents before)

end Hisab.Profiler
