import Hisab.Base.KeyedList
import Hisab.Base.MachineIntegers
import Hisab.Base.ThreadTable
import Hisab.Base.TransitionSystem

/-!
# The memory tracker

`memory_tracker` of `Library/Profiler/native/memory/memory_tracker.cpp`, one step for each load,
store or exchange of an atomic counter and for each section under `allocations_mutex_`. A thread is
in at most one call. The time of an allocation and the snapshots are left out.
-/

namespace Hisab.Profiler.MemoryTracker

open Base

/-- `memory_allocation` (`memory_tracker.h:87–103`). -/
structure Allocation where
  address : Nat
  size : Nat
  context : String
  threadId : Nat
  deriving DecidableEq, Repr

/-- What `reset` and `start_tracking` clear next, in the order of the source
(`memory_tracker.cpp:78–86`, `memory_tracker.cpp:239–247`). -/
inductive Clear
  | currentUsage
  | peakUsage
  | totalAllocated
  | totalDeallocated
  | activeAllocations
  deriving DecidableEq, Repr

/-- Where a thread is: in `track_allocation` (`memory_tracker.cpp:106–132`) before the load of
`tracking_`, before the insertion, before the addition to the current usage, before that to the
total, and in `update_peak_usage` (`memory_tracker.cpp:377–384`) before the load or an exchange; in
`track_deallocation` (`memory_tracker.cpp:134–158`) before the load, before the lookup, before the
subtraction and before the addition to the total; in `start_tracking` before the exchange; in a
clearing, whether that of `start_tracking`; in `stop_tracking` before the exchange. -/
inductive Place
  | idle
  | allocCalled (a : Allocation)
  | allocChecked (a : Allocation)
  | allocInserted (a : Allocation)
  | allocAdded (size newCurrent : Nat)
  | peakLoad (newCurrent : Nat)
  | peakExchange (newCurrent expectedPeak : Nat) (h : expectedPeak < newCurrent)
  | deallocCalled (ptr : Nat)
  | deallocChecked (ptr : Nat)
  | deallocErased (deallocatedSize : Nat)
  | deallocSubtracted (deallocatedSize : Nat)
  | startCalled
  | clearing (starting : Bool) (next : Clear)
  | stopCalled
  deriving DecidableEq, Repr

/-- A call, or a step of the call that the thread is in. `compare_exchange_weak` may fail
spuriously. -/
inductive Action
  | trackAllocation (ptr size : Nat) (context : String)
  | trackDeallocation (ptr : Nat)
  | reset
  | startTracking
  | stopTracking
  | advance (spurious : Bool)
  deriving DecidableEq, Repr

/-- The tracker and the places of its threads. The last three are not in the source: the pointers
that were given to `track_allocation` and not yet to `track_deallocation`, the largest value of the
current usage since it was last cleared, and whether it went below zero since then. -/
structure State where
  tracking : Bool := false
  active : List Allocation := []
  current : Nat := 0
  peak : Nat := 0
  totalAllocated : Nat := 0
  totalDeallocated : Nat := 0
  place : Nat → Place := fun _ ↦ .idle
  live : Nat → Bool := fun _ ↦ false
  maxUsage : Nat := 0
  wrapped : Bool := false

namespace State

variable (s : State) (i : Nat)

def goto (place : Place) : State := { s with place := Function.update s.place i place }

def setLive (ptr : Nat) (b : Bool) : State := { s with live := Function.update s.live ptr b }

/-- `active_allocations_[ptr] = allocation`. -/
def insert (a : Allocation) : State :=
  { s with active := a :: s.active.filter fun b ↦ b.address ≠ a.address }

def erase (ptr : Nat) : State := { s with active := s.active.filter fun a ↦ a.address ≠ ptr }

/-- `current_usage_.fetch_add(size)`. -/
def addCurrent (size : Nat) : State :=
  let current := SizeT.add s.current size
  { s with current := current, maxUsage := max s.maxUsage current }

/-- `current_usage_.fetch_sub(deallocated_size)`. -/
def subCurrent (size : Nat) : State :=
  { s with current := SizeT.sub s.current size, wrapped := s.wrapped || s.current < size }

/-- A store or the clearing of the map, and where the thread goes from there. -/
def clear (starting : Bool) : Clear → State
  | .currentUsage => { s with current := 0, maxUsage := 0, wrapped := false }.goto i
      (.clearing starting .peakUsage)
  | .peakUsage => { s with peak := 0 }.goto i (.clearing starting .totalAllocated)
  | .totalAllocated => { s with totalAllocated := 0 }.goto i (.clearing starting .totalDeallocated)
  | .totalDeallocated =>
    { s with totalDeallocated := 0 }.goto i (.clearing starting .activeAllocations)
  | .activeAllocations => { s with active := [] }.goto i .idle

/-- A step of the call that a thread is in. -/
def advance (spurious : Bool) : Option State :=
  match s.place i with
  | .idle => none
  | .allocCalled a => if s.tracking then s.goto i (.allocChecked a) else s.goto i .idle
  | .allocChecked a => (s.insert a).goto i (.allocInserted a)
  | .allocInserted a =>
    (s.addCurrent a.size).goto i (.allocAdded a.size (SizeT.add s.current a.size))
  | .allocAdded size newCurrent =>
    { s with totalAllocated := SizeT.add s.totalAllocated size }.goto i (.peakLoad newCurrent)
  | .peakLoad newCurrent =>
    if h : newCurrent > s.peak then s.goto i (.peakExchange newCurrent s.peak h)
    else s.goto i .idle
  | .peakExchange newCurrent expectedPeak _ =>
    if s.peak = expectedPeak ∧ spurious = false then { s with peak := newCurrent }.goto i .idle
    else if h : newCurrent > s.peak then s.goto i (.peakExchange newCurrent s.peak h)
    else s.goto i .idle
  | .deallocCalled ptr =>
    if s.tracking then s.goto i (.deallocChecked ptr) else (s.setLive ptr false).goto i .idle
  | .deallocChecked ptr =>
    let s' := (s.erase ptr).setLive ptr false
    match findKey Allocation.address ptr s.active with
    | some a => if a.size > 0 then s'.goto i (.deallocErased a.size) else s'.goto i .idle
    | none => s'.goto i .idle
  | .deallocErased size => (s.subCurrent size).goto i (.deallocSubtracted size)
  | .deallocSubtracted size =>
    { s with totalDeallocated := SizeT.add s.totalDeallocated size }.goto i .idle
  | .startCalled =>
    if s.tracking then s.goto i .idle
    else { s with tracking := true }.goto i (.clearing true .currentUsage)
  | .clearing starting next => s.clear i starting next
  | .stopCalled => { s with tracking := false }.goto i .idle

/-- A call, up to its first step. One for the null pointer has no effect. -/
def call : Action → Option State
  | .trackAllocation ptr size context =>
    if ptr = 0 then s
    else (s.setLive ptr true).goto i (.allocCalled ⟨ptr, size, context, i⟩)
  | .trackDeallocation ptr => if ptr = 0 then s else s.goto i (.deallocCalled ptr)
  | .reset => s.goto i (.clearing false .currentUsage)
  | .startTracking => s.goto i .startCalled
  | .stopTracking => s.goto i .stopCalled
  | .advance _ => none

/-- What thread `i < n` does next. -/
def next (n : Nat) : Nat × Action → Option State
  | (i, .advance spurious) => if i < n then s.advance i spurious else none
  | (i, action) => if i < n ∧ s.place i = .idle then s.call i action else none

end State

/-- The calls of `n` threads with their steps in every order. -/
def memoryTracker (n : Nat) : TransitionSystem State (Nat × Action) where
  init s := s = {}
  step s l s' := s.next n l = some s'

/-! ### What the calls that are in progress answer for -/

namespace Place

/-- The pointer of a `track_allocation` that has not yet added to the current usage. -/
def allocating : Place → List Nat
  | .allocCalled a | .allocChecked a | .allocInserted a => [a.address]
  | _ => []

/-- The pointer of a `track_deallocation` that has not yet looked it up. -/
def deallocating : Place → List Nat
  | .deallocCalled ptr | .deallocChecked ptr => [ptr]
  | _ => []

/-- An allocation that is in the map and not yet in the current usage. -/
def inserted : Place → List Allocation
  | .allocInserted a => [a]
  | _ => []

/-- The bytes of an allocation that is out of the map and still in the current usage. -/
def erased : Place → Nat
  | .deallocErased size => size
  | _ => 0

/-- Bytes in the current usage and not yet in the total. -/
def added : Place → Nat
  | .allocAdded size _ => size
  | _ => 0

/-- Bytes out of the current usage and not yet in the total. -/
def subtracted : Place → Nat
  | .deallocSubtracted size => size
  | _ => 0

/-- A value of the current usage that the peak is not yet compared with. -/
def reached : Place → Option Nat
  | .allocAdded _ newCurrent | .peakLoad newCurrent | .peakExchange newCurrent .. => some newCurrent
  | _ => none

/-- A `track_allocation` or `track_deallocation` past its load of `tracking_`. -/
def counting : Place → Bool
  | .allocChecked _ | .allocInserted _ | .allocAdded .. | .peakLoad _ | .peakExchange ..
  | .deallocChecked _ | .deallocErased _ | .deallocSubtracted _ => true
  | _ => false

/-- A clearing from its first store on. -/
def storing : Place → Bool
  | .clearing _ .currentUsage => false
  | .clearing .. => true
  | _ => false

/-- The clearing of a `start_tracking`. -/
def starting : Place → Bool
  | .clearing starting _ => starting
  | _ => false

end Place

namespace State

variable (n : Nat) (s : State)

def allocating : List Nat := held Place.allocating n s.place

def deallocating : List Nat := held Place.deallocating n s.place

/-- Each pointer is given to `track_allocation` at most once between its deallocations. -/
def TracksOnce (s : State) : Nat × Action → Prop
  | (_, .trackAllocation ptr _ _) => s.live ptr = false
  | _ => True

/-- From the first store of a clearing to the end of it no `track_allocation` or
`track_deallocation` is past its load of `tracking_`, and the bytes in use fit the counter. -/
def MayAdvance : Place → Prop
  | .allocCalled _ | .deallocCalled _ => s.tracking = true → ∀ j < n, (s.place j).storing = false
  | .allocInserted a => s.current + a.size < SizeT.modulus
  | .clearing _ .currentUsage => ∀ j < n, (s.place j).counting = false
  | _ => True

/-- Until a `track_allocation` has added to the current usage there is no other call for its
pointer, and a clearing does not meet a call that counts. -/
def Undisturbed : Nat × Action → Prop
  | (_, .trackAllocation ptr _ _) => ptr ∉ s.allocating n ∧ ptr ∉ s.deallocating n
  | (_, .trackDeallocation ptr) => ptr ∉ s.allocating n
  | (i, .advance _) => s.MayAdvance n (s.place i)
  | _ => True

instance : DecidablePred s.TracksOnce
  | (_, .trackAllocation ptr _ _) => inferInstanceAs (Decidable (s.live ptr = false))
  | (_, .trackDeallocation _) | (_, .reset) | (_, .startTracking) | (_, .stopTracking)
  | (_, .advance _) => isTrue trivial

instance : DecidablePred (s.MayAdvance n)
  | .allocCalled _ | .deallocCalled _ =>
    inferInstanceAs (Decidable (s.tracking = true → ∀ j < n, (s.place j).storing = false))
  | .allocInserted a => inferInstanceAs (Decidable (s.current + a.size < SizeT.modulus))
  | .clearing _ .currentUsage => inferInstanceAs (Decidable (∀ j < n, (s.place j).counting = false))
  | .clearing _ .peakUsage | .clearing _ .totalAllocated | .clearing _ .totalDeallocated
  | .clearing _ .activeAllocations | .idle | .allocChecked _ | .allocAdded .. | .peakLoad _
  | .peakExchange .. | .deallocChecked _ | .deallocErased _ | .deallocSubtracted _ | .startCalled
  | .stopCalled => isTrue trivial

instance : DecidablePred (s.Undisturbed n)
  | (_, .trackAllocation ptr _ _) =>
    inferInstanceAs (Decidable (ptr ∉ s.allocating n ∧ ptr ∉ s.deallocating n))
  | (_, .trackDeallocation ptr) => inferInstanceAs (Decidable (ptr ∉ s.allocating n))
  | (i, .advance _) => inferInstanceAs (Decidable (s.MayAdvance n (s.place i)))
  | (_, .reset) | (_, .startTracking) | (_, .stopTracking) => isTrue trivial

/-- The counters tell the active allocations. -/
structure Accounted (s : State) : Prop where
  current : s.current = (s.active.map Allocation.size).sum
  totals : SizeT.sub s.totalAllocated s.totalDeallocated = s.current
  current_le : s.current ≤ s.peak
  peak : s.peak = s.maxUsage
  wrapped : s.wrapped = false

end State
end Hisab.Profiler.MemoryTracker
