import Hisab.Memory.AllocatorSafety

/-!
# Failing driver calls and the event queues

A failing query, device switch or event creation leaves the bookkeeping intact. Three
failures do not: of `cudaEventRecord`, which loses the handle just acquired; of the device
switch in `insert_events_locked`, which leaves the block in no container; and of
`cudaEventSynchronize` behind the first entry of a queue, whose earlier entries stay in the
queue although they have been retired.
-/

namespace Hisab.Memory
open Hisab.Base CachingConfig

/-- The condition on an operation in the state before it: rounding the request does not
wrap, no event fails to be recorded, the device can be entered to record events, and only
the first event of a queue may fail to synchronize (the first that is left, where the
ready ones are drained before). -/
def Operation.Benign (m : Machine) : Operation → Prop
  | .allocate _ size _ d => RoundingFits size ∧ Impl.FrontFails d (Impl.unready d m.impl.cudaEvents)
  | .resume _ d => Impl.FrontFails d m.impl.cudaEvents
  | .deallocate _ _ d => deviceGuard d.insertGuard = .ok () ∧ ∀ st, d.record st = .success
  | .emptyCache d => Impl.FrontFails d m.impl.cudaEvents
  | _ => True

/-- The allocator in runs whose steps all meet the condition. -/
def benignCudaAllocator : TransitionSystem Machine (Operation × Reply) :=
  cudaAllocator.restrict (fun m l ↦ l.1.Benign m)

theorem Operation.Benign.safe {m : Machine} {op : Operation} (h : op.Benign m) (reply : Reply) :
    op.Safe m reply := by
  cases op with
  | allocate t size stream d => exact ⟨h.1, fun _ ↦ h.2⟩
  | resume t d => exact fun _ ↦ h
  | deallocate p hint d => exact ⟨h.1, fun _ ↦ h.2⟩
  | emptyCache d => exact fun _ ↦ h
  | _ => trivial

theorem Operation.Ordinary.benign {op : Operation} (h : op.Ordinary) (m : Machine) :
    op.Benign m := by
  cases op with
  | allocate t size stream d => exact ⟨h.1, h.2.frontFails _⟩
  | resume t d => exact h.frontFails _
  | deallocate p hint d => exact ⟨h.insertGuard, h.record⟩
  | emptyCache d => exact h.frontFails _
  | _ => trivial

end Hisab.Memory
