import Hisab.Memory.EventErrors

/-!
# The contract of `record_stream`

The allocator beside a device that works through its streams: the runtime reports an event
complete only when the work it was recorded behind is. A block handed back after a use on
another stream is in quarantine until the work pending on that stream has completed, and
memory in quarantine is not handed out. The default stream, `nullptr`, is no such stream:
`record_stream` ignores it.
-/

namespace Hisab.Memory
open Hisab.Base CachingConfig Function Option

/-- The allocator, and the amount of each stream's work that has completed. -/
structure Device where
  machine : Machine := {}
  completed : Stream → Nat := fun _ ↦ 0

/-- The call ended because an event could not be recorded, queried or synchronized. -/
def Reply.EventCallFailed (reply : Reply) : Prop :=
  ∃ what code, reply = .threw (.runtimeError what code) ∧
    what ∈ ["cudaEventRecord", "cudaEventQuery", "cudaEventSynchronize"]

/-- Rounding the request does not wrap, and the device can be entered to record events. -/
def Operation.Fits : Operation → Prop
  | .allocate _ size _ _ => RoundingFits size
  | .deallocate _ _ d => deviceGuard d.insertGuard = .ok ()
  | _ => True

/-- The allocator on a device. Work completes at any time, and an event that is reported
complete by the end of a step is. -/
def gpuAllocator : TransitionSystem Device (Operation × Reply) where
  init g := cudaAllocator.init g.machine ∧ g.completed = fun _ ↦ 0
  step g l g' :=
    cudaAllocator.step g.machine l g'.machine ∧ l.1.Fits ∧ ¬ l.2.EventCallFailed ∧
      (∀ st, g.completed st ≤ g'.completed st ∧ g'.completed st ≤ g'.machine.impl.submitted st) ∧
      ∀ e, l.1.Completes e →
        (g.machine.impl.recorded e).2 ≤ g'.completed (g.machine.impl.recorded e).1

namespace Device

variable {g g' : Device} {op : Operation} {reply : Reply} {b : BlockId} {p size t n : Nat}
  {work : Stream × Nat}

theorem safe_of_no_failure {m : Machine} (hf : op.Fits) (hr : ¬ reply.EventCallFailed) :
    op.Safe m reply := by
  have hsync : ¬ reply.Threw Impl.SynchronizeFailure := by
    rintro ⟨x, hx, code, rfl⟩
    exact hr ⟨_, code, hx, by simp⟩
  have hrec : ¬ reply.Threw Impl.RecordFailure := by
    rintro ⟨x, hx, code, rfl⟩
    exact hr ⟨_, code, hx, by simp⟩
  cases op with
  | allocate t size stream d => exact ⟨hf, fun hx ↦ absurd hx hsync⟩
  | resume t d => exact fun hx ↦ absurd hx hsync
  | deallocate p hint d => exact ⟨hf, fun hx ↦ absurd hx hrec⟩
  | emptyCache d => exact fun hx ↦ absurd hx hsync
  | _ => trivial

theorem step_spec (h : g.machine.Consistent) (hs : gpuAllocator.step g (op, reply) g') :
    Machine.StepSpec g.machine op reply g'.machine :=
  Machine.step_spec h hs.1.1 hs.1.2 (safe_of_no_failure hs.2.1 hs.2.2.1)

theorem consistent_of_reachable (h : gpuAllocator.Reachable g) : g.machine.Consistent := by
  refine h.invariant (I := fun g ↦ g.machine.Consistent) ?_ ?_
  · rintro g ⟨⟨maxCachedBytes, hm⟩, _⟩
    rw [hm]
    exact Machine.initial_consistent maxCachedBytes
  · rintro g ⟨op, reply⟩ g' hg hs
    exact (step_spec hg hs).consistent

/-! ### Quarantine -/

/-- The memory is in quarantine, unless the work it waits for has completed. -/
def Protected (g : Device) (b : BlockId) (p size : Nat) (work : Stream × Nat) : Prop :=
  work.2 ≤ g.completed work.1 ∨ g.machine.impl.Quarantined b p size work

/-- A step leaves quarantine only to completed work. -/
theorem Protected.step (h : g.Protected b p size work) (hg : g.machine.Consistent)
    (hs : gpuAllocator.step g (op, reply) g') : g'.Protected b p size work := by
  obtain ⟨_, _, _, hmono, htrue⟩ := id hs
  rcases h with hdone | hq
  · exact .inl (Nat.le_trans hdone (hmono _).1)
  · rcases hq.retains (step_spec hg hs).retains with ⟨e, he, hrec⟩ | hq'
    · have := htrue e he
      rw [hrec] at this
      exact .inl this
    · exact .inr hq'

theorem Protected.run {ls : List (Operation × Reply)} (h : g.Protected b p size work)
    (hg : g.machine.Consistent) (hr : gpuAllocator.Run g ls g') : g'.Protected b p size work := by
  have hboth := hr.invariant (I := fun g ↦ g.machine.Consistent ∧ g.Protected b p size work)
    (fun s l t hs hl ↦ ⟨(step_spec hs.1 hl).consistent, hs.2.step hs.1 hl⟩) ⟨hg, h⟩
  exact hboth.2

/-- The live block at `p` has been used on stream `t`. -/
def UsedOn (g : Device) (b : BlockId) (p size : Nat) (t : Stream) : Prop :=
  ∃ B, g.machine.impl.heap b = some B ∧ B.allocated = true ∧ B.ptr = p ∧ B.size = size ∧
    t ∈ B.streamUses

theorem UsedOn.step (h : g.UsedOn b p size t) (hg : g.machine.Consistent)
    (hs : gpuAllocator.step g (op, reply) g')
    (hheld : g'.machine.impl.allocatedBlocks.lookup p = some b) : g'.UsedOn b p size t := by
  obtain ⟨B, hB, hal, rfl, rfl, ht⟩ := h
  have hkeep : ∃ B', g'.machine.impl.heap b = some B' ∧ B'.allocated = true ∧ B'.ptr = B.ptr ∧
      B'.size = B.size ∧ B'.stream = B.stream ∧ ∀ st ∈ B.streamUses, st ∈ B'.streamUses := by
    by_cases hgive : op.Gives B.ptr
    · -- the call that would have freed the block has not come to it
      obtain ⟨hint, d, rfl⟩ := hgive
      obtain ⟨⟨_, hr⟩, hfit, hfail, _⟩ := hs
      have hsafe := safe_of_no_failure (m := g.machine) hfit hfail
      rcases hi : g.machine.impl.deallocate d B.ptr hint with ⟨reply', r⟩
      simp only [Machine.run, hi, some.injEq, Prod.mk.injEq] at hr
      obtain ⟨rfl, hm⟩ := hr
      rw [← hm] at hheld ⊢
      exact ((Impl.deallocate_frees hg.impl hfit hi
        (fun x hx hf ↦ hsafe.2 ⟨x, hx, hf⟩)).held b hheld).live b B hB hal not_false
    · exact (step_spec hg hs).retains.live b B hB hal hgive
  obtain ⟨B', hB', hal', hp, hsize, _, huses⟩ := hkeep
  exact ⟨B', hB', hal', hp, hsize, huses t ht⟩

end Device

end Hisab.Memory
