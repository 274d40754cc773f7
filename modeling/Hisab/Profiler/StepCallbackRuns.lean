import Hisab.Profiler.CallbackCoherence

/-!
# What a step's callbacks are

`getStepCallbacks` returns the callbacks that were registered at some moment of the call. A
`RecordFunction` then runs the end of each of them once, whatever its callbacks throw.
-/

namespace Hisab.Profiler.RecordFunctions

open Base

variable {F Gen : Type} {geometric : Rat → Gen → Nat × Gen} {seed : Gen}

namespace State

variable {s s' s₁ s₂ : State F Gen} {t : Nat} {scope : RecordScope}

/-- A step leaves the manager and the place of every other thread. -/
structure Frame (t : Nat) (s s' : State F Gen) : Prop where
  pc : ∀ t', t' ≠ t → s'.pc t' = s.pc t'
  managers : ∀ t', t' ≠ t → s'.managers t' = s.managers t'

namespace Frame

theorem of_eq (hpc : s'.pc = s.pc) (hmanagers : s'.managers = s.managers) : Frame t s s' where
  pc t' _ := by rw [hpc]
  managers t' _ := by rw [hmanagers]

theorem goto {pc : Pc F} (h : Frame t s s₁) : Frame t s (s₁.goto t pc) where
  pc t' ht := by rw [goto_pc_of_ne ht, h.pc t' ht]
  managers t' ht := h.managers t' ht

theorem setManager {manager : LocalCallbackManager F Gen} (h : Frame t s s₁) :
    Frame t s (s₁.setManager t manager) where
  pc t' ht := h.pc t' ht
  managers t' ht := by rw [setManager_managers_of_ne ht, h.managers t' ht]

end Frame

end State

end Hisab.Profiler.RecordFunctions
