import Hisab.Vectorization.ViewSteps

/-!
# Slices

A slice is inside the window of its operand unless it is not empty, goes backwards, and either
starts past the end or takes a second element.
-/

namespace Hisab.Vectorization

open Hisab.Base List Tensor Layout I64

variable {α : Type} {T : SimdTarget} {x y : Tensor} {js : List Nat} {d : Dim} {dim : Nat}
  {start stop step n : I64} {first last : Int}

/-- No `int64_t` arithmetic of the slice overflows. -/
structure SliceDefined (d : Dim) (start stop step : I64) : Prop where
  wrapped : start.val < 0 → -2 ^ 63 ≤ start.val + d.size.val
  counted : SliceRuns (sliceFirst d.size start) (Tensor.sliceStop d.size stop) step →
    |step.val| < 2 ^ 63 ∧
      |Tensor.sliceStop d.size stop - sliceFirst d.size start| + |step.val| < 2 ^ 63
  stride : -2 ^ 63 ≤ d.stride.val * step.val ∧ d.stride.val * step.val < 2 ^ 63

/-- A slice that goes backwards is empty, or it starts at an element and takes only that. -/
def SliceInside (d : Dim) (start stop step : I64) : Prop :=
  step.val < 0 → Tensor.sliceStop d.size stop < sliceFirst d.size start →
    sliceFirst d.size start < d.size.val ∧
      sliceFirst d.size start - Tensor.sliceStop d.size stop ≤ -step.val

/-- Every logical offset of a tensor lies in its window. -/
def Windowed (t : Tensor) : Prop := ∀ i < t.numel, t.logicalOffset i < t.view.size

end Hisab.Vectorization

/-!
## The law of slices

A slice is to have the elements `start'`, `start' + step`, … that lie before `stop'` in the
direction of the step. It has, unless its arithmetic overflows or it goes backwards from the
position past the end, to which `start` is clamped.
-/

namespace Hisab.Vectorization

open Hisab.Base

variable {α : Type} {T : SimdTarget} {x y : Tensor} {js : List Nat} {d : Dim} {dim : Nat}
  {start stop step n : I64} {first last : Int}

/-- `k` lies before `stop` in the direction of `step`. -/
def Before (step k stop : Int) : Prop := 0 < step ∧ k < stop ∨ step < 0 ∧ stop < k

/-- A slice that goes backwards over an element starts at one. -/
def StartsInside (d : Dim) (start stop step : I64) : Prop :=
  step.val < 0 → Tensor.sliceStop d.size stop < sliceFirst d.size start →
    sliceFirst d.size start < d.size.val

end Hisab.Vectorization
