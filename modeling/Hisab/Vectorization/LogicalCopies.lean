import Hisab.Vectorization.Contiguity
import Hisab.Vectorization.StorageLaws
import Mathlib.Tactic.IntervalCases

/-!
# Packed copies hold the logical elements

`gather_logical` keeps a coordinate counter and an offset along, and `operator[]` computes the
offset of a flat index by division. Both are the odometer and the unravelling of one layout, so
a packed copy has the elements of its source in order. The strides that a copy is stamped with
are products of `int64_t` that nothing checks, and the gather of a device tensor reads a copy of
its window only.
-/

namespace Hisab.Vectorization

open Hisab.Base List Nat SizeT

variable {α : Type} {d : Dim} {sas sas' : SizesAndStrides} {i : Nat}

/-! ### The odometer -/

namespace Tensor

section Host

variable (h : Heap α) (fresh : Nat → α)

end Host

variable {T : SimdTarget} {h h' : Heap α} {origin : Nat} {fresh : Nat → α} {x y : Tensor}
  {p : Pointer} {cells : Nat → α}

theorem numel_lt (hx : x.recompute T = x) : x.numel < SizeT.modulus := by
  by_cases hnil : x.sizesAndStrides = []
  · have := congrArg numel hx
    rw [recompute, if_pos hnil] at this
    rw [← this]
    exact Nat.two_pow_pos 64
  · have hnumel := congrArg numel hx
    rw [recompute_numel hnil] at hnumel
    rw [← hnumel, totalSize]
    generalize x.sizesAndStrides = sas at hnil
    cases eq_nil_or_concat sas with
    | inl heq => exact absurd heq hnil
    | inr hlast =>
      obtain ⟨front, last, rfl⟩ := hlast
      rw [concat_eq_append, foldl_append]
      exact mod_lt _ (Nat.two_pow_pos 64)

/-- A tensor that has elements has no empty dimension. -/
theorem count_ne_zero (hx : x.recompute T = x) (hpos : x.numel ≠ 0) :
    count x.sizesAndStrides ≠ 0 := by
  have hnil : x.sizesAndStrides ≠ [] := by
    intro hnil
    have := congrArg numel hx
    rw [recompute, if_pos hnil] at this
    exact hpos this.symm
  have hnumel := congrArg numel hx
  rw [recompute_numel hnil] at hnumel
  intro hzero
  apply hpos
  rw [← hnumel]
  exact totalSize_eq (hzero ▸ Nat.two_pow_pos 64) |>.trans hzero

end Tensor

end Hisab.Vectorization
