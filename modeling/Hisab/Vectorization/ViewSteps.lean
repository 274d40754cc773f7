import Hisab.Base.LayoutViews
import Hisab.Vectorization.Contiguity

/-!
# Windows of views

The index maps of the view operations, and the condition under which a view stays inside the
storage window that its source has.
-/

namespace Hisab.Vectorization

open Hisab.Base Layout SizeT

variable {α : Type} {T : SimdTarget} {h : Heap α} {x y : Tensor} {js : List Nat} {i : Nat}

/-! ### Index maps -/

/-- The first element of a slice: a negative `start` counts from the end, and the result is
clamped to the dimension. -/
def sliceFirst (size start : I64) : Int :=
  min (max (if start.val < 0 then start.val + size.val else start.val) 0) size.val

/-- The multi-index of the operand for a multi-index of the view, if it is one. -/
def ViewOp.source (x : Tensor) : ViewOp → List Nat → Option (List Nat)
  | .t, [i, j] => some [j, i]
  | .t, _ => none
  | .permute order, js => some (Layout.unpermute order js)
  | .view dims, js | .reshape dims, js =>
    some (Layout.unravel (exactLayout x.sizesAndStrides)
      (Layout.ravel (dims.map fun n ↦ ({ size := n, stride := 0 } : Axis Int)) js))
  | .slice dim start _ step, js =>
    match x.sizesAndStrides[dim]?, js[dim]? with
    | some d, some c =>
      let k := sliceFirst d.size start + c * step.val
      if 0 ≤ k ∧ k < d.size.toSizeT then some (js.set dim k.toNat) else none
    | _, _ => none

/-- A multi-index of a tensor. -/
def Tensor.InShape (t : Tensor) (js : List Nat) : Prop :=
  Layout.InShape (exactLayout t.sizesAndStrides) js

namespace Tensor

/-- The offsets of a tensor stay inside its window. -/
structure Placed (T : SimdTarget) (t : Tensor) : Prop where
  sound : t.Sound T
  window_lt : t.view.size < SizeT.modulus
  ascending : t.numel ≠ 0 → Layout.Ascending (exactLayout t.sizesAndStrides)
  inside : t.numel ≠ 0 → Layout.extent (exactLayout t.sizesAndStrides) < t.view.size

theorem Sound.count_eq (hx : x.Sound T) (hz : x.numel ≠ 0) : count x.sizesAndStrides = x.numel :=
  (hx.numel_eq fun hnil ↦ hz (hx.numel_of_nil hnil)).symm

theorem Sound.count_ne_zero (hx : x.Sound T) (hz : x.numel ≠ 0) : count x.sizesAndStrides ≠ 0 := by
  rwa [hx.count_eq hz]

theorem Sound.packed (hx : x.Sound T) (hflag : x.contiguous = true) (hz : x.numel ≠ 0) :
    Layout.Packed (exactLayout x.sizesAndStrides) := by
  have hcount := hx.count_eq hz
  refine (packed_iff (hx.count_ne_zero hz)).mpr fun i hi ↦ (hx.contiguous_iff hz).mp hflag i ?_
  rw [← hcount]
  exact hi

/-- Every logical offset lies in the window. -/
theorem Placed.logicalOffset_lt (hx : x.Placed T) (hi : i < x.numel) :
    x.logicalOffset i < x.view.size := by
  have hz : x.numel ≠ 0 := by omega
  obtain ⟨hlow, hup⟩ := offset_bounds
    (unravel_inShape (hx.sound.count_ne_zero hz) i) (hx.ascending hz)
  have hinside := hx.inside hz
  have hlogical := hx.sound.flagExact.logical i hi
  have hwindow := hx.window_lt
  rw [exactOffset, Int.emod_eq_of_lt hlow (by omega)] at hlogical
  omega

theorem placed_recompute (hcount : count x.sizesAndStrides < SizeT.modulus)
    (hwindow : x.view.size < SizeT.modulus)
    (hgeometry : x.sizesAndStrides ≠ [] → count x.sizesAndStrides ≠ 0 →
      Layout.Ascending (exactLayout x.sizesAndStrides) ∧
        Layout.extent (exactLayout x.sizesAndStrides) < x.view.size) :
    (x.recompute T).Placed T := by
  have hsound := sound_recompute (T := T) hcount
  have hall : (x.recompute T).numel ≠ 0 → Layout.Ascending (exactLayout x.sizesAndStrides) ∧
      extent (exactLayout x.sizesAndStrides) < x.view.size := by
    intro hz
    have hnil : x.sizesAndStrides ≠ [] := fun hnil ↦
      hz (hsound.numel_of_nil (recompute_sizesAndStrides.trans hnil))
    refine hgeometry hnil fun hzero ↦ hz ?_
    rw [← hsound.count_eq hz, recompute_sizesAndStrides, hzero]
  refine ⟨hsound, by rwa [recompute_view], fun hz ↦ ?_, fun hz ↦ ?_⟩
  · rw [recompute_sizesAndStrides]
    exact (hall hz).1
  · rw [recompute_sizesAndStrides, recompute_view]
    exact (hall hz).2

/-- A view of the whole window. -/
theorem Placed.withSas {sas : SizesAndStrides} (hx : x.Placed T) (hcount : count sas < SizeT.modulus)
    (hgeometry : sas ≠ [] → count sas ≠ 0 → Layout.Ascending (exactLayout sas) ∧
      Layout.extent (exactLayout sas) < x.view.size) : (x.withSas T sas).Placed T :=
  placed_recompute hcount hx.window_lt hgeometry

end Tensor

end Hisab.Vectorization

/-!
## What one view operation does

The elements of a view are those of its operand at the mapped multi-indices, and the view stays
inside the window of its operand, as long as the operation fits.
-/

namespace Hisab.Vectorization

open Hisab.Base

variable {α : Type} {T : SimdTarget} {x y : Tensor} {js dims order : List Nat}
  {sas : SizesAndStrides}

@[simp] theorem withSas_data : (x.withSas T sas).view.data = x.view.data := by
  rw [Tensor.withSas, Tensor.ofView, Tensor.recompute_view, DataView.borrow]

@[simp] theorem withSas_size : (x.withSas T sas).view.size = x.view.size := by
  rw [Tensor.withSas, Tensor.ofView, Tensor.recompute_view, DataView.borrow]

/-! ### Permutations -/

theorem reinterpret_eq_ok {contiguous total : String}
    (hy : x.reinterpret T dims contiguous total = .ok y) :
    ∃ sas, x.contiguous = true ∧ computeTotal dims = .ok x.numel ∧
      makeContiguousSas dims = .ok sas ∧ y = x.withSas T sas := by
  obtain ⟨_, hflag, hy⟩ := bind_eq_ok.mp hy
  obtain ⟨n, htotal, hy⟩ := bind_eq_ok.mp hy
  obtain ⟨_, hn, hy⟩ := bind_eq_ok.mp hy
  obtain ⟨sas, hsas, hy⟩ := bind_eq_ok.mp hy
  rw [check_eq_ok] at hflag hn
  rw [hn] at htotal
  exact ⟨sas, hflag, htotal, hsas, (pure_eq_ok.mp hy).symm⟩

end Hisab.Vectorization
