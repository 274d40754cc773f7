import Hisab.Base.StridedLayout
import Mathlib.Tactic.Linarith
import Mathlib.Tactic.LinearCombination

/-!
# Views of strided layouts

A layout over `ℤ` whose axes ascend has all its offsets between zero and its extent. The axes
of a view are permuted, or one of them is thinned out to every `step`-th coordinate; the
coordinates of the view are mapped back so that offsets are kept.
-/

namespace Hisab.Base.Layout

open List Nat

variable {l l' : List (Axis Int)} {a : Axis Int} {cs js order : List Nat} {dim n k : Nat}
  {first step : Int}

/-! ### Extents -/

/-- The offset of the last element. -/
def extent : List (Axis Int) → Int
  | [] => 0
  | a :: l => (a.size - 1) * a.stride + extent l

/-- An axis of more than one coordinate has a positive stride. -/
def Ascending (l : List (Axis Int)) : Prop := ∀ a ∈ l, 1 < a.size → 0 < a.stride

@[simp] theorem extent_cons : extent (a :: l) = (a.size - 1) * a.stride + extent l := rfl

theorem Ascending.perm (hl : Ascending l) (h : l'.Perm l) : Ascending l' :=
  fun a ha ↦ hl a (h.mem_iff.mp ha)

theorem ascending_cons : Ascending (a :: l) ↔ (1 < a.size → 0 < a.stride) ∧ Ascending l :=
  forall_mem_cons

/-- Offsets in an ascending layout are between zero and its extent. -/
theorem offset_bounds (h : InShape l cs) (hl : Ascending l) :
    0 ≤ offset l cs ∧ offset l cs ≤ extent l := by
  induction h with
  | nil => exact ⟨le_refl 0, le_refl 0⟩
  | @cons a c l cs hc _ ih =>
    obtain ⟨ha, hl⟩ := ascending_cons.mp hl
    obtain ⟨hlow, hup⟩ := ih hl
    have hterm : 0 ≤ (c : Int) * a.stride ∧ (c : Int) * a.stride ≤ (a.size - 1) * a.stride := by
      by_cases hsize : 1 < a.size
      · have hpos := (ha hsize).le
        exact ⟨mul_nonneg (by omega) hpos, mul_le_mul_of_nonneg_right (by omega) hpos⟩
      · obtain rfl : c = 0 := by omega
        have hone : (a.size : Int) - 1 = 0 := by omega
        rw [hone]
        simp
    rw [offset, extent_cons]
    omega

/-- The last element of a packed layout. -/
theorem Packed.extent_eq (hp : Packed l) (h : numel l ≠ 0) : extent l = numel l - 1 := by
  induction l with
  | nil => rfl
  | cons a l ih =>
    rw [numel_cons] at h ⊢
    obtain ⟨ha, hl⟩ := mul_ne_zero_iff.mp h
    obtain ⟨hinner, hstride⟩ := hp
    rw [extent_cons, ih hinner hl]
    rcases hstride with hone | hstride
    · rw [hone]
      simp
    · rw [hstride]
      push_cast
      ring

theorem Packed.ascending (hp : Packed l) (h : numel l ≠ 0) : Ascending l := by
  induction l with
  | nil => exact fun a ha ↦ absurd ha not_mem_nil
  | cons a l ih =>
    obtain ⟨-, hl⟩ := mul_ne_zero_iff.mp h
    refine ascending_cons.mpr ⟨fun hsize ↦ ?_, ih hp.1 hl⟩
    rw [hp.2.resolve_left (by omega)]
    exact Int.natCast_pos.mpr (pos_of_ne_zero hl)

/-! ### Permuted axes -/

/-- The coordinates of the source for coordinates of a view whose axis `k` is axis `order[k]`. -/
def unpermute (order js : List Nat) : List Nat :=
  (List.range order.length).map fun axis ↦ js.getD (order.idxOf axis) 0

section Permute

variable (hpicks : List.Forall₂ (fun src a ↦ l[src]? = some a) order l')
  (hperm : order.Perm (List.range l.length))

include hpicks hperm

end Permute

/-! ### Single axes -/

section Axis

variable {c : Nat} (hdim : l[dim]? = some a)

include hdim

end Axis

/-! ### Sliced axes -/

section Slice

variable {b : Axis Int} {c : Nat} (hdim : l[dim]? = some a)

include hdim

omit hdim in
theorem Ascending.set (hl : Ascending l) (hb : 1 < b.size → 0 < b.stride) :
    Ascending (l.set dim b) := by
  intro d hd
  rcases mem_or_eq_of_mem_set hd with hd | rfl
  · exact hl d hd
  · exact hb

end Slice

end Hisab.Base.Layout
