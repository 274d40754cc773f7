import Mathlib.Algebra.BigOperators.GroupWithZero.Action
import Mathlib.Tactic.Ring

/-!
# Strided layouts

A layout is a list of axes, the outermost first, each with a size and a stride. A flat index
is unravelled in C order into one coordinate for each axis, and the offset of a coordinate
tuple is its stride-weighted sum. The strides are taken in any semiring: in `ℤ` offsets are
exact, in `ZMod (2 ^ 64)` they are those of a machine.
-/

namespace Hisab.Base

open Nat

universe u

/-- One axis of a layout. -/
structure Axis (R : Type u) where
  size : Nat
  stride : R

namespace Layout

variable {R : Type u} {a : Axis R} {l : List (Axis R)} {c i j : Nat} {cs : List Nat}

/-- The number of coordinate tuples. -/
def numel (l : List (Axis R)) : Nat := (l.map Axis.size).prod

/-- The coordinates of the `i`-th tuple in C order. -/
def unravel : List (Axis R) → Nat → List Nat
  | [], _ => []
  | a :: l, i => i / numel l % a.size :: unravel l i

/-- The position of a coordinate tuple in C order. -/
def ravel : List (Axis R) → List Nat → Nat
  | _ :: l, c :: cs => c * numel l + ravel l cs
  | _, _ => 0

/-- Each coordinate is below the size of its axis. -/
def InShape (l : List (Axis R)) (cs : List Nat) : Prop := List.Forall₂ (fun a c ↦ c < a.size) l cs

@[simp] theorem numel_nil : numel ([] : List (Axis R)) = 1 := rfl

@[simp] theorem numel_cons : numel (a :: l) = a.size * numel l := by simp [numel]

theorem InShape.length_eq (h : InShape l cs) : l.length = cs.length := List.Forall₂.length_eq h

theorem unravel_inShape (h : numel l ≠ 0) (i : Nat) : InShape l (unravel l i) := by
  induction l with
  | nil => exact .nil
  | cons a l ih =>
    obtain ⟨ha, hl⟩ := mul_ne_zero_iff.mp h
    exact .cons (mod_lt _ (pos_of_ne_zero ha)) (ih hl)

/-- The coordinates of the inner axes repeat. -/
theorem unravel_add_mul (l : List (Axis R)) (i k : Nat) :
    unravel l (i + k * numel l) = unravel l i := by
  induction l generalizing k with
  | nil => rfl
  | cons a l ih =>
    have hmul : k * numel (a :: l) = k * a.size * numel l := by rw [numel_cons, mul_assoc]
    rw [unravel, unravel, hmul, ih]
    by_cases hz : numel l = 0
    · simp [hz]
    · rw [add_mul_div_right _ _ (pos_of_ne_zero hz), add_mul_mod_self_right]

theorem ravel_unravel (l : List (Axis R)) (h : i < numel l) : ravel l (unravel l i) = i := by
  induction l generalizing i with
  | nil => exact (lt_one_iff.mp h).symm
  | cons a l ih =>
    have hpos : 0 < numel l := pos_of_ne_zero fun hz ↦ by simp [hz] at h
    have hmod : unravel l i = unravel l (i % numel l) := by
      conv_lhs => rw [← mod_add_div i (numel l), mul_comm]
      exact unravel_add_mul l _ _
    have hdiv : i / numel l < a.size := Nat.div_lt_of_lt_mul (by rwa [mul_comm])
    rw [unravel, ravel, hmod, ih (mod_lt _ hpos), mod_eq_of_lt hdiv]
    exact div_add_mod' i _

section Offsets

variable [Semiring R]

/-- The stride-weighted sum of a coordinate tuple. -/
def offset : List (Axis R) → List Nat → R
  | a :: l, c :: cs => c * a.stride + offset l cs
  | _, _ => 0

/-- Flat indexing works: an axis of more than one coordinate has the stride of a packed
array. -/
def Packed : List (Axis R) → Prop
  | [] => True
  | a :: l => Packed l ∧ (a.size = 1 ∨ a.stride = (numel l : R))

/-- In a packed layout the offset of a tuple is its position. -/
theorem Packed.offset_eq (hp : Packed l) (h : InShape l cs) : offset l cs = (ravel l cs : R) := by
  induction h with
  | nil => simp [offset, ravel]
  | @cons a c l cs hc _ ih =>
    obtain ⟨hl, ha⟩ := hp
    rw [offset, ravel, ih hl, cast_add, cast_mul]
    rcases ha with ha | ha
    · obtain rfl : c = 0 := by omega
      simp
    · rw [ha]

/-- A layout is packed exactly if the `i`-th element is at offset `i`. -/
theorem packed_iff (h : numel l ≠ 0) :
    Packed l ↔ ∀ i < numel l, offset l (unravel l i) = (i : R) := by
  constructor
  · intro hp i hi
    rw [hp.offset_eq (unravel_inShape h i), ravel_unravel l hi]
  · induction l with
    | nil => exact fun _ ↦ trivial
    | cons a l ih =>
      intro hflat
      rw [numel_cons] at h hflat
      obtain ⟨ha, hl⟩ := mul_ne_zero_iff.mp h
      have hinner : ∀ i < numel l, offset l (unravel l i) = (i : R) := fun i hi ↦ by
        have := hflat i (lt_of_lt_of_le hi (Nat.le_mul_of_pos_left _ (pos_of_ne_zero ha)))
        simpa [unravel, offset, div_eq_of_lt hi] using this
      refine ⟨ih hl hinner, or_iff_not_imp_left.mpr fun hone ↦ ?_⟩
      -- the first element whose coordinate on `a` is 1 is at the stride of `a`
      have hsize : 1 < a.size := by omega
      have hpos := pos_of_ne_zero hl
      have hlt : numel l < a.size * numel l := (lt_mul_iff_one_lt_left hpos).mpr hsize
      have hzero : offset l (unravel l (numel l)) = 0 := by
        have hrepeat := unravel_add_mul l 0 1
        rw [zero_add, one_mul] at hrepeat
        rw [hrepeat, hinner 0 hpos, cast_zero]
      have := hflat (numel l) hlt
      rwa [unravel, offset, Nat.div_self hpos, mod_eq_of_lt hsize, cast_one, one_mul,
        hzero, add_zero] at this

end Offsets

end Layout

end Hisab.Base

/-!
## The odometer of a strided layout

A coordinate tuple is advanced to the next one in C order by a carry that runs from the
innermost axis out, and its offset is kept along: a stride is added for the coordinate that
goes up, and a whole row is taken back where one falls to zero. The offsets so met are those
of the unravelled flat indices.
-/

namespace Hisab.Base

universe u

namespace Layout

variable {R : Type u}

/-- The next coordinate tuple and its offset. The flag tells that the outermost axis fell back
to zero. -/
def advance [CommRing R] : List (Axis R) → List Nat → R → List Nat × R × Bool
  | a :: l, c :: cs, off =>
    match advance l cs off with
    | (cs, off, true) =>
      if c + 1 < a.size then ((c + 1) :: cs, off + a.stride, false)
      else (0 :: cs, off + a.stride - (c + 1 : Nat) * a.stride, true)
    | (cs, off, false) => (c :: cs, off, false)
  | _, _, off => ([], off, true)

end Layout

end Hisab.Base
