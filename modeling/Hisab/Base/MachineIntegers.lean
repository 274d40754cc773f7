import Mathlib.Data.ZMod.Basic

/-!
# Unsigned machine arithmetic modulo `2^64`

The sizes and byte counters of the sources are `std::size_t` values. They are modelled by
`Nat` with an explicit reduction, and the laws below remove the reduction where the exact
result is in range.
-/

namespace Hisab.Base.SizeT

open Nat

/-- One more than the largest `size_t`. -/
def modulus : Nat := 2 ^ 64

/-- `std::numeric_limits<size_t>::max()`. -/
def max : Nat := modulus - 1

/-- `a + b` in `size_t`. -/
def add (a b : Nat) : Nat := (a + b) % modulus

/-- `a - b` in `size_t`; an underflow wraps. -/
def sub (a b : Nat) : Nat := (a + (modulus - b % modulus)) % modulus

/-- `a * b` in `size_t`. -/
def mul (a b : Nat) : Nat := (a * b) % modulus

variable {a b : Nat}

theorem add_eq (h : a + b < modulus) : add a b = a + b := mod_eq_of_lt h

theorem mul_eq (h : a * b < modulus) : mul a b = a * b := mod_eq_of_lt h

/-- A subtraction that does not underflow is exact. -/
theorem sub_eq (h : b ≤ a) (ha : a < modulus) : sub a b = a - b := by
  have hb : b % modulus = b := mod_eq_of_lt (by omega)
  rw [sub, hb]
  have he : a + (modulus - b) = (a - b) + modulus := by omega
  rw [he, add_mod_right]
  exact mod_eq_of_lt (by omega)

/-- The sum of representatives is the representative of the sum. -/
theorem add_mod (a b : Nat) : add (a % modulus) b = (a + b) % modulus := mod_add_mod a modulus b

/-- The distance of two values less than `2^64` apart is that of their representatives. -/
theorem sub_mod (h : b ≤ a) (hd : a - b < modulus) : sub (a % modulus) (b % modulus) = a - b := by
  have hb : b % modulus < modulus := mod_lt _ (by decide)
  have hdiv := div_add_mod b modulus
  rw [sub, mod_mod, mod_add_mod]
  have he : a + (modulus - b % modulus) = (a - b) + modulus * (b / modulus + 1) := by
    rw [mul_add_one]
    omega
  rw [he, add_mul_mod_self_left, mod_eq_of_lt hd]

/-- A difference that is known modulo `2^64`. -/
theorem sub_eq_of_modEq {a b c : Nat} (h : a ≡ c + b [MOD modulus]) (hc : c < modulus) :
    sub a b = c := by
  have hb : b % modulus < modulus := mod_lt _ (by decide)
  have hsum : b % modulus + (modulus - b % modulus) = modulus := by omega
  have hsub : a + (modulus - b % modulus) ≡ c + b % modulus + (modulus - b % modulus)
      [MOD modulus] := (h.trans ((mod_modEq b modulus).symm.add_left c)).add_right _
  rw [add_assoc c, hsum] at hsub
  have heq : sub a b = (c + modulus) % modulus := hsub
  rw [heq, add_mod_right, mod_eq_of_lt hc]

theorem add_lt (a b : Nat) : add a b < modulus := mod_lt _ (by decide)

theorem sub_lt (a b : Nat) : sub a b < modulus := mod_lt _ (by decide)

end Hisab.Base.SizeT

/-!
## Signed machine integers of 64 bits

Values of `int64_t`, the conversions to and from `size_t`, and the arithmetic whose overflow
is undefined behaviour. A value of `size_t` and the `int64_t` it converts to are the same
element of `ZMod (2 ^ 64)`.
-/

namespace Hisab.Base

/-- A value of `int64_t`. -/
@[ext] structure I64 where
  val : Int
  lower : -2 ^ 63 ≤ val
  upper : val < 2 ^ 63
  deriving DecidableEq

namespace I64

/-- `std::numeric_limits<int64_t>::max()`. -/
def max : Nat := 2 ^ 63 - 1

/-- The value, if it is in range: an overflow of `int64_t` arithmetic is undefined. -/
def ofInt? (z : Int) : Option I64 :=
  if h : -2 ^ 63 ≤ z ∧ z < 2 ^ 63 then some ⟨z, h.1, h.2⟩ else none

/-- `static_cast<int64_t>` of a `size_t`. -/
def ofSizeT (n : Nat) : I64 where
  val := if n % 2 ^ 64 < 2 ^ 63 then (n % 2 ^ 64 : Nat) else (n % 2 ^ 64 : Nat) - 2 ^ 64
  lower := by split <;> omega
  upper := by split <;> omega

/-- The value that is congruent to an integer. -/
def wrap (z : Int) : I64 := ofSizeT (z % 2 ^ 64).toNat

/-- `static_cast<size_t>` of an `int64_t`. -/
def toSizeT (x : I64) : Nat := (x.val % 2 ^ 64).toNat

instance : OfNat I64 0 := ⟨⟨0, by decide, by decide⟩⟩

instance : OfNat I64 1 := ⟨⟨1, by decide, by decide⟩⟩

variable {x y : I64} {z : Int} {n : Nat}

theorem ofInt?_eq_some : ofInt? z = some x ↔ x.val = z := by
  unfold ofInt?
  split
  next h =>
    rw [Option.some.injEq, I64.ext_iff]
    exact eq_comm
  next h =>
    refine ⟨fun hx ↦ (by cases hx), fun hx ↦ absurd ⟨?_, ?_⟩ h⟩
    · exact hx ▸ x.lower
    · exact hx ▸ x.upper

theorem toSizeT_lt (x : I64) : x.toSizeT < SizeT.modulus := by
  unfold toSizeT SizeT.modulus
  omega

/-- The conversion of a value that is not negative is exact. -/
theorem toSizeT_eq (h : 0 ≤ x.val) : (x.toSizeT : Int) = x.val := by
  have := x.upper
  unfold toSizeT
  omega

theorem toSizeT_ofSizeT (h : n < SizeT.modulus) : (ofSizeT n).toSizeT = n := by
  unfold toSizeT ofSizeT SizeT.modulus at *
  dsimp only
  split <;> omega

theorem toSizeT_ofSizeT_le : (ofSizeT n).toSizeT ≤ n := by
  unfold toSizeT ofSizeT
  dsimp only
  split <;> omega

/-- A size within the range of `int64_t` is stored as it is. -/
theorem val_ofSizeT (h : n ≤ max) : (ofSizeT n).val = n := by
  unfold ofSizeT max at *
  dsimp only
  split <;> omega

theorem wrap_natCast (n : Nat) : wrap n = ofSizeT n := by
  ext
  unfold wrap ofSizeT
  dsimp only
  split <;> split <;> omega

theorem wrap_eq (h : x.val = z) : wrap z = x := by
  ext
  have := x.lower
  have := x.upper
  unfold wrap ofSizeT
  dsimp only
  split <;> omega

/-- Congruent integers wrap to the same value. -/
theorem wrap_congr {z' : Int} (h : z % 2 ^ 64 = z' % 2 ^ 64) : wrap z = wrap z' := by
  rw [wrap, wrap, h]

theorem wrap_emod (z : Int) : (wrap z).val % 2 ^ 64 = z % 2 ^ 64 := by
  unfold wrap ofSizeT
  dsimp only
  split <;> omega

/-- The conversion to `size_t` keeps the residue. -/
theorem cast_emod (z : Int) : (((z % 2 ^ 64).toNat : Nat) : ZMod SizeT.modulus) = (z : ZMod _) := by
  have h := Int.emod_nonneg z (show (2 ^ 64 : Int) ≠ 0 by decide)
  rw [← Int.cast_natCast, Int.toNat_of_nonneg h]
  exact ZMod.intCast_mod z SizeT.modulus

theorem cast_toSizeT (x : I64) : ((x.toSizeT : Nat) : ZMod SizeT.modulus) = (x.val : ZMod _) :=
  cast_emod x.val

end I64

end Hisab.Base
