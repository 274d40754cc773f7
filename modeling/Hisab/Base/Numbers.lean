import Mathlib

/-!
# Double precision numbers

A `double` by its parts: a sign with a mantissa and a power of two, an infinity or a NaN.
-/

namespace Hisab.Base

/-- `(-1) ^ negative * mantissa * 2 ^ exponent`, an infinity, or a NaN. -/
inductive Double
  | finite (negative : Bool) (mantissa : Nat) (exponent : Int)
  | infinite (negative : Bool)
  | nan (negative : Bool)
  deriving DecidableEq, Repr

namespace Double

instance : Inhabited Double := ⟨.finite false 0 0⟩

/-- The nearest integer that a `double` can hold, ties to the even mantissa: what the conversion
of an integer to `double` and back gives. -/
def roundInt (z : Int) : Int :=
  let bits := Nat.log2 z.natAbs + 1
  let unit := 2 ^ (bits - 53)
  let down := z.natAbs / unit
  let rest := z.natAbs % unit
  let up := decide (unit < 2 * rest) || (decide (unit = 2 * rest) && decide (down % 2 = 1))
  z.sign * ((if up then down + 1 else down) * unit : Nat)

end Double

end Hisab.Base

/-!
## The decimal text of an integer

`std::to_string` of an integer: its digits, after a minus sign where it is negative.
-/

namespace Hisab.Base

variable {a b : Int} {n : Nat} {c : Char}

theorem toList_toString_of_nonneg (h : 0 ≤ a) : (toString a).toList = Nat.toDigits 10 a.toNat := by
  rw [Int.toString_eq_repr, Int.repr_eq_if, if_pos h, Nat.toList_repr]

theorem toList_toString_of_neg (h : a < 0) :
    (toString a).toList = '-' :: Nat.toDigits 10 (-a).toNat := by
  rw [Int.toString_eq_repr, Int.repr_eq_if, if_neg (by omega), String.toList_append,
    Nat.toList_repr]
  rfl

theorem isDigit_of_mem_toDigits (h : c ∈ Nat.toDigits 10 n) : c.isDigit :=
  Nat.isDigit_of_mem_toDigits (by decide) (by decide) h

theorem toDigits_injective {m : Nat} (h : Nat.toDigits 10 m = Nat.toDigits 10 n) : m = n := by
  rw [← Nat.ofDigitChars_ten_toDigits (n := m), h, Nat.ofDigitChars_ten_toDigits]

/-- Digits are not a negative number. -/
theorem toDigits_ne_minus (m : Nat) (l : List Char) : Nat.toDigits 10 m ≠ '-' :: l := by
  intro h
  have hdigit := isDigit_of_mem_toDigits (h ▸ List.mem_cons_self)
  exact absurd hdigit (by decide)

theorem toList_toString_injective (h : (toString a).toList = (toString b).toList) : a = b := by
  obtain ha | ha := Int.lt_or_le a 0
  · obtain hb | hb := Int.lt_or_le b 0
    · rw [toList_toString_of_neg ha, toList_toString_of_neg hb] at h
      have := toDigits_injective (List.tail_eq_of_cons_eq h)
      omega
    · rw [toList_toString_of_neg ha, toList_toString_of_nonneg hb] at h
      exact absurd h.symm (toDigits_ne_minus _ _)
  · obtain hb | hb := Int.lt_or_le b 0
    · rw [toList_toString_of_nonneg ha, toList_toString_of_neg hb] at h
      exact absurd h (toDigits_ne_minus _ _)
    · rw [toList_toString_of_nonneg ha, toList_toString_of_nonneg hb] at h
      have := toDigits_injective h
      omega

end Hisab.Base
