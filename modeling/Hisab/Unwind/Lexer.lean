import Hisab.Base.MachineIntegers
import Hisab.Base.CallFrame
import Mathlib.Tactic.Ring

/-!
# The lexer of the unwind tables

`readULEB128` and `readSLEB128` of `Library/Profiler/bespoke/common/unwind/lexer.h`. What is left
to read is the list of the bytes up to the end of the table; the lexer does not check that end,
and reading beyond it is undefined. A value under construction is its pattern of 64 bits.
-/

namespace Hisab.Unwind

open Base Nat List

/-- How a call can fail: an `UnwindError`, the `std::out_of_range` of `at`, or undefined
behaviour. -/
inductive Fault
  | unwindError (what : String)
  | outOfRange
  | undefined
  deriving DecidableEq, Repr

/-- `read<uint8_t>`. -/
def readU8 : List UInt8 → Except Fault (UInt8 × List UInt8)
  | [] => .error .undefined
  | byte :: bytes => .ok (byte, bytes)

/-- `read<uint16_t>` and `read<uint32_t>`, little-endian. -/
def readU16 : List UInt8 → Except Fault (Nat × List UInt8)
  | d₀ :: d₁ :: bytes => .ok (d₀.toNat + 2 ^ 8 * d₁.toNat, bytes)
  | _ => .error .undefined

def readU32 : List UInt8 → Except Fault (Nat × List UInt8)
  | d₀ :: d₁ :: d₂ :: d₃ :: bytes =>
    .ok (d₀.toNat + 2 ^ 8 * d₁.toNat + 2 ^ 16 * d₂.toNat + 2 ^ 24 * d₃.toNat, bytes)
  | _ => .error .undefined

/-- `slice << shift` of 64 bits. -/
def shiftLeft64 (slice shift : Nat) : Nat := (slice <<< shift) % 2 ^ 64

/-- The loop of `readULEB128` (`lexer.h:58–75`). A shift by the width or more is undefined. -/
def readULEB128From (value shift : Nat) : List UInt8 → Except Fault (Nat × List UInt8)
  | [] => .error .undefined
  | p :: bytes =>
    let slice := p.toNat % 128
    if 64 ≤ shift ∧ slice ≠ 0 then .error (.unwindError "uleb128 too big for uint64")
    else if 64 ≤ shift then .error .undefined
    else if shiftLeft64 slice shift >>> shift ≠ slice then
      .error (.unwindError "uleb128 too big for uint64")
    else
      let value := SizeT.add value (shiftLeft64 slice shift)
      if 128 ≤ p.toNat then readULEB128From value (shift + 7) bytes else .ok (value, bytes)

def readULEB128 : List UInt8 → Except Fault (Nat × List UInt8) := readULEB128From 0 0

/-- The loop of `readSLEB128` (`lexer.h:32–56`). -/
def readSLEB128From (value shift : Nat) : List UInt8 → Except Fault (I64 × List UInt8)
  | [] => .error .undefined
  | byte :: bytes =>
    let slice := byte.toNat % 128
    if 64 ≤ shift ∧ slice ≠ (if 2 ^ 63 ≤ value then 127 else 0) ∨
        shift = 63 ∧ slice ≠ 0 ∧ slice ≠ 127 then
      .error (.unwindError "sleb128 too big for int64")
    else if 64 ≤ shift then .error .undefined
    else
      let value := value ||| shiftLeft64 slice shift
      if 128 ≤ byte.toNat then readSLEB128From value (shift + 7) bytes
      -- The sign of the last group is extended.
      else if shift + 7 < 64 ∧ 64 ≤ byte.toNat then
        .ok (I64.ofSizeT (value ||| (2 ^ 64 - 2 ^ (shift + 7))), bytes)
      else .ok (I64.ofSizeT value, bytes)

def readSLEB128 : List UInt8 → Except Fault (I64 × List UInt8) := readSLEB128From 0 0

/-! ### What is read of an encoding -/

open Leb128

variable {bytes rest : List UInt8} {value k : Nat}

theorem shiftLeft64_of_lt {slice shift : Nat} (h : slice * 2 ^ shift < 2 ^ 64) :
    shiftLeft64 slice shift = slice * 2 ^ shift := by
  rw [shiftLeft64, shiftLeft_eq, mod_eq_of_lt h]

theorem mul_two_pow_shiftRight (slice shift : Nat) : (slice * 2 ^ shift) >>> shift = slice := by
  rw [shiftRight_eq_div_pow]
  exact Nat.mul_div_cancel _ (Nat.two_pow_pos shift)

/-- An encoding in the bytes that are left is read in full, and what follows it stays. -/
theorem readULEB128From_of_encodes {n shift : Nat} (h : Unsigned n bytes)
    (hlen : shift + 7 * bytes.length ≤ 70) (hlt : value + n * 2 ^ shift < 2 ^ 64) :
    readULEB128From value shift (bytes ++ rest) = .ok (value + n * 2 ^ shift, rest) := by
  induction h generalizing value shift with
  | @last b hb =>
    have hshift : ¬ 64 ≤ shift := by
      simp at hlen
      omega
    have hfits : b.toNat * 2 ^ shift < 2 ^ 64 := by omega
    rw [cons_append, readULEB128From]
    simp only [mod_eq_of_lt hb, shiftLeft64_of_lt hfits, mul_two_pow_shiftRight]
    rw [if_neg (by omega), if_neg hshift, if_neg (by simp), if_neg (by omega),
      SizeT.add_eq hlt, nil_append]
  | @more b n bytes hb hbytes ih =>
    rw [length_cons] at hlen
    have hshift : ¬ 64 ≤ shift := by omega
    have hpow : 2 ^ (shift + 7) = 128 * 2 ^ shift := by rw [Nat.pow_add, mul_comm]
    have hsum : (b.toNat % 128 + 128 * n) * 2 ^ shift =
        b.toNat % 128 * 2 ^ shift + n * 2 ^ (shift + 7) := by
      rw [add_mul, hpow, mul_comm 128 n, mul_assoc]
    have hfits : b.toNat % 128 * 2 ^ shift < 2 ^ 64 := by omega
    rw [cons_append, readULEB128From]
    simp only [shiftLeft64_of_lt hfits, mul_two_pow_shiftRight]
    rw [if_neg (by omega), if_neg hshift, if_neg (by simp), if_pos hb, SizeT.add_eq (by
      rw [SizeT.modulus]
      omega), ih (by omega) (by omega), hsum, add_assoc]

theorem readULEB128_of_encodes {n : Nat} (h : Unsigned64 n bytes) (rest : List UInt8) :
    readULEB128 (bytes ++ rest) = .ok (n, rest) := by
  have hlen := h.length_le
  rw [readULEB128, readULEB128From_of_encodes h.encodes (by omega) (by
    have := h.lt
    omega)]
  simp

/-- A group above the bits that are there is added. -/
theorem or_shiftLeft64 {slice shift : Nat} (hvalue : value < 2 ^ shift)
    (h : slice * 2 ^ shift < 2 ^ 64) :
    value ||| shiftLeft64 slice shift = value + slice * 2 ^ shift := by
  rw [shiftLeft64_of_lt h, Nat.or_comm, ← shiftLeft_eq,
    ← shiftLeft_add_eq_or_of_lt hvalue, add_comm]

theorem or_signExtension {shift : Nat} (hvalue : value < 2 ^ shift) (hshift : shift < 64) :
    value ||| (2 ^ 64 - 2 ^ shift) = value + (2 ^ 64 - 2 ^ shift) := by
  have hpow : 2 ^ 64 - 2 ^ shift = (2 ^ (64 - shift) - 1) <<< shift := by
    rw [shiftLeft_eq, Nat.sub_mul, ← pow_add, Nat.sub_add_cancel (by omega), one_mul]
  rw [hpow, Nat.or_comm, ← shiftLeft_add_eq_or_of_lt hvalue, add_comm]

/-- The last group but one of ten has no bit to give but the sign. -/
theorem readSLEB128From_last {b : UInt8} (hb : b.toNat < 128) (hk : k ≤ 9)
    (hvalue : value < 2 ^ (7 * k)) {n : Int}
    (hn : n = value + (if b.toNat < 64 then (b.toNat : Int) else b.toNat - 128) * 2 ^ (7 * k))
    (hle : -2 ^ 63 ≤ n) (hlt : n < 2 ^ 63) :
    ∃ x : I64, readSLEB128From value (7 * k) (b :: rest) = .ok (x, rest) ∧ x.val = n := by
  rw [readSLEB128From]
  simp only [mod_eq_of_lt hb]
  have hk63 : ¬ 64 ≤ 7 * k := by omega
  by_cases h9 : k = 9
  · subst h9
    have hb' : b.toNat = 0 ∨ b.toNat = 127 := by
      split at hn
      · omega
      · omega
    rw [if_neg (by omega), if_neg hk63, if_neg (by omega)]
    refine ⟨_, rfl, ?_⟩
    cases hb' with
    | inl h0 =>
      rw [h0]
      rw [h0] at hn
      have hor : value ||| shiftLeft64 0 (7 * 9) = value := by simp [shiftLeft64]
      rw [hor, I64.val_ofSizeT (by unfold I64.max; omega), hn]
      simp
    | inr h127 =>
      rw [h127]
      have hshift : shiftLeft64 127 (7 * 9) = shiftLeft64 1 (7 * 9) := by decide
      have hor : value ||| shiftLeft64 127 (7 * 9) = value + 1 * 2 ^ (7 * 9) := by
        rw [hshift]
        exact or_shiftLeft64 hvalue (by decide)
      unfold I64.ofSizeT
      simp only
      omega
  · have hpow : 2 ^ (7 * k + 7) = 128 * 2 ^ (7 * k) := by rw [Nat.pow_add, mul_comm]
    have hpow8 : 2 ^ (7 * k) ≤ 2 ^ 56 := Nat.pow_le_pow_right (by decide) (by omega)
    have hslice : b.toNat * 2 ^ (7 * k) < 2 ^ 64 := by
      have := mul_lt_mul_of_pos_right hb (Nat.two_pow_pos (7 * k))
      omega
    have hsum : value + b.toNat * 2 ^ (7 * k) < 2 ^ (7 * k + 7) := by
      have := mul_le_mul_right (2 ^ (7 * k)) (le_of_lt_succ hb)
      omega
    rw [if_neg (by omega), if_neg hk63, if_neg (by omega), or_shiftLeft64 hvalue hslice]
    split
    · next h64 =>
      refine ⟨_, rfl, ?_⟩
      have hcast : ((2 ^ (7 * k) : Nat) : Int) = 2 ^ (7 * k) := Int.natCast_pow 2 (7 * k)
      have hmul : ((b.toNat * 2 ^ (7 * k) : Nat) : Int) = b.toNat * 2 ^ (7 * k) := by
        rw [Int.natCast_mul, hcast]
      rw [or_signExtension hsum (by omega), hn, if_neg (by omega), Int.sub_mul]
      unfold I64.ofSizeT
      simp only
      omega
    · next h64 =>
      refine ⟨_, rfl, ?_⟩
      have hb64 : b.toNat < 64 := by omega
      rw [I64.val_ofSizeT (by unfold I64.max; omega), hn, if_pos hb64]
      simp

theorem readSLEB128From_of_encodes {n m : Int} (h : Signed n bytes)
    (hlen : k + bytes.length ≤ 10) (hvalue : value < 2 ^ (7 * k))
    (hm : m = value + n * 2 ^ (7 * k)) (hle : -2 ^ 63 ≤ m) (hlt : m < 2 ^ 63) :
    ∃ x : I64, readSLEB128From value (7 * k) (bytes ++ rest) = .ok (x, rest) ∧ x.val = m := by
  induction h generalizing value k with
  | @last b hb =>
    rw [length_singleton] at hlen
    exact readSLEB128From_last hb (by omega) hvalue hm hle hlt
  | @more b n bytes hb hbytes ih =>
    have hpos := hbytes.length_pos
    rw [length_cons] at hlen
    have hpow : 2 ^ (7 * (k + 1)) = 128 * 2 ^ (7 * k) := by rw [mul_add, Nat.pow_add, mul_comm]
    have hpow8 : 2 ^ (7 * k) ≤ 2 ^ 56 := Nat.pow_le_pow_right (by decide) (by omega)
    have hmod : b.toNat % 128 ≤ 127 := by omega
    have hle' := mul_le_mul_right (2 ^ (7 * k)) hmod
    have hslice : b.toNat % 128 * 2 ^ (7 * k) < 2 ^ 64 := by omega
    rw [cons_append, readSLEB128From]
    rw [if_neg (by omega), if_neg (by omega), or_shiftLeft64 hvalue hslice, if_pos hb]
    apply ih (k := k + 1) (by omega)
    · omega
    · rw [hm]
      push_cast
      ring

theorem readSLEB128_of_encodes {n : Int} (h : Signed64 n bytes) (rest : List UInt8) :
    ∃ x : I64, readSLEB128 (bytes ++ rest) = .ok (x, rest) ∧ x.val = n := by
  have hlen := h.length_le
  exact readSLEB128From_of_encodes (k := 0) h.encodes (by omega) (by decide) (by simp) h.le h.lt

/-! ### What is read is an encoding -/

end Hisab.Unwind
