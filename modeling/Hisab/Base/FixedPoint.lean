import Hisab.Base.Numbers
import Mathlib.Data.Char
import Mathlib.Data.List.Lex
import Mathlib.Tactic.Ring
import Mathlib.Tactic.Linarith

/-!
# Fixed-point decimal texts and their order

What an output stream writes for a number in fixed notation at the right of a field, and how two
such texts compare as strings: by the columns before the point while the field holds them, then
by the sign, then digit for digit.
-/

namespace Hisab.Base

open List Nat

/-! ### Lexicographic order -/

section Lex

variable {α : Type*} [LinearOrder α] {a b x y : List α} {c : α}

/-- Texts that begin with parts of one length. -/
theorem append_lt_append_iff (h : a.length = b.length) :
    a ++ x < b ++ y ↔ a < b ∨ a = b ∧ x < y := by
  induction a generalizing b with
  | nil =>
    obtain rfl : b = [] := length_eq_zero_iff.mp h.symm
    simp
  | cons c a ih =>
    cases b with
    | nil => simp at h
    | cons d b =>
      rw [cons_append, cons_append, cons_lt_cons_iff, cons_lt_cons_iff, ih (succ.inj h), cons.injEq]
      tauto

theorem append_left_lt_iff : a ++ x < a ++ y ↔ x < y := by
  rw [append_lt_append_iff rfl, or_iff_right (lt_irrefl a), and_iff_right rfl]

/-- The text begins with a character above the given one. -/
def StartsAbove (c : α) (x : List α) : Prop := ∃ d l, x = d :: l ∧ c < d

theorem StartsAbove.cons_lt (h : StartsAbove c x) : c :: y < x := by
  obtain ⟨d, l, rfl, hlt⟩ := h
  exact cons_lt_cons_iff.mpr (.inl hlt)

theorem StartsAbove.append (h : StartsAbove c x) : StartsAbove c (x ++ y) := by
  obtain ⟨d, l, rfl, hlt⟩ := h
  exact ⟨d, l ++ y, rfl, hlt⟩

theorem StartsAbove.trans {d : α} (h : StartsAbove d x) (hlt : c < d) : StartsAbove c x := by
  obtain ⟨e, l, rfl, hd⟩ := h
  exact ⟨e, l, rfl, hlt.trans hd⟩

/-- `std::setw` with `std::right`: the text at the right of a field, filled with a character. -/
def padLeft (c : α) (width : Nat) (x : List α) : List α := List.replicate (width - x.length) c ++ x

/-- Where the fill is below every first character, the text with more of it comes first. -/
theorem padLeft_lt_iff (hx : StartsAbove c x) (hy : StartsAbove c y) (width : Nat) :
    padLeft c width x < padLeft c width y ↔ width - y.length < width - x.length ∨
      width - x.length = width - y.length ∧ x < y := by
  rw [padLeft, padLeft]
  generalize width - x.length = i
  generalize width - y.length = j
  obtain hlt | rfl | hlt := lt_trichotomy i j
  · obtain ⟨k, rfl⟩ := Nat.exists_eq_add_of_lt hlt
    have hnot : ¬ x < replicate (k + 1) c ++ y := fun h ↦ lt_asymm h (hx.cons_lt)
    rw [add_assoc, replicate_add, append_assoc, append_left_lt_iff, iff_false_left hnot]
    omega
  · rw [append_left_lt_iff, or_iff_right (lt_irrefl i), and_iff_right rfl]
  · obtain ⟨k, rfl⟩ := Nat.exists_eq_add_of_lt hlt
    have hlt' : replicate (k + 1) c ++ x < y := hy.cons_lt
    rw [add_assoc, replicate_add, append_assoc, append_left_lt_iff, iff_true_left hlt']
    omega

end Lex

/-! ### Digits -/

variable {m n w k : Nat}

/-- The last digits of a number, with leading zeros. -/
def fixedDigits : Nat → Nat → List Char
  | 0, _ => []
  | w + 1, n => fixedDigits w (n / 10) ++ [Nat.digitChar (n % 10)]

@[simp] theorem length_fixedDigits (w n : Nat) : (fixedDigits w n).length = w := by
  induction w generalizing n with
  | zero => rfl
  | succ w ih => rw [fixedDigits, length_append, ih, length_singleton]

theorem digitChar_lt_iff (hm : m < 10) (hn : n < 10) :
    Nat.digitChar m < Nat.digitChar n ↔ m < n := by
  have h : ∀ i j : Fin 10, digitChar i < digitChar j ↔ (i : Nat) < j := by decide
  exact h ⟨m, hm⟩ ⟨n, hn⟩

theorem digitChar_inj (hm : m < 10) (hn : n < 10) : Nat.digitChar m = Nat.digitChar n ↔ m = n := by
  have h : ∀ i j : Fin 10, digitChar i = digitChar j ↔ (i : Nat) = j := by decide
  exact h ⟨m, hm⟩ ⟨n, hn⟩

theorem div_ten_lt (h : n < 10 ^ (w + 1)) : n / 10 < 10 ^ w :=
  Nat.div_lt_of_lt_mul (by rwa [pow_succ, mul_comm] at h)

theorem fixedDigits_inj (hm : m < 10 ^ w) (hn : n < 10 ^ w) :
    fixedDigits w m = fixedDigits w n ↔ m = n := by
  induction w generalizing m n with
  | zero =>
    obtain rfl : m = 0 := by simpa using hm
    obtain rfl : n = 0 := by simpa using hn
    simp
  | succ w ih =>
    have hlast := digitChar_inj (mod_lt m (by decide : 0 < 10)) (mod_lt n (by decide))
    constructor
    · intro h
      have hinj := append_inj' h rfl
      have hdiv := (ih (div_ten_lt hm) (div_ten_lt hn)).mp hinj.1
      have hmod := hlast.mp (singleton_inj.mp hinj.2)
      omega
    · rintro rfl
      rfl

/-- Of one width the digits compare as the numbers. -/
theorem fixedDigits_lt_iff (hm : m < 10 ^ w) (hn : n < 10 ^ w) :
    fixedDigits w m < fixedDigits w n ↔ m < n := by
  induction w generalizing m n with
  | zero =>
    obtain rfl : m = 0 := by simpa using hm
    obtain rfl : n = 0 := by simpa using hn
    simp
  | succ w ih =>
    have hlen : (fixedDigits w (m / 10)).length = (fixedDigits w (n / 10)).length := by simp
    rw [fixedDigits, fixedDigits, append_lt_append_iff hlen, ih (div_ten_lt hm) (div_ten_lt hn),
      fixedDigits_inj (div_ten_lt hm) (div_ten_lt hn), cons_lt_cons_iff,
      digitChar_lt_iff (mod_lt m (by decide)) (mod_lt n (by decide))]
    simp only [not_lt_nil, and_false, or_false]
    omega

/-- The first digits and the last ones. -/
theorem fixedDigits_add (w k n : Nat) :
    fixedDigits (w + k) n = fixedDigits w (n / 10 ^ k) ++ fixedDigits k n := by
  induction k generalizing n with
  | zero => simp [fixedDigits]
  | succ k ih =>
    rw [← add_assoc, fixedDigits, ih, fixedDigits, append_assoc, Nat.div_div_eq_div_mul, pow_succ']

theorem fixedDigits_zero (w : Nat) : fixedDigits w 0 = List.replicate w '0' := by
  induction w with
  | zero => rfl
  | succ w ih => rw [fixedDigits, ih, replicate_succ']; rfl

theorem lt_pow_length_toDigits (n : Nat) : n < 10 ^ (Nat.toDigits 10 n).length :=
  (length_toDigits_le_iff (by decide) length_toDigits_pos).mp le_rfl

theorem toDigits_eq (n : Nat) : Nat.toDigits 10 n = fixedDigits (Nat.toDigits 10 n).length n := by
  induction n using Nat.strongRecOn with
  | _ n ih =>
    obtain hlt | hle := lt_or_ge n 10
    · rw [toDigits_of_lt_base hlt, length_singleton, fixedDigits, mod_eq_of_lt hlt]
      rfl
    · rw [toDigits_of_base_le (by decide) hle, length_append, length_singleton,
        fixedDigits, ← ih (n / 10) (by omega)]

/-- Filled with zeros the digits are those of the width. -/
theorem padLeft_toDigits (hw : 0 < w) (h : n < 10 ^ w) :
    padLeft '0' w (Nat.toDigits 10 n) = fixedDigits w n := by
  have hle : (toDigits 10 n).length ≤ w := (length_toDigits_le_iff (by decide) hw).mpr h
  obtain ⟨k, hk⟩ := Nat.exists_eq_add_of_le' hle
  have hzero : n / 10 ^ (toDigits 10 n).length = 0 := div_eq_of_lt (lt_pow_length_toDigits n)
  rw [padLeft]
  conv_rhs => rw [hk, fixedDigits_add, hzero, fixedDigits_zero, ← toDigits_eq]
  congr 2
  omega

theorem lt_of_mem_fixedDigits {c : Char} (h : c ∈ fixedDigits w n) : '.' < c := by
  have hdigit : ∀ i : Fin 10, '.' < digitChar i := by decide
  induction w generalizing n with
  | zero => cases h
  | succ w ih =>
    rw [fixedDigits, mem_append, mem_singleton] at h
    obtain h | rfl := h
    · exact ih h
    · exact hdigit ⟨n % 10, mod_lt n (by decide)⟩

theorem startsAbove_fixedDigits (hw : 0 < w) (n : Nat) : StartsAbove '.' (fixedDigits w n) := by
  cases h : fixedDigits w n with
  | nil =>
    have hlen := congrArg length h
    rw [length_fixedDigits, length_nil] at hlen
    omega
  | cons c l => exact ⟨c, l, rfl, lt_of_mem_fixedDigits (h ▸ mem_cons_self)⟩

theorem startsAbove_toDigits (n : Nat) : StartsAbove '.' (Nat.toDigits 10 n) := by
  rw [toDigits_eq]
  exact startsAbove_fixedDigits length_toDigits_pos n

/-- A number of fewer digits is smaller. -/
theorem lt_of_length_toDigits_lt (h : (Nat.toDigits 10 m).length < (Nat.toDigits 10 n).length) :
    m < n := by
  by_contra hle
  have hlt : n < 10 ^ (toDigits 10 m).length := (not_lt.mp hle).trans_lt (lt_pow_length_toDigits m)
  have := (length_toDigits_le_iff (by decide) length_toDigits_pos).mpr hlt
  omega

theorem toDigits_lt_iff (h : (Nat.toDigits 10 m).length = (Nat.toDigits 10 n).length) :
    Nat.toDigits 10 m < Nat.toDigits 10 n ↔ m < n := by
  have hm := lt_pow_length_toDigits m
  rw [h] at hm
  rw [toDigits_eq m, toDigits_eq n, h, fixedDigits_lt_iff hm (lt_pow_length_toDigits n)]

/-- In a field that holds them all, whole numbers compare as their texts. -/
theorem padLeft_toDigits_lt_iff (hm : m < 10 ^ w) (hn : n < 10 ^ w) (hw : 0 < w) :
    padLeft ' ' w (Nat.toDigits 10 m) < padLeft ' ' w (Nat.toDigits 10 n) ↔ m < n := by
  have hspace : ' ' < '.' := by decide
  have hlm := (length_toDigits_le_iff (by decide) hw).mpr hm
  have hln := (length_toDigits_le_iff (by decide) hw).mpr hn
  rw [padLeft_lt_iff ((startsAbove_toDigits m).trans hspace) ((startsAbove_toDigits n).trans hspace)]
  obtain hlt | heq | hlt := lt_trichotomy (toDigits 10 m).length (toDigits 10 n).length
  · have hmn := lt_of_length_toDigits_lt hlt
    omega
  · rw [toDigits_lt_iff heq]
    omega
  · have hmn := lt_of_length_toDigits_lt hlt
    omega

/-! ### Numbers with a fixed number of places -/

/-- A sign and a size in units of the last place. A negative number may round to no unit. -/
structure FixedPoint where
  negative : Bool
  units : Nat
deriving Repr, DecidableEq

namespace FixedPoint

variable {places width : Nat} {x y : FixedPoint}

def whole (places : Nat) (x : FixedPoint) : Nat := x.units / 10 ^ places

def fraction (places : Nat) (x : FixedPoint) : Nat := x.units % 10 ^ places

/-- The digits before the point. -/
def digits (places : Nat) (x : FixedPoint) : Nat := (Nat.toDigits 10 (x.whole places)).length

/-- The columns before the point. -/
def columns (places : Nat) (x : FixedPoint) : Nat := (if x.negative then 1 else 0) + x.digits places

def body (places : Nat) (x : FixedPoint) : List Char :=
  Nat.toDigits 10 (x.whole places) ++
    '.' :: padLeft '0' places (Nat.toDigits 10 (x.fraction places))

/-- What `std::fixed` writes. -/
def text (places : Nat) (x : FixedPoint) : List Char :=
  (if x.negative then ['-'] else []) ++ x.body places

/-- Without their signs, the text of the first is below that of the second: digit for digit from
the left, and the point is below the digits. -/
def DigitsBelow (places : Nat) (x y : FixedPoint) : Prop :=
  if x.digits places = y.digits places then x.units < y.units
  else if x.digits places < y.digits places then
    x.whole places ≤ y.whole places / 10 ^ (y.digits places - x.digits places)
  else x.whole places / 10 ^ (x.digits places - y.digits places) < y.whole places

/-- At the right of a field with the given columns before the point, the text of the first is
below that of the second. -/
def TextBelow (places width : Nat) (x y : FixedPoint) : Prop :=
  min (x.columns places) width < min (y.columns places) width ∨
    min (x.columns places) width = min (y.columns places) width ∧
      (x.negative = true ∧ y.negative = false ∨ x.negative = y.negative ∧ x.DigitsBelow places y)

instance (places : Nat) (x y : FixedPoint) : Decidable (DigitsBelow places x y) := by
  unfold DigitsBelow
  infer_instance

instance (places width : Nat) (x y : FixedPoint) : Decidable (TextBelow places width x y) :=
  inferInstanceAs (Decidable (_ ∨ _))

theorem body_eq (hp : 0 < places) (x : FixedPoint) :
    x.body places = fixedDigits (x.digits places) (x.whole places) ++
      '.' :: fixedDigits places (x.fraction places) := by
  have hlt : x.fraction places < 10 ^ places := mod_lt _ (Nat.pow_pos (by decide))
  rw [body, padLeft_toDigits hp hlt, toDigits_eq, digits]

theorem length_body (hp : 0 < places) (x : FixedPoint) :
    (x.body places).length = x.digits places + (1 + places) := by
  rw [body_eq hp]
  simp
  omega

theorem length_text (hp : 0 < places) (x : FixedPoint) :
    (x.text places).length = x.columns places + (1 + places) := by
  rw [text, length_append, length_body hp, columns, ← add_assoc]
  cases x.negative with
  | false | true => rfl

theorem whole_lt (places : Nat) (x : FixedPoint) : x.whole places < 10 ^ x.digits places :=
  lt_pow_length_toDigits _

/-- The texts without signs, by the numbers of digits before the point. -/
theorem body_lt_iff (hp : 0 < places) : x.body places < y.body places ↔ x.DigitsBelow places y := by
  have hx := whole_lt places x
  have hy := whole_lt places y
  rw [body_eq hp, body_eq hp, DigitsBelow]
  split
  · next h =>
    rw [h] at hx ⊢
    have hfx : x.fraction places < 10 ^ places := mod_lt _ (Nat.pow_pos (by decide))
    have hfy : y.fraction places < 10 ^ places := mod_lt _ (Nat.pow_pos (by decide))
    rw [append_lt_append_iff (by simp), fixedDigits_lt_iff hx hy, fixedDigits_inj hx hy,
      cons_lt_cons_iff, or_iff_right (lt_irrefl _), and_iff_right rfl,
      fixedDigits_lt_iff hfx hfy]
    have hdx : 10 ^ places * x.whole places + x.fraction places = x.units := div_add_mod ..
    have hdy : 10 ^ places * y.whole places + y.fraction places = y.units := div_add_mod ..
    constructor
    · rintro (h | ⟨h, hf⟩)
      · nlinarith
      · rw [h] at hdx
        omega
    · intro h
      obtain hlt | heq | hlt := lt_trichotomy (x.whole places) (y.whole places)
      · exact .inl hlt
      · rw [heq] at hdx
        exact .inr ⟨heq, by omega⟩
      · nlinarith
  · next hne =>
    split
    · next hlt =>
      obtain ⟨k, hk⟩ := Nat.exists_eq_add_of_lt hlt
      have hsub : y.digits places - x.digits places = k + 1 := by omega
      have hdiv : y.whole places / 10 ^ (k + 1) < 10 ^ x.digits places := by
        rw [hk, add_assoc, pow_add] at hy
        exact Nat.div_lt_of_lt_mul (by rwa [mul_comm])
      have habove : StartsAbove '.' (fixedDigits (k + 1) (y.whole places) ++
          '.' :: fixedDigits places (y.fraction places)) :=
        (startsAbove_fixedDigits k.succ_pos _).append
      rw [hsub, hk, add_assoc, fixedDigits_add, append_assoc,
        append_lt_append_iff (by simp), fixedDigits_lt_iff hx hdiv, fixedDigits_inj hx hdiv,
        and_iff_left habove.cons_lt]
      exact le_iff_lt_or_eq.symm
    · next hle =>
      obtain ⟨k, hk⟩ := Nat.exists_eq_add_of_lt (lt_of_le_of_ne (not_lt.mp hle) (Ne.symm hne))
      have hsub : x.digits places - y.digits places = k + 1 := by omega
      have hdiv : x.whole places / 10 ^ (k + 1) < 10 ^ y.digits places := by
        rw [hk, add_assoc, pow_add] at hx
        exact Nat.div_lt_of_lt_mul (by rwa [mul_comm])
      have habove : StartsAbove '.' (fixedDigits (k + 1) (x.whole places) ++
          '.' :: fixedDigits places (x.fraction places)) :=
        (startsAbove_fixedDigits k.succ_pos _).append
      have hnot := lt_asymm (habove.cons_lt (y := fixedDigits places (y.fraction places)))
      rw [hsub, hk, add_assoc, fixedDigits_add, append_assoc,
        append_lt_append_iff (by simp), fixedDigits_lt_iff hdiv hy, or_iff_left fun h ↦ hnot h.2]

theorem startsAbove_body (places : Nat) (x : FixedPoint) : StartsAbove '.' (x.body places) :=
  (startsAbove_toDigits _).append

theorem startsAbove_text (places : Nat) (x : FixedPoint) : StartsAbove ' ' (x.text places) := by
  rw [text]
  cases x.negative with
  | false => exact (startsAbove_body places x).trans (by decide)
  | true => exact ⟨'-', _, rfl, by decide⟩

/-- The sign comes first, and a minus is below the digits. -/
theorem text_lt_iff (hp : 0 < places) : x.text places < y.text places ↔
    x.negative = true ∧ y.negative = false ∨ x.negative = y.negative ∧ x.DigitsBelow places y := by
  have hminus : '-' < '.' := by decide
  rw [← body_lt_iff hp, text, text]
  cases x.negative with
  | false =>
    cases y.negative with
    | false => simp
    | true =>
      have hlt : ['-'] ++ y.body places < x.body places :=
        ((startsAbove_body places x).trans hminus).cons_lt
      simpa using lt_asymm hlt
  | true =>
    cases y.negative with
    | false =>
      have hlt : ['-'] ++ x.body places < y.body places :=
        ((startsAbove_body places y).trans hminus).cons_lt
      simpa using hlt
    | true => simp

/-- How the texts compare as strings, in numbers. -/
theorem padLeft_text_lt_iff (hp : 0 < places) (width : Nat) :
    padLeft ' ' (width + (1 + places)) (x.text places) <
      padLeft ' ' (width + (1 + places)) (y.text places) ↔ x.TextBelow places width y := by
  rw [padLeft_lt_iff (startsAbove_text places x) (startsAbove_text places y), length_text hp,
    length_text hp, text_lt_iff hp, TextBelow]
  have hlt : width + (1 + places) - (y.columns places + (1 + places)) <
      width + (1 + places) - (x.columns places + (1 + places)) ↔
      min (x.columns places) width < min (y.columns places) width := by omega
  have heq : width + (1 + places) - (x.columns places + (1 + places)) =
      width + (1 + places) - (y.columns places + (1 + places)) ↔
      min (x.columns places) width = min (y.columns places) width := by omega
  rw [hlt, heq]

end FixedPoint

/-! ### The fixed notation of a `double` -/

/-- The whole number nearest to a ratio, ties to the even one. -/
def roundDiv (n d : Nat) : Nat :=
  if d < 2 * (n % d) ∨ d = 2 * (n % d) ∧ n / d % 2 = 1 then n / d + 1 else n / d

namespace Double

/-- The `double` nearest to a ratio of integers. Twice a quotient of at least 54 bits, with a last
bit for what is left of it, is rounded to the side that the ratio is rounded to. -/
def ofRatio (p : Int) (q : Nat) : Double :=
  let shift := 54 + Nat.log2 q
  let scaled := p.natAbs * 2 ^ shift
  let sticky := 2 * (scaled / q) + if scaled % q = 0 then 0 else 1
  .finite (decide (p < 0)) (roundInt sticky).toNat (-(shift + 1))

/-- A finite number, rounded to the given places. -/
def fixed (places : Nat) : Double → FixedPoint
  | finite negative mantissa exponent => ⟨negative,
      roundDiv (mantissa * 2 ^ exponent.toNat * 10 ^ places) (2 ^ (-exponent).toNat)⟩
  | infinite negative => ⟨negative, 0⟩
  | nan negative => ⟨negative, 0⟩

/-- What `std::fixed` with a precision writes. -/
def fixedText (places : Nat) (x : Double) : List Char :=
  match x with
  | finite _ _ _ => (x.fixed places).text places
  | infinite negative => (if negative then ['-'] else []) ++ "inf".toList
  | nan negative => (if negative then ['-'] else []) ++ "nan".toList

theorem fixedText_ofRatio (places : Nat) (p : Int) (q : Nat) :
    (ofRatio p q).fixedText places = ((ofRatio p q).fixed places).text places := rfl

end Double

end Hisab.Base
