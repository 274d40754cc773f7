import Hisab.Vectorization.ShapeSpecs
import Hisab.Vectorization.TensorSteps

/-!
# The contiguity flag

The flag that `recompute_cpu_simd_alignment_state` caches says whether the element with flat
index `i` is at offset `i`, for every `i`, if the sizes multiply to less than `2^64`. All
constructors but those from rows and columns check that they do.
-/

namespace Hisab.Vectorization

open Hisab.Base Nat SizeT Tensor

/-- The stride-weighted sum of the coordinates of a flat index. -/
def exactOffset (sas : SizesAndStrides) (i : Nat) : Int :=
  Layout.offset (exactLayout sas) (Layout.unravel (exactLayout sas) i)

section Shape

variable {d : Dim} {sas : SizesAndStrides} {i : Nat}

@[simp] theorem exactOffset_nil : exactOffset [] i = 0 := rfl

theorem exactOffset_cons : exactOffset (d :: sas) i =
    (i / count sas % d.size.toSizeT : Nat) * d.stride.val + exactOffset sas i := rfl

theorem totalSize_eq (h : count sas < SizeT.modulus) : totalSize sas = count sas := by
  have hfold : ∀ total : Nat, sas.foldl (fun total d ↦ mul total d.size.toSizeT)
      (total % modulus) = total * count sas % modulus := by
    clear h
    induction sas with
    | nil => exact fun total ↦ (congrArg (· % modulus) (mul_one total)).symm
    | cons d sas ih =>
      intro total
      rw [List.foldl_cons, mul, mod_mul_mod, ih, count_cons, mul_assoc]
  have := hfold 1
  rwa [one_mul, mod_eq_of_lt h] at this

/-- The offset that `logical_offset` computes is the exact one modulo `2^64`. -/
theorem stridedOffset_eq (hpos : count sas ≠ 0) : stridedOffset sas i < SizeT.modulus ∧
    ((stridedOffset sas i : Nat) : ZMod SizeT.modulus) = (exactOffset sas i : ZMod _) := by
  suffices hfold : ∃ off < modulus, sas.foldr offsetTurn (some (i, 0)) =
      some (i / count sas, off) ∧ ((off : Nat) : ZMod modulus) = (exactOffset sas i : ZMod _) by
    obtain ⟨off, hlt, hfold, hoff⟩ := hfold
    rw [stridedOffset, hfold]
    exact ⟨hlt, hoff⟩
  induction sas with
  | nil => exact ⟨0, by decide, by simp, by simp⟩
  | cons d sas ih =>
    obtain ⟨hd, hsas⟩ := mul_ne_zero_iff.mp hpos
    obtain ⟨off, hlt, hfold, hoff⟩ := ih hsas
    let idx := i / count sas % d.size.toSizeT
    refine ⟨add off (mul idx d.stride.toSizeT), add_lt _ _, ?_, ?_⟩
    · rw [List.foldr_cons, hfold, offsetTurn, if_neg hd, count_cons, Nat.div_div_eq_div_mul,
        mul_comm]
    · rw [exactOffset_cons, Int.cast_add, Int.cast_mul, Int.cast_natCast, ← hoff,
        ← I64.cast_toSizeT, add, mul, ZMod.natCast_mod, cast_add,
        ZMod.natCast_mod, cast_mul, add_comm]

/-- The loop over the strides finds out whether the layout is packed. -/
theorem expectedStride_spec (hpos : count sas ≠ 0) (hfit : count sas < SizeT.modulus) :
    ((expectedStride sas).isSome ↔ Layout.Packed (exactLayout sas)) ∧
      (count sas < 2 ^ 63 → ∀ e, expectedStride sas = some e → e = count sas) := by
  induction sas with
  | nil =>
    refine ⟨iff_of_true rfl trivial, fun _ e he ↦ ?_⟩
    cases he
    rfl
  | cons d sas ih =>
    rw [count_cons] at hpos hfit
    obtain ⟨hd, hsas⟩ := mul_ne_zero_iff.mp hpos
    have hle : count sas ≤ d.size.toSizeT * count sas :=
      Nat.le_mul_of_pos_left _ (pos_of_ne_zero hd)
    obtain ⟨hpacked, hexact⟩ := ih hsas (lt_of_le_of_lt hle hfit)
    rw [show expectedStride (d :: sas) = strideTurn d (expectedStride sas) from rfl,
      show Layout.Packed (exactLayout (d :: sas)) ↔ Layout.Packed (exactLayout sas) ∧
        (d.size.toSizeT = 1 ∨ d.stride.val = (count sas : Int)) from Iff.rfl, count_cons]
    by_cases hone : d.size.val = 1
    · have hsize : d.size.toSizeT = 1 := by
        have := I64.toSizeT_eq (x := d.size) (by omega)
        omega
      have hsame : strideTurn d (expectedStride sas) = expectedStride sas := by
        cases expectedStride sas with
        | none => rfl
        | some e => rw [strideTurn, if_pos hone]
      rw [hsame, hsize, one_mul]
      exact ⟨by rw [hpacked]; simp, hexact⟩
    · have hne : d.size.toSizeT ≠ 1 := fun h ↦ by
        unfold I64.toSizeT at h
        have := d.size.lower
        have := d.size.upper
        omega
      -- the product of the inner sizes is at most half of the whole, so it is an `int64_t`
      have hhalf : count sas < 2 ^ 63 := by
        have := mul_le_mul_right (count sas) (show 2 ≤ d.size.toSizeT by omega)
        have : modulus = 2 * 2 ^ 63 := rfl
        omega
      cases he : expectedStride sas with
      | none =>
        have hnot : ¬ Layout.Packed (exactLayout sas) := fun hp ↦ by
          have := hpacked.mpr hp
          rw [he] at this
          cases this
        exact ⟨iff_of_false (by simp [strideTurn]) fun hp ↦ hnot hp.1, nofun⟩
      | some e =>
        have hinner : Layout.Packed (exactLayout sas) := hpacked.mp (by rw [he]; rfl)
        obtain rfl := hexact hhalf e he
        rw [strideTurn, if_neg hone]
        by_cases hs : d.stride.val = (count sas : Int)
        · rw [if_neg (not_not.mpr hs)]
          refine ⟨iff_of_true rfl ⟨hinner, .inr hs⟩, fun hlt e' he' ↦ ?_⟩
          cases he'
          have hsize : d.size.toSizeT < 2 ^ 63 :=
            lt_of_le_of_lt (Nat.le_mul_of_pos_right _ (pos_of_ne_zero hsas)) hlt
          have hval : (d.size.toSizeT : Int) = d.size.val := by
            unfold I64.toSizeT at hsize ⊢
            have := d.size.lower
            have := d.size.upper
            omega
          rw [cast_mul, hval, mul_comm]
        · rw [if_pos hs]
          exact ⟨iff_of_false (by simp) fun hp ↦ hp.2.elim hne hs, nofun⟩

/-- Flat indexing works exactly if the loop over the strides does not stop. -/
theorem expectedStride_isSome_iff (hpos : count sas ≠ 0) (hfit : count sas < SizeT.modulus) :
    (expectedStride sas).isSome ↔ ∀ i < count sas, exactOffset sas i = i := by
  rw [(expectedStride_spec hpos hfit).1, Layout.packed_iff hpos]
  rfl

end Shape

/-! ### Tensors -/

namespace Tensor

variable {α : Type} {T : SimdTarget} {t : Tensor}

/-- The flags are those of the shape, whose sizes multiply to a `size_t`. -/
structure Sound (T : SimdTarget) (t : Tensor) : Prop where
  cached : t.recompute T = t
  fits : count t.sizesAndStrides < SizeT.modulus

/-- The flag says whether flat indexing works, and `logical_offset` may use it. -/
structure FlagExact (t : Tensor) : Prop where
  flag : t.contiguous = true ↔ ∀ i < t.numel, exactOffset t.sizesAndStrides i = i
  logical : ∀ i < t.numel,
    (t.logicalOffset i : Int) = exactOffset t.sizesAndStrides i % (SizeT.modulus : Nat)

theorem sound_recompute (h : count t.sizesAndStrides < SizeT.modulus) : (t.recompute T).Sound T where
  cached := recompute_recompute
  fits := by rwa [recompute_sizesAndStrides]

theorem Sound.numel_of_nil (h : t.Sound T) (hnil : t.sizesAndStrides = []) : t.numel = 0 := by
  have := congrArg numel h.cached
  rwa [recompute, if_pos hnil, eq_comm] at this

theorem Sound.contiguous_of_nil (h : t.Sound T) (hnil : t.sizesAndStrides = []) :
    t.contiguous = true := by
  have := congrArg contiguous h.cached
  rwa [recompute, if_pos hnil, eq_comm] at this

theorem Sound.numel_eq (h : t.Sound T) (hnil : t.sizesAndStrides ≠ []) :
    t.numel = count t.sizesAndStrides := by
  have := congrArg numel h.cached
  rwa [recompute_numel hnil, totalSize_eq h.fits, eq_comm] at this

theorem Sound.contiguous_iff (h : t.Sound T) (hpos : t.numel ≠ 0) :
    t.contiguous = true ↔ ∀ i < t.numel, exactOffset t.sizesAndStrides i = i := by
  have hnil : t.sizesAndStrides ≠ [] := fun hnil ↦ hpos (h.numel_of_nil hnil)
  have hflag := congrArg contiguous h.cached
  rw [h.numel_eq hnil] at hpos ⊢
  rw [recompute_contiguous hnil, totalSize_eq h.fits, decide_eq_false hpos, Bool.false_or] at hflag
  rw [← hflag, expectedStride_isSome_iff hpos h.fits]

/-- The flag of an empty tensor is set. -/
theorem Sound.contiguous_of_empty (h : t.Sound T) (hz : t.numel = 0) : t.contiguous = true := by
  by_cases hnil : t.sizesAndStrides = []
  · exact h.contiguous_of_nil hnil
  · have hflag := congrArg contiguous h.cached
    rw [h.numel_eq hnil] at hz
    rw [recompute_contiguous hnil, totalSize_eq h.fits, decide_eq_true hz] at hflag
    exact hflag.symm

theorem Sound.flagExact (h : t.Sound T) : t.FlagExact := by
  by_cases hz : t.numel = 0
  · exact ⟨iff_of_true (h.contiguous_of_empty hz) fun i hi ↦ by omega, fun i hi ↦ by omega⟩
  refine ⟨h.contiguous_iff hz, fun i hi ↦ ?_⟩
  have hcount : t.numel = count t.sizesAndStrides := h.numel_eq fun hnil ↦ hz (h.numel_of_nil hnil)
  have hlt : i < modulus := lt_trans (hcount ▸ hi) h.fits
  unfold logicalOffset
  split
  next hflag => rw [(h.contiguous_iff hz).mp hflag i hi, Int.emod_eq_of_lt (by omega) (by omega)]
  next =>
    obtain ⟨hoff, hcast⟩ := stridedOffset_eq (hcount ▸ hz)
    rwa [← Int.cast_natCast, ZMod.intCast_eq_intCast_iff, Int.ModEq,
      Int.emod_eq_of_lt (by omega) (by omega)] at hcast

/-! ### Operations -/

section Operations

variable {h h' : Heap α} {x y : Tensor} {c : Construct α} {v : ViewOp} {p : PackOp} {origin : Nat}
  {fresh : Nat → α} {dims : List Nat} {sas : SizesAndStrides}

theorem count_vector_lt (n : Nat) :
    count [{ size := .ofSizeT n, stride := 1 }] < SizeT.modulus := by
  rw [count_cons, count_nil, mul_one]
  exact I64.toSizeT_lt _

theorem count_matrix_le (rows cols : Nat) : count (matrixSas rows cols) ≤ rows * cols := by
  rw [matrixSas, count_cons, count_cons, count_nil, mul_one]
  exact Nat.mul_le_mul I64.toSizeT_ofSizeT_le I64.toSizeT_ofSizeT_le

/-- The sizes that a constructor from dimensions stores multiply to a `size_t`. -/
theorem count_lt_of_dims {n : Nat} (htotal : computeTotal dims = .ok n)
    (hsas : makeContiguousSas dims = .ok sas) : count sas < SizeT.modulus := by
  obtain ⟨rfl, hlt⟩ := computeTotal_spec htotal
  rwa [(makeContiguousSas_spec hsas).1.count_eq]

theorem sound_withSas (hsas : count sas < SizeT.modulus) : (x.withSas T sas).Sound T :=
  sound_recompute hsas

theorem sound_reinterpret {contiguous total : String}
    (hy : x.reinterpret T dims contiguous total = .ok y) : y.Sound T := by
  obtain ⟨_, -, hy⟩ := bind_eq_ok.mp hy
  obtain ⟨n, htotal, hy⟩ := bind_eq_ok.mp hy
  obtain ⟨_, -, hy⟩ := bind_eq_ok.mp hy
  obtain ⟨sas, hsas, hy⟩ := bind_eq_ok.mp hy
  cases pure_eq_ok.mp hy
  exact sound_withSas (count_lt_of_dims htotal hsas)

/-- A view does not have more elements than its source, or as many as a `size_t`. -/
theorem Sound.view (hx : x.Sound T) (hy : v.run T x = .ok y) : y.Sound T := by
  cases v with
  | t =>
    rw [ViewOp.run, t] at hy
    split at hy
    next d₀ d₁ hsas =>
      cases hy
      have hfits := hx.fits
      rw [hsas] at hfits
      exact sound_withSas (count_perm (List.Perm.swap d₀ d₁ []) ▸ hfits)
    next => cases hy
  | permute order =>
    obtain ⟨_, hlength, hy⟩ := bind_eq_ok.mp hy
    obtain ⟨sas, hsas, hy⟩ := bind_eq_ok.mp hy
    cases pure_eq_ok.mp hy
    rw [check_eq_ok] at hlength
    obtain ⟨hpicks, hnodup, -⟩ := permutedSas_spec hsas
    exact sound_withSas (count_perm (hpicks.perm hnodup hlength) ▸ hx.fits)
  | view dims | reshape dims => exact sound_reinterpret hy
  | slice dim start stop step =>
    obtain ⟨d, first, n, stride, hd, -, hfirst, hn, -, rfl⟩ := slice_eq_ok hy
    exact sound_recompute (lt_of_le_of_lt (count_set_le hd (sliceSize_le hfirst hn)) hx.fits)

theorem Sound.packedCopy {placement : Placement} (hx : x.Sound T)
    (hy : x.packedCopy T h origin fresh placement = .ok (y, h')) : y.Sound T := by
  obtain ⟨cells, sas, -, hsas, rfl, -⟩ := packedCopy_eq_ok hy
  exact sound_recompute (count_congr (stampedSas_spec hsas) ▸ hx.fits)

theorem Sound.pack (hx : x.Sound T) (hy : p.run T h origin fresh x = .ok (y, h')) : y.Sound T := by
  cases p with
  | clone => exact hx.packedCopy hy
  | contiguous =>
    rw [PackOp.run, contiguousCopy] at hy
    split at hy
    · cases hy
      exact sound_withSas hx.fits
    · exact hx.packedCopy hy
  | toCpu =>
    rw [PackOp.run, toCpu] at hy
    split at hy
    · cases hy
      exact sound_withSas hx.fits
    · exact hx.packedCopy hy

theorem Sound.copy (hx : x.Sound T) (hy : x.copy T h origin fresh = .ok (y, h')) : y.Sound T := by
  obtain ⟨made, -, hy⟩ := bind_eq_ok.mp hy
  cases pure_eq_ok.mp hy
  exact sound_recompute hx.fits

theorem Sound.copyAssign {t : Tensor} (hx : x.Sound T)
    (hy : t.copyAssign T h origin fresh x = .ok (y, h')) : y.Sound T := by
  obtain ⟨made, -, hy⟩ := bind_eq_ok.mp hy
  cases pure_eq_ok.mp hy
  exact sound_recompute hx.fits

end Operations

end Tensor

/-! ### Runs -/

/-- A matrix has fewer than `2^64` elements. -/
def Construct.MatrixFits {α : Type} : Construct α → Prop
  | .matrix rows cols .. | .borrowMatrix _ rows cols _ => rows * cols < SizeT.modulus
  | _ => True

/-- The operation does not make a matrix of `2^64` elements or more. -/
def TensorOp.MatrixFits {α : Type} : TensorOp α → Prop
  | .construct _ c => c.MatrixFits
  | _ => True

section Runs

variable {α : Type} {T : SimdTarget} {h h' : Heap α} {c : Construct α} {y : Tensor}
  {s s' : TensorState α} {op : TensorOp α}

theorem Construct.sound (hfits : c.MatrixFits) (hy : c.run T h = .ok (y, h')) : y.Sound T := by
  cases c with
  | empty =>
    cases hy
    exact sound_recompute (by decide)
  | vector n placement origin fresh | borrowVector ptr n placement =>
    cases hy
    exact sound_recompute (count_vector_lt n)
  | matrix rows cols placement origin fresh | borrowMatrix ptr rows cols placement =>
    cases hy
    exact sound_recompute (lt_of_le_of_lt (count_matrix_le rows cols) hfits)
  | tensor dims placement origin fresh =>
    obtain ⟨n, htotal, hy⟩ := bind_eq_ok.mp hy
    obtain ⟨sas, hsas, hy⟩ := bind_eq_ok.mp hy
    cases pure_eq_ok.mp hy
    exact sound_recompute (count_lt_of_dims htotal hsas)
  | borrowTensor data dims placement =>
    obtain ⟨y', hy', hy⟩ := bind_eq_ok.mp hy
    cases pure_eq_ok.mp hy
    obtain ⟨n, htotal, hy'⟩ := bind_eq_ok.mp hy'
    obtain ⟨sas, hsas, hy'⟩ := bind_eq_ok.mp hy'
    cases pure_eq_ok.mp hy'
    exact sound_recompute (count_lt_of_dims htotal hsas)

end Runs

end Hisab.Vectorization
