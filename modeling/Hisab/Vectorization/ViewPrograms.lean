import Hisab.Vectorization.ViewChains

/-!
# Views in programs

In programs whose operations fit, every tensor stays inside its window, and owners have the
storage they are about. So every chain of views on an owner is faithful exactly if it fits.
-/

namespace Hisab.Vectorization

open Hisab.Base Tensor Nat SizeT

variable {α : Type} {T : SimdTarget} {h h' : Heap α} {x y t : Tensor} {origin : Nat}
  {fresh : Nat → α}

/-- The sizes are `size_t` values, and a matrix has fewer than `2^64` elements. -/
def Construct.Fits : Construct α → Prop
  | .vector n .. | .borrowVector _ n _ => n < SizeT.modulus
  | .matrix rows cols .. | .borrowMatrix _ rows cols _ => rows * cols < SizeT.modulus
  | _ => True

/-- A constructor or a view fits. -/
def TensorOp.Fits (s : TensorState α) : TensorOp α → Prop
  | .construct _ c => c.Fits
  | .view _ y v => ∀ t, s.tensors y = some t → v.Fits t
  | _ => True

/-! ### Windows -/

namespace Tensor

/-- A packed shape that its window has room for. -/
theorem placed_packed (hcount : count x.sizesAndStrides < SizeT.modulus)
    (hwindow : x.view.size < SizeT.modulus)
    (hpacked : x.sizesAndStrides ≠ [] → count x.sizesAndStrides ≠ 0 →
      Layout.Packed (exactLayout x.sizesAndStrides) ∧ count x.sizesAndStrides ≤ x.view.size) :
    (x.recompute T).Placed T := by
  refine placed_recompute hcount hwindow fun hnil hz ↦ ?_
  obtain ⟨hp, hle⟩ := hpacked hnil hz
  refine ⟨hp.ascending hz, ?_⟩
  rw [hp.extent_eq hz]
  change (count x.sizesAndStrides : Int) - 1 < x.view.size
  omega

theorem packed_vector (n : Nat) :
    Layout.Packed (exactLayout [{ size := .ofSizeT n, stride := 1 }]) :=
  ⟨trivial, .inr rfl⟩

theorem packed_matrix {rows cols : Nat} (hfits : rows * cols < SizeT.modulus)
    (hz : count (matrixSas rows cols) ≠ 0) : Layout.Packed (exactLayout (matrixSas rows cols)) := by
  refine ⟨packed_vector cols, ?_⟩
  change (I64.ofSizeT rows).toSizeT = 1 ∨
    (I64.ofSizeT cols).val = (((I64.ofSizeT cols).toSizeT * 1 : Nat) : Int)
  have hrows : (I64.ofSizeT rows).toSizeT ≠ 0 := (mul_ne_zero_iff.mp hz).1
  have hle := I64.toSizeT_ofSizeT_le (n := rows)
  refine or_iff_not_imp_left.mpr fun hone ↦ ?_
  have hcols : cols ≤ I64.max := by
    have := mul_le_mul_right cols (show 2 ≤ rows by omega)
    have : modulus = 2 * (I64.max + 1) := rfl
    omega
  have hval := I64.val_ofSizeT hcols
  have := I64.toSizeT_eq (x := .ofSizeT cols) (by omega)
  omega

variable {sas sas' : SizesAndStrides}

end Tensor

theorem placed_dims {n : Nat} {dims : List Nat} {t : Tensor} (htotal : computeTotal dims = .ok n)
    (hsas : makeContiguousSas dims = .ok t.sizesAndStrides) (hwindow : t.view.size = n) :
    (t.recompute T).Placed T := by
  obtain ⟨hprod, hlt⟩ := computeTotal_spec htotal
  obtain ⟨hstores, hcanonical⟩ := makeContiguousSas_spec hsas
  have hcount : count t.sizesAndStrides = n := hstores.count_eq.trans hprod.symm
  exact placed_packed (hcount ▸ hlt) (hwindow ▸ hlt) fun _ _ ↦
    ⟨hcanonical.packed, by rw [hcount, hwindow]⟩

@[simp] theorem allocate_size {n : Nat} {placement : Placement} :
    (DataPtr.allocate h n placement origin fresh).1.size = n := by
  by_cases hz : n = 0
  · rw [DataPtr.allocate, if_pos hz]
  · rw [DataPtr.allocate, if_neg hz]

@[simp] theorem view_size (owner : DataPtr) : (owner.view T).size = owner.size := rfl

theorem Construct.placed {c : Construct α} (hfits : c.Fits) (hy : c.run T h = .ok (y, h')) :
    y.Placed T := by
  have hvector : ∀ (n : Nat) (view : DataView) (owner : DataPtr), n < modulus →
      view.size = n → (recompute T
        { sizesAndStrides := [{ size := .ofSizeT n, stride := 1 }], owner, view }).Placed T := by
    intro n view owner hn hview
    refine placed_packed (count_vector_lt n) (hview ▸ hn) fun _ _ ↦ ⟨packed_vector n, ?_⟩
    rw [hview, count_cons, count_nil, mul_one]
    exact I64.toSizeT_ofSizeT_le
  have hmatrix : ∀ (rows cols : Nat) (view : DataView) (owner : DataPtr),
      rows * cols < modulus → view.size = mul rows cols → (recompute T
        { sizesAndStrides := matrixSas rows cols, owner, view }).Placed T := by
    intro rows cols view owner hlt hview
    rw [mul_eq hlt] at hview
    have hle := count_matrix_le rows cols
    exact placed_packed (lt_of_le_of_lt hle hlt) (hview ▸ hlt) fun _ hz ↦
      ⟨packed_matrix hlt hz, hview ▸ hle⟩
  cases c with
  | empty =>
    cases hy
    exact placed_packed (by decide) (by decide) fun _ hz ↦ absurd rfl hz
  | vector n placement origin fresh =>
    cases hy
    exact hvector n ((DataPtr.allocate h n placement origin fresh).1.view T) _ hfits allocate_size
  | borrowVector ptr n placement =>
    cases hy
    exact hvector n _ _ hfits rfl
  | matrix rows cols placement origin fresh =>
    cases hy
    exact hmatrix rows cols ((DataPtr.allocate h _ placement origin fresh).1.view T) _ hfits
      allocate_size
  | borrowMatrix ptr rows cols placement =>
    cases hy
    exact hmatrix rows cols _ _ hfits rfl
  | tensor dims placement origin fresh =>
    obtain ⟨n, htotal, hy⟩ := bind_eq_ok.mp hy
    obtain ⟨sas, hsas, hy⟩ := bind_eq_ok.mp hy
    cases pure_eq_ok.mp hy
    exact placed_dims htotal hsas (@allocate_size _ h _ _ n placement)
  | borrowTensor data dims placement =>
    obtain ⟨y', hy', hy⟩ := bind_eq_ok.mp hy
    cases pure_eq_ok.mp hy
    obtain ⟨n, htotal, hy'⟩ := bind_eq_ok.mp hy'
    obtain ⟨sas, hsas, hy'⟩ := bind_eq_ok.mp hy'
    cases pure_eq_ok.mp hy'
    exact placed_dims htotal hsas rfl

/-- An owner of storage has a whole buffer. -/
def OwnerOk (h : Heap α) (t : Tensor) : Prop := t.owner.size ≠ 0 →
  ∃ p buffer, t.owner.data = some p ∧ t.ownedBuffer = some p.buffer ∧ p.offset = 0 ∧
    h.buffers p.buffer = some buffer ∧ buffer.length = t.owner.size

theorem OwnerOk.mono (ht : OwnerOk h t) (hext : h.Extends h') : OwnerOk h' t := by
  intro hne
  obtain ⟨p, buffer, hp, hown, hoff, hbuffer, hlength⟩ := ht hne
  obtain ⟨buffer', hbuffer', hlength'⟩ := hext _ _ hbuffer
  exact ⟨p, buffer', hp, hown, hoff, hbuffer', hlength'.trans hlength⟩

theorem Made.extends (hm : Made h t h') (hb : h.Bounded) : h.Extends h' := by
  cases hm with
  | nothing => exact .refl h
  | allocated => exact hb.extends_insert

namespace TensorState

variable {s s' : TensorState α} {op : TensorOp α}

theorem All.imp {P Q : Tensor → Prop} (hs : s.All P) (hPQ : ∀ t, P t → Q t) : s.All Q :=
  fun z t hz ↦ hPQ t (hs z t hz)

end TensorState

end Hisab.Vectorization
