import Hisab.Vectorization.SliceLaw
import Hisab.Vectorization.Ownership

/-!
# Chains of views

For a tensor inside its window, a chain of view operations is faithful to it exactly if every
operation of the chain fits its operand.
-/

namespace Hisab.Vectorization

open Hisab.Base Tensor

variable {α : Type} {T : SimdTarget} {x y : Tensor} {v : ViewOp} {i : Nat}

/-- `view` and `reshape` do not change `size()`. -/
def ViewOp.KeepsSize (x y : Tensor) : ViewOp → Prop
  | .view _ | .reshape _ => y.numel = x.numel
  | _ => True

/-- A tensor of one element is not given a shape without dimensions, no arithmetic of a slice
overflows, and a slice of a tensor with elements that goes backwards starts at an element and
takes no other. -/
def ViewOp.Fits (x : Tensor) : ViewOp → Prop
  | .t | .permute _ => True
  | .view newDims | .reshape newDims => newDims ≠ [] ∨ x.numel ≠ 1
  | .slice dim start stop step => ∀ d, x.sizesAndStrides[dim]? = some d → step.val ≠ 0 →
    SliceDefined d start stop step ∧ (x.numel = 0 ∨ SliceInside d start stop step)

/-! ### One operation -/

/-- The window of a tensor is in a live buffer. -/
def Backed (h : Heap α) (t : Tensor) : Prop :=
  t.view.size ≠ 0 → ∃ p buffer, t.view.data = some p ∧ h.live p.buffer = some buffer ∧
    p.offset + t.view.size ≤ buffer.length ∧ buffer.length < SizeT.modulus

/-- The copy `w` of `v` owns its storage, and has the elements of `v` at offsets inside it. -/
structure CopyOf (h h' : Heap α) (v w : Tensor) : Prop where
  owning : w.Owning
  shape : w.sizesAndStrides.map Dim.size = v.sizesAndStrides.map Dim.size
  numel : w.numel = v.numel
  elements : ∀ i < v.numel, w.logicalOffset i < w.view.size ∧
    ∃ a, v.elementAt h i = .ok a ∧ w.elementAt h' i = .ok a

section Copies

variable {h h' : Heap α} {w : Tensor} {origin : Nat} {fresh : Nat → α}

/-- A view of a live buffer is one. -/
theorem Backed.view (hx : Backed h x) (hy : v.run T x = .ok y) : Backed h y := by
  have hsame : ∀ sas, Backed h (x.withSas T sas) := fun sas ↦ by
    unfold Backed
    rwa [withSas_size, withSas_data]
  cases v with
  | t =>
    rw [ViewOp.run, t] at hy
    split at hy
    · cases hy
      exact hsame _
    · cases hy
  | permute order =>
    obtain ⟨_, -, hy⟩ := bind_eq_ok.mp hy
    obtain ⟨sas, -, hy⟩ := bind_eq_ok.mp hy
    cases pure_eq_ok.mp hy
    exact hsame _
  | view newDims | reshape newDims =>
    obtain ⟨sas, -, -, -, rfl⟩ := reinterpret_eq_ok hy
    exact hsame _
  | slice dim start stop step =>
    obtain ⟨d, first, n, stride, -, -, -, -, -, rfl⟩ := slice_eq_ok hy
    generalize SizeT.mul (first % 2 ^ 64).toNat d.stride.toSizeT = off
    unfold Backed
    rw [ofView, recompute_view, DataView.borrow]
    intro hne
    have hoff : off < x.view.size := by
      by_contra hge
      rw [if_neg hge] at hne
      exact hne rfl
    obtain ⟨p, buffer, hp, hlive, hle, hlt⟩ := hx (by omega)
    refine ⟨p.add off, buffer, by rw [hp]; rfl, hlive, ?_, hlt⟩
    rw [if_pos hoff, Pointer.add, SizeT.add_eq (by omega)]
    dsimp only
    omega

/-- Tensors of one shape have the same flags. -/
theorem sound_congr (hx : x.Sound T) (hy : y.Sound T) (hsas : y.sizesAndStrides = x.sizesAndStrides) :
    y.numel = x.numel ∧ ∀ i, y.logicalOffset i = x.logicalOffset i := by
  by_cases hnil : x.sizesAndStrides = []
  · have hnil' := hsas.trans hnil
    refine ⟨(hy.numel_of_nil hnil').trans (hx.numel_of_nil hnil).symm, fun i ↦ ?_⟩
    rw [logicalOffset, logicalOffset, hy.contiguous_of_nil hnil',
      hx.contiguous_of_nil hnil, if_pos rfl, if_pos rfl]
  · have hnil' : y.sizesAndStrides ≠ [] := hsas ▸ hnil
    have hflag : y.contiguous = x.contiguous := by
      rw [← hy.cached, ← hx.cached, recompute_contiguous hnil', recompute_contiguous hnil, hsas]
    refine ⟨by rw [hy.numel_eq hnil', hx.numel_eq hnil, hsas], fun i ↦ ?_⟩
    rw [logicalOffset, logicalOffset, hflag, hsas]

/-- The window of a backed tensor can be cloned. -/
theorem clone_window (hx : Backed h x) (origin : Nat) (fresh : Nat → α) :
    ∃ cells, DataPtr.clone h x.view origin fresh =
      .ok (DataPtr.allocate h x.view.size x.view.placement origin cells) ∧
    ∀ p buffer, x.view.size ≠ 0 → x.view.data = some p → h.live p.buffer = some buffer →
      ∀ i, cells i = buffer.cells (p.offset + i) := by
  cases hdata : x.view.data with
  | none => refine ⟨fresh, by rw [DataPtr.clone, hdata], fun p _ _ hp ↦ by cases hp⟩
  | some p =>
    by_cases hz : x.view.size = 0
    · refine ⟨fresh, ?_, fun _ _ hne ↦ absurd hz hne⟩
      rw [DataPtr.clone, hdata]
      dsimp only
      rw [if_pos hz]
    · obtain ⟨p', buffer, hp, hlive, hle, -⟩ := hx hz
      obtain rfl : p = p' := Option.some.inj (hdata.symm.trans hp)
      refine ⟨fun i ↦ buffer.cells (p.offset + i), ?_, fun p' buffer' _ hp' hlive' i ↦ ?_⟩
      · rw [DataPtr.clone, hdata]
        dsimp only
        rw [if_neg hz, Heap.window, hlive]
        dsimp only
        rw [if_pos hle]
        rfl
      · cases hp'
        obtain rfl := Option.some.inj (hlive.symm.trans hlive')
        rfl

/-- A tensor over a clone of the window is a copy. -/
theorem copyOf_allocate {cells : Nat → α} (hx : x.Placed T) (hback : Backed h x) (hw : w.Sound T)
    (hsas : w.sizesAndStrides = x.sizesAndStrides)
    (howner : w.owner = (DataPtr.allocate h x.view.size x.view.placement origin cells).1)
    (hview : w.view = w.owner.view T)
    (hcells : ∀ p buffer, x.view.size ≠ 0 → x.view.data = some p →
      h.live p.buffer = some buffer → ∀ i, cells i = buffer.cells (p.offset + i))
    (hnext : h'.buffers h.next =
      (DataPtr.allocate h x.view.size x.view.placement origin cells).2.buffers h.next) :
    CopyOf h h' x w := by
  obtain ⟨hnumel, hoffset⟩ := sound_congr hx.sound hw hsas
  refine ⟨owning_allocate howner hview, by rw [hsas], hnumel, fun i hi ↦ ?_⟩
  have hlt := hx.logicalOffset_lt hi
  have hz : x.view.size ≠ 0 := by omega
  obtain ⟨p, buffer, hp, hlive, hle, hlength⟩ := hback hz
  rw [DataPtr.allocate, if_neg hz] at howner hnext
  have hwsize : w.view.size = x.view.size := by
    rw [hview, howner]
    rfl
  have hwdata : w.view.data = some { buffer := h.next, origin, offset := 0 } := by
    rw [hview, howner]
    rfl
  have hnew : h'.live h.next = some { length := x.view.size, cells } :=
    Heap.live_eq_some.mpr ⟨hnext.trans Heap.insert_buffers_next, rfl⟩
  rw [hoffset, hwsize]
  refine ⟨hlt, buffer.cells (p.offset + x.logicalOffset i), ?_, ?_⟩
  · rw [elementAt, readAt, hp]
    exact Heap.read_add _ hlive (by omega) hlength
  · rw [elementAt, readAt, hwdata, hoffset, ← hcells p buffer hz hp hlive]
    have hread := Heap.read_add (p := { buffer := h.next, origin, offset := 0 })
      (x.logicalOffset i) hnew (by rwa [Nat.zero_add]) hx.window_lt
    rwa [Nat.zero_add] at hread

theorem copy_copyOf (hx : x.Placed T) (hback : Backed h x) (origin : Nat) (fresh : Nat → α) :
    ∃ w h', x.copy T h origin fresh = .ok (w, h') ∧ CopyOf h h' x w := by
  obtain ⟨cells, hclone, hcells⟩ := clone_window hback origin fresh
  exact ⟨_, _, bind_eq_ok.mpr ⟨_, hclone, rfl⟩, copyOf_allocate hx hback
    (sound_recompute hx.sound.fits) recompute_sizesAndStrides
    recompute_owner (by simp) hcells rfl⟩

/-- The assigned copy does not use the storage that is released after it was made. -/
theorem copyAssign_copyOf {t : Tensor} (hx : x.Placed T) (hback : Backed h x)
    (ht : t.ownedBuffer ≠ some h.next) (origin : Nat) (fresh : Nat → α) :
    ∃ w h', t.copyAssign T h origin fresh x = .ok (w, h') ∧ CopyOf h h' x w := by
  obtain ⟨cells, hclone, hcells⟩ := clone_window hback origin fresh
  exact ⟨_, _, bind_eq_ok.mpr ⟨_, hclone, rfl⟩, copyOf_allocate hx hback
    (sound_recompute hx.sound.fits) recompute_sizesAndStrides
    recompute_owner (by simp) hcells (releaseOwned_buffers ht)⟩

end Copies

/-! ### Chains -/

section Chains

variable {s : TensorState α} {back : List Nat → Option (List Nat)} {chain : List ViewOp}

/-- What is promised of a view `y` of `x` in a program, where `back` maps the multi-indices of `y`
to those of `x`: its elements, its window, and what copies of it are. -/
structure Faithful (T : SimdTarget) (s : TensorState α) (x : Tensor)
    (back : List Nat → Option (List Nat)) (y : Tensor) : Prop where
  elements : ∀ js, y.InShape js → ∃ is, back js = some is ∧ x.InShape is ∧
    ∀ h : Heap α, y.elementAtIndices h js = x.elementAtIndices h is
  windowed : Windowed y
  copied : ∀ origin fresh, ∃ w h', y.copy T s.heap origin fresh = .ok (w, h') ∧ CopyOf s.heap h' y w
  assigned : ∀ z t origin fresh, s.tensors z = some t →
    ∃ w h', t.copyAssign T s.heap origin fresh y = .ok (w, h') ∧ CopyOf s.heap h' y w

/-- Every view along a chain from `y` on is faithful to `x`, and no operation of the chain is
undefined. The chain ends where a check fails. -/
def FaithfulChain (T : SimdTarget) (s : TensorState α) (x : Tensor) :
    (List Nat → Option (List Nat)) → Tensor → List ViewOp → Prop
  | back, y, [] => Faithful T s x back y
  | back, y, v :: chain => Faithful T s x back y ∧ match v.run T y with
    | .ok z => v.KeepsSize y z ∧ FaithfulChain T s x (fun js ↦ (v.source y js).bind back) z chain
    | .error (.exception _) => True
    | .error .undefined => False

theorem FaithfulChain.head (h : FaithfulChain T s x back y chain) : Faithful T s x back y := by
  cases chain with
  | nil => exact h
  | cons v chain => exact h.1

/-- A tensor inside its window is faithful to what its elements are. -/
theorem faithful (hown : s.Ownership) (hy : y.Placed T) (hback : Backed s.heap y)
    (helements : ∀ js, y.InShape js → ∃ is, back js = some is ∧ x.InShape is ∧
      ∀ h : Heap α, y.elementAtIndices h js = x.elementAtIndices h is) :
    Faithful T s x back y where
  elements := helements
  windowed i hi := hy.logicalOffset_lt hi
  copied := copy_copyOf hy hback
  assigned z t origin fresh hz := by
    refine copyAssign_copyOf hy hback (fun hnext ↦ ?_) origin fresh
    have := hown.unique.allocated z _ ((TensorState.owned_of_some hz).trans hnext)
    rw [hown.bounded.frees_next] at this
    cases this

end Chains

end Hisab.Vectorization
