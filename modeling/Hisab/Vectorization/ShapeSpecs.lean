import Hisab.Base.Fallible
import Hisab.Base.StridedLayout
import Hisab.Vectorization.Tensor

/-!
# Shapes of tensors

What the functions that compute sizes and strides return when they return.
-/

namespace Hisab.Vectorization

open Hisab.Base List Nat Tensor

/-- The sizes as `size_t` values with the strides. -/
def exactLayout (sas : SizesAndStrides) : List (Axis Int) :=
  sas.map fun d ↦ { size := d.size.toSizeT, stride := d.stride.val }

/-- The number of elements of a shape. -/
def count (sas : SizesAndStrides) : Nat := Layout.numel (exactLayout sas)

variable {d : Dim} {sas sas' : SizesAndStrides} {dims order seen : List Nat}

@[simp] theorem count_nil : count [] = 1 := rfl

@[simp] theorem count_cons : count (d :: sas) = d.size.toSizeT * count sas := Layout.numel_cons

theorem count_eq_prod : count sas = (sas.map fun d ↦ d.size.toSizeT).prod := by
  rw [count, Layout.numel, exactLayout, map_map]
  rfl

/-- The number of elements does not depend on the order of the dimensions. -/
theorem count_perm (h : sas.Perm sas') : count sas = count sas' := by
  rw [count_eq_prod, count_eq_prod]
  exact (h.map _).prod_eq

@[simp] theorem check_eq_ok {p : Prop} [Decidable p] {message : String} {u : Unit} :
    check p message = .ok u ↔ p := by
  unfold check
  split
  next h => exact iff_of_true rfl h
  next h => exact iff_of_false nofun h

@[simp] theorem int64_eq_ok {z : Int} {x : I64} : int64 z = .ok x ↔ x.val = z := by
  rw [← I64.ofInt?_eq_some, int64]
  cases I64.ofInt? z with
  | none => exact iff_of_false nofun nofun
  | some y => rw [Except.ok.injEq, Option.some.injEq]

/-! ### Dimensions -/

/-- `compute_total` multiplies exactly. -/
theorem computeTotal_spec {n : Nat} (h : computeTotal dims = .ok n) :
    n = dims.prod ∧ n < SizeT.modulus := by
  have hfold : ∀ total < SizeT.modulus, dims.foldlM (fun total d ↦ do
      check (d = 0 ∨ total ≤ SizeT.max / d) "tensor dimensions overflow size_t"
      return SizeT.mul total d) total = .ok n → n = total * dims.prod ∧ n < SizeT.modulus := by
    clear h
    induction dims with
    | nil =>
      intro total hlt h
      rw [foldlM_nil, pure_eq_ok] at h
      rw [prod_nil, mul_one]
      exact ⟨h.symm, h ▸ hlt⟩
    | cons d dims ih =>
      intro total hlt h
      rw [foldlM_cons, bind_eq_ok] at h
      obtain ⟨next, hturn, hrest⟩ := h
      obtain ⟨_, hcheck, hnext⟩ := bind_eq_ok.mp hturn
      rw [check_eq_ok] at hcheck
      rw [pure_eq_ok] at hnext
      have hmul : total * d < SizeT.modulus := by
        rcases hcheck with rfl | hle
        · exact lt_of_le_of_lt (mul_zero total).le (by decide)
        · have := le_trans (mul_le_mul_right d hle) (div_mul_le_self _ _)
          exact lt_of_le_of_lt this (by decide)
      rw [SizeT.mul_eq hmul] at hnext
      have := ih next (hnext ▸ hmul) hrest
      rwa [← hnext, mul_assoc] at this
  have := hfold 1 (by decide) h
  rwa [one_mul] at this

/-- The sizes are stored as they are. -/
def Stores (dims : List Nat) (sas : SizesAndStrides) : Prop :=
  List.Forall₂ (fun (n : Nat) (d : Dim) ↦ n < 2 ^ 63 ∧ d.size.val = n) dims sas

/-- The dimensions can be read back. -/
theorem Stores.sizes_eq (h : Stores dims sas) : dims = sas.map fun d ↦ d.size.toSizeT := by
  induction h with
  | nil => rfl
  | @cons n d dims sas hd _ ih =>
    have := I64.toSizeT_eq (x := d.size) (by omega)
    rw [map_cons, ← ih, show d.size.toSizeT = n by omega]

theorem Stores.count_eq (h : Stores dims sas) : count sas = dims.prod := by
  rw [count_eq_prod, ← h.sizes_eq]

theorem checkedDimensionToStorage_eq_ok {n : Nat} {x : I64} :
    checkedDimensionToStorage n = .ok x ↔ n < 2 ^ 63 ∧ x.val = (n : Int) := by
  rw [checkedDimensionToStorage, bind_eq_ok]
  have hmax : n ≤ I64.max ↔ n < 2 ^ 63 := by
    unfold I64.max
    omega
  constructor
  · rintro ⟨_, hcheck, h⟩
    rw [check_eq_ok] at hcheck
    obtain rfl := pure_eq_ok.mp h
    exact ⟨hmax.mp hcheck, I64.val_ofSizeT hcheck⟩
  · rintro ⟨hlt, hval⟩
    refine ⟨(), check_eq_ok.mpr (hmax.mpr hlt), pure_eq_ok.mpr (I64.ext ?_)⟩
    rw [hval, I64.val_ofSizeT (hmax.mpr hlt)]

/-- Each stride is the number of elements of the inner dimensions. -/
def Canonical : SizesAndStrides → Prop
  | [] => True
  | d :: sas => d.stride.val = count sas ∧ Canonical sas

theorem Canonical.packed (h : Canonical sas) : Layout.Packed (exactLayout sas) := by
  induction sas with
  | nil => trivial
  | cons d sas ih => exact ⟨ih h.2, .inr h.1⟩

theorem contiguousStrides_spec {strides : List I64} {sizes : List I64}
    (h : contiguousStrides dims = .ok strides)
    (hs : dims.mapM checkedDimensionToStorage = .ok sizes) :
    Stores dims (List.zipWith Dim.mk sizes strides) ∧
      Canonical (List.zipWith Dim.mk sizes strides) := by
  induction dims generalizing strides sizes with
  | nil =>
    cases pure_eq_ok.mp ((mapM_nil).symm.trans hs)
    exact ⟨.nil, trivial⟩
  | cons n dims ih =>
    obtain ⟨size, sizes, hsize, hsizes, rfl⟩ := forall₂_cons_left_iff.mp (mapM_eq_ok.mp hs)
    rw [checkedDimensionToStorage_eq_ok] at hsize
    cases dims with
    | nil =>
      cases h
      cases hsizes
      exact ⟨.cons hsize .nil, rfl, trivial⟩
    | cons m dims =>
      obtain ⟨inner, hinner, h⟩ := bind_eq_ok.mp h
      obtain ⟨nextDim, hnext, h⟩ := bind_eq_ok.mp h
      obtain ⟨_, -, h⟩ := bind_eq_ok.mp h
      obtain ⟨stride, hstride, h⟩ := bind_eq_ok.mp h
      cases pure_eq_ok.mp h
      obtain ⟨hstores, hcanonical⟩ := ih hinner (mapM_eq_ok.mpr hsizes)
      refine ⟨.cons hsize hstores, ?_, hcanonical⟩
      obtain ⟨size', sizes, hsize', hsizes, rfl⟩ := forall₂_cons_left_iff.mp hsizes
      rw [checkedDimensionToStorage_eq_ok] at hnext hsize'
      cases inner with
      | nil => cases hstores
      | cons s inner =>
        have hcast := I64.toSizeT_eq (x := size') (by omega)
        rw [int64_eq_ok] at hstride
        change stride.val = ((size'.toSizeT * count (zipWith Dim.mk sizes inner) : Nat) : Int)
        rw [hstride, cast_mul, hcast, hnext.2, ← hsize'.2, ← hcanonical.1, mul_comm]
        rfl

/-- `make_contiguous_sas` stores the dimensions with the strides of a packed array. -/
theorem makeContiguousSas_spec (h : makeContiguousSas dims = .ok sas) :
    Stores dims sas ∧ Canonical sas := by
  obtain ⟨strides, hstrides, h⟩ := bind_eq_ok.mp h
  obtain ⟨sizes, hsizes, h⟩ := bind_eq_ok.mp h
  cases pure_eq_ok.mp h
  exact contiguousStrides_spec hstrides hsizes

/-! ### Permutations and slices -/

/-- Axis `k` of the result is the axis of the source that `order` names. -/
def Picks (sas : SizesAndStrides) (order : List Nat) (sas' : SizesAndStrides) : Prop :=
  List.Forall₂ (fun src d ↦ sas[src]? = some d) order sas'

theorem permutedSas_spec (h : Tensor.permutedSas sas seen order = .ok sas') :
    Picks sas order sas' ∧ order.Nodup ∧ ∀ src ∈ order, src ∉ seen := by
  induction order generalizing seen sas' with
  | nil =>
    cases h
    exact ⟨.nil, .nil, by simp⟩
  | cons src order ih =>
    rw [permutedSas] at h
    cases hd : sas[src]? with
    | none =>
      rw [hd] at h
      cases h
    | some d =>
      rw [hd] at h
      obtain ⟨_, hseen, h⟩ := bind_eq_ok.mp h
      obtain ⟨rest, hrest, h⟩ := bind_eq_ok.mp h
      cases pure_eq_ok.mp h
      obtain ⟨hpicks, hnodup, hfresh⟩ := ih hrest
      rw [check_eq_ok] at hseen
      refine ⟨.cons hd hpicks, nodup_cons.mpr ⟨fun hmem ↦ ?_, hnodup⟩, ?_⟩
      · exact hfresh src hmem (mem_cons_self ..)
      · intro k hk
        rcases mem_cons.mp hk with rfl | hk
        · exact hseen
        · exact fun hmem ↦ hfresh k hk (mem_cons_of_mem _ hmem)

theorem Picks.map_eq (h : Picks sas order sas') : order.map (sas[·]?) = sas'.map some := by
  induction h with
  | nil => rfl
  | cons hd _ ih => rw [map_cons, map_cons, hd, ih]

/-- An order that takes every axis once is a permutation of the axes. -/
theorem Picks.order_perm (h : Picks sas order sas') (hnodup : order.Nodup)
    (hlength : order.length = sas.length) : order.Perm (List.range sas.length) := by
  have hsub : order ⊆ range sas.length := by
    intro src hsrc
    have hmem : sas[src]? ∈ sas'.map some := h.map_eq ▸ mem_map_of_mem hsrc
    obtain ⟨d, -, hd⟩ := mem_map.mp hmem
    exact mem_range.mpr (List.getElem?_eq_some_iff.mp hd.symm).1
  exact (hnodup.subperm hsub).perm_of_length_le (by rw [length_range, hlength])

/-- Such an order permutes the dimensions. -/
theorem Picks.perm (h : Picks sas order sas') (hnodup : order.Nodup)
    (hlength : order.length = sas.length) : sas'.Perm sas := by
  have hall : (range sas.length).map (sas[·]?) = sas.map some := by
    refine ext_getElem? fun k ↦ ?_
    by_cases hk : k < sas.length
    · simp [hk]
    · simp [hk]
  have := (h.order_perm hnodup hlength).map (sas[·]?)
  rw [h.map_eq, hall] at this
  exact (map_perm_map_iff (Option.some_injective _)).mp this

section Slice

variable {size start stop step n : I64} {first last : Int}

/-- The first element of a slice is clamped to its dimension. -/
theorem sliceStart_spec (h : Tensor.sliceStart size start = .ok first) :
    ∃ wrapped : I64, (wrapped.val = if start.val < 0 then start.val + size.val else start.val) ∧
      first = min (max wrapped.val 0) size.val := by
  rw [sliceStart] at h
  split at h
  next hneg =>
    obtain ⟨wrapped, hwrapped, h⟩ := bind_eq_ok.mp h
    exact ⟨wrapped, (int64_eq_ok.mp hwrapped).trans (if_pos hneg).symm, (pure_eq_ok.mp h).symm⟩
  next hneg => exact ⟨start, (if_neg hneg).symm, (pure_eq_ok.mp h).symm⟩

theorem sliceStart_bounds (h : Tensor.sliceStart size start = .ok first) (hsize : 0 ≤ size.val) :
    0 ≤ first ∧ first ≤ size.val := by
  obtain ⟨wrapped, -, rfl⟩ := sliceStart_spec h
  omega

theorem sliceStart_of_neg (h : Tensor.sliceStart size start = .ok first) (hsize : size.val < 0) :
    first = size.val := by
  obtain ⟨wrapped, -, rfl⟩ := sliceStart_spec h
  omega

theorem sliceStop_bounds (stop : I64) (hsize : 0 ≤ size.val) :
    0 ≤ Tensor.sliceStop size stop ∧ Tensor.sliceStop size stop ≤ size.val := by
  unfold sliceStop
  split <;> omega

theorem sliceStop_of_neg (stop : I64) (hsize : size.val < 0) : Tensor.sliceStop size stop = size.val := by
  unfold sliceStop
  split <;> omega

/-- The end is reached from the beginning in the direction of the step. -/
def SliceRuns (first last : Int) (step : I64) : Prop :=
  first < last ∧ 0 < step.val ∨ last < first ∧ step.val < 0

/-- A slice that is not empty has the direction of its step, and its last element is before
the end. -/
theorem sliceSize_spec (h : Tensor.sliceSize first last step = .ok n) : 0 ≤ n.val ∧ (n.val ≠ 0 →
      SliceRuns first last step ∧ (n.val - 1) * |step.val| < |last - first|) ∧
      (SliceRuns first last step → |last - first| ≤ n.val * |step.val|) := by
  unfold SliceRuns
  rw [sliceSize] at h
  split at h
  next hdir =>
    obtain ⟨absStep, habs, h⟩ := bind_eq_ok.mp h
    obtain ⟨sum, hsum, h⟩ := bind_eq_ok.mp h
    rw [int64_eq_ok] at habs hsum h
    have hpos : 0 < |step.val| := abs_pos.mpr (by omega)
    have hspan : 0 < |last - first| := abs_pos.mpr (by omega)
    rw [hsum, habs] at h
    refine ⟨h ▸ Int.ediv_nonneg (by omega) hpos.le, fun _ ↦ ⟨by omega, ?_⟩, fun _ ↦ ?_⟩
    · have := Int.ediv_mul_le (|last - first| + |step.val| - 1) hpos.ne'
      rw [h, sub_mul]
      omega
    · have := Int.lt_ediv_add_one_mul_self (|last - first| + |step.val| - 1) hpos
      rw [add_mul, ← h] at this
      omega
  next hdir =>
    cases h
    exact ⟨le_refl 0, fun hne ↦ absurd rfl hne, fun hdir' ↦ absurd hdir' (by omega)⟩

/-- A slice is not longer than its dimension. -/
theorem sliceSize_le (hstart : Tensor.sliceStart size start = .ok first)
    (h : Tensor.sliceSize first (Tensor.sliceStop size stop) step = .ok n) :
    n.toSizeT ≤ size.toSizeT := by
  obtain ⟨hnonneg, hne, -⟩ := sliceSize_spec h
  have hn := I64.toSizeT_eq hnonneg
  by_cases hz : n.val = 0
  · omega
  obtain ⟨hdir, hlast⟩ := hne hz
  unfold SliceRuns at hdir
  by_cases hneg : size.val < 0
  · have := sliceStart_of_neg hstart hneg
    have := sliceStop_of_neg stop hneg
    omega
  have hle : n.val - 1 ≤ (n.val - 1) * |step.val| :=
    le_mul_of_one_le_right (by omega) (Int.one_le_abs (by omega))
  have := sliceStart_bounds hstart (by omega)
  have := sliceStop_bounds stop (show 0 ≤ size.val by omega)
  have hspan : |sliceStop size stop - first| ≤ size.val := abs_le.mpr (by omega)
  have := I64.toSizeT_eq (show 0 ≤ size.val by omega)
  omega

/-- The dimensions of a slice. -/
theorem slice_eq_ok {T : SimdTarget} {x y : Tensor} {dim : Nat}
    (h : x.slice T dim start stop step = .ok y) :
    ∃ d first n stride, x.sizesAndStrides[dim]? = some d ∧ step.val ≠ 0 ∧
      Tensor.sliceStart d.size start = .ok first ∧
      Tensor.sliceSize first (Tensor.sliceStop d.size stop) step = .ok n ∧
      stride.val = d.stride.val * step.val ∧
      y = Tensor.ofView T
        (x.view.data.map fun p ↦ p.add (SizeT.mul (first % 2 ^ 64).toNat d.stride.toSizeT))
        (if SizeT.mul (first % 2 ^ 64).toNat d.stride.toSizeT < x.view.size then
          x.view.size - SizeT.mul (first % 2 ^ 64).toNat d.stride.toSizeT else 0)
        (x.sizesAndStrides.set dim { size := n, stride }) x.view.placement := by
  rw [slice] at h
  cases hd : x.sizesAndStrides[dim]? with
  | none =>
    rw [hd] at h
    cases h
  | some d =>
    rw [hd] at h
    obtain ⟨_, hstep, h⟩ := bind_eq_ok.mp h
    obtain ⟨first, hfirst, h⟩ := bind_eq_ok.mp h
    obtain ⟨n, hn, h⟩ := bind_eq_ok.mp h
    obtain ⟨stride, hstride, h⟩ := bind_eq_ok.mp h
    rw [check_eq_ok] at hstep
    rw [int64_eq_ok] at hstride
    exact ⟨d, first, n, stride, rfl, hstep, hfirst, hn, hstride, (pure_eq_ok.mp h).symm⟩

end Slice

/-- `stamp_contiguous_shape` keeps the sizes. -/
theorem stampedSas_spec (h : Tensor.stampedSas sas = .ok sas') :
    sas'.map Dim.size = sas.map Dim.size := by
  induction sas generalizing sas' with
  | nil =>
    cases h
    rfl
  | cons d sas ih =>
    cases sas with
    | nil =>
      cases h
      rfl
    | cons d' sas =>
      obtain ⟨inner, hinner, h⟩ := bind_eq_ok.mp h
      obtain ⟨stride, -, h⟩ := bind_eq_ok.mp h
      cases pure_eq_ok.mp h
      rw [map_cons, map_cons, ih hinner]

/-- A packed copy has the sizes of its source and storage of its own. -/
theorem packedCopy_eq_ok {α : Type} {T : SimdTarget} {h h' : Heap α} {origin : Nat}
    {fresh : Nat → α} {placement : Placement} {x y : Tensor}
    (hy : x.packedCopy T h origin fresh placement = .ok (y, h')) :
    ∃ cells sas, (x.numel ≠ 0 → x.logicalElements h fresh = .ok cells) ∧
      Tensor.stampedSas x.sizesAndStrides = .ok sas ∧
      y = Tensor.recompute T
        { (Tensor.ofSize T h placement origin cells x.numel).1 with sizesAndStrides := sas } ∧
      h' = (Tensor.ofSize T h placement origin cells x.numel).2 := by
  rw [packedCopy] at hy
  split at hy
  next hz =>
    obtain ⟨cells, hcells, hy⟩ := bind_eq_ok.mp hy
    obtain ⟨sas, hsas, hy⟩ := bind_eq_ok.mp hy
    cases pure_eq_ok.mp hy
    exact ⟨cells, sas, fun hne ↦ absurd hz hne, hsas, rfl, rfl⟩
  next =>
    obtain ⟨cells, hcells, hy⟩ := bind_eq_ok.mp hy
    obtain ⟨sas, hsas, hy⟩ := bind_eq_ok.mp hy
    cases pure_eq_ok.mp hy
    exact ⟨cells, sas, fun _ ↦ hcells, hsas, rfl, rfl⟩

theorem count_congr (h : sas'.map Dim.size = sas.map Dim.size) : count sas' = count sas := by
  have := congrArg (fun sizes ↦ (sizes.map I64.toSizeT).prod) h
  simpa [count_eq_prod, Function.comp_def] using this

/-- A smaller dimension leaves fewer elements. -/
theorem count_set_le {dim : Nat} {e : Dim} (hd : sas[dim]? = some d)
    (hle : e.size.toSizeT ≤ d.size.toSizeT) : count (sas.set dim e) ≤ count sas := by
  induction sas generalizing dim with
  | nil => exact le_refl _
  | cons a sas ih =>
    cases dim with
    | zero =>
      cases hd
      exact mul_le_mul_right _ hle
    | succ dim => exact mul_le_mul_left _ (ih hd)

/-! ### Flags -/

namespace Tensor

variable {T : SimdTarget} {t : Tensor}

@[simp] theorem recompute_sizesAndStrides :
    (t.recompute T).sizesAndStrides = t.sizesAndStrides := by
  unfold recompute
  dsimp only
  split
  · rfl
  · split <;> rfl

@[simp] theorem recompute_owner : (t.recompute T).owner = t.owner := by
  unfold recompute
  dsimp only
  split
  · rfl
  · split <;> rfl

@[simp] theorem recompute_view : (t.recompute T).view = t.view := by
  unfold recompute
  dsimp only
  split
  · rfl
  · split <;> rfl

theorem recompute_numel (h : t.sizesAndStrides ≠ []) :
    (t.recompute T).numel = totalSize t.sizesAndStrides := by
  rw [recompute, if_neg h]
  dsimp only
  split <;> rfl

theorem recompute_contiguous (h : t.sizesAndStrides ≠ []) : (t.recompute T).contiguous =
    (decide (totalSize t.sizesAndStrides = 0) || (expectedStride t.sizesAndStrides).isSome) := by
  rw [recompute, if_neg h]
  dsimp only
  split <;> rfl

/-- The flags are functions of the shape and the view. -/
theorem recompute_congr {u : Tensor} (hsas : t.sizesAndStrides = u.sizesAndStrides)
    (howner : t.owner = u.owner) (hview : t.view = u.view) : t.recompute T = u.recompute T := by
  unfold recompute
  rw [hsas, howner, hview]

theorem recompute_recompute : (t.recompute T).recompute T = t.recompute T :=
  recompute_congr recompute_sizesAndStrides recompute_owner recompute_view

end Tensor

end Hisab.Vectorization
