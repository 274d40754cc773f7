import Hisab.Vectorization.TensorStorage

/-!
# Tensors

Models `tensor<value_t>` (`Library/Vectorization/terminals/tensor.h:157–1647`): its shape and
strides, the flags cached with them, its constructors, copies, moves and views. The checks
that are compiled into debug builds are made.
-/

namespace Hisab.Vectorization

open Hisab.Base

/-- One dimension of `sizes_and_strides` (`sizes_and_strides.h:27–417`). -/
structure Dim where
  size : I64
  stride : I64
  deriving DecidableEq

abbrev SizesAndStrides := List Dim

/-- A check with its message. -/
def check (p : Prop) [Decidable p] (message : String) : Except TensorError Unit :=
  if p then .ok () else .error (.exception message)

/-- The result of `int64_t` arithmetic. -/
def int64 (z : Int) : Except TensorError I64 :=
  match I64.ofInt? z with
  | some x => .ok x
  | none => .error .undefined

/-! ### Shapes -/

/-- `compute_total` (`tensor.h:1320–1331`). -/
def computeTotal (dims : List Nat) : Except TensorError Nat :=
  dims.foldlM (fun total d ↦ do
    check (d = 0 ∨ total ≤ SizeT.max / d) "tensor dimensions overflow size_t"
    return SizeT.mul total d) 1

/-- `checked_dimension_to_storage` (`tensor.h:1333–1340`). -/
def checkedDimensionToStorage (dim : Nat) : Except TensorError I64 := do
  check (dim ≤ I64.max) s!"tensor dimension {dim} exceeds int64_t storage limit"
  return .ofSizeT dim

/-- The loop over the strides in `make_contiguous_sas` (`tensor.h:1349–1358`), from the
innermost dimension out. -/
def contiguousStrides : List Nat → Except TensorError (List I64)
  | [] => .ok []
  | [_] => .ok [1]
  | _ :: d :: dims => do
    let strides ← contiguousStrides (d :: dims)
    let nextDim ← checkedDimensionToStorage d
    let nextStride := strides.headD 1
    check (nextDim.val = 0 ∨ nextStride.val ≤ I64.max / nextDim.val)
      "tensor stride exceeds int64_t storage limit"
    return (← int64 (nextStride.val * nextDim.val)) :: strides

/-- `make_contiguous_sas` (`tensor.h:1343–1361`). -/
def makeContiguousSas (dims : List Nat) : Except TensorError SizesAndStrides := do
  let strides ← contiguousStrides dims
  let sizes ← dims.mapM checkedDimensionToStorage
  return List.zipWith Dim.mk sizes strides

/-- The product of the sizes in `recompute_cpu_simd_alignment_state` (`tensor.h:1584–1588`). -/
def totalSize (sas : SizesAndStrides) : Nat :=
  sas.foldl (fun total d ↦ SizeT.mul total d.size.toSizeT) 1

/-- One turn of the loop of `recompute_cpu_simd_alignment_state` over the strides
(`tensor.h:1607–1619`); `none` once it has stopped. -/
def strideTurn (d : Dim) : Option Int → Option Int
  | some expected =>
    if d.size.val = 1 then some expected
    else if d.stride.val ≠ expected then none
    else some (expected * d.size.val)
  | none => none

/-- That loop, from the innermost dimension out. The product leaves `int64_t` only after the
last comparison, unless the sizes multiply to `2^64`. -/
def expectedStride (sas : SizesAndStrides) : Option Int := sas.foldr strideTurn (some 1)

/-- One turn of the loop of `logical_offset` (`tensor.h:1453–1463`) on `rem` and `off`; `none`
once it has met an empty dimension. -/
def offsetTurn (d : Dim) : Option (Nat × Nat) → Option (Nat × Nat)
  | some (rem, off) =>
    if d.size.toSizeT = 0 then none
    else some (rem / d.size.toSizeT,
      SizeT.add off (SizeT.mul (rem % d.size.toSizeT) d.stride.toSizeT))
  | none => none

/-- The offset that `logical_offset` computes from the coordinates (`tensor.h:1450–1464`). -/
def stridedOffset (sas : SizesAndStrides) (flat : Nat) : Nat :=
  (sas.foldr offsetTurn (some (flat, 0))).elim 0 Prod.snd

/-- One turn of the inner loop of `gather_logical` (`tensor.h:1528–1539`) on the coordinates
and the offset. The flag tells that the turn has carried over the outermost of `sas`. -/
def advance : SizesAndStrides → List Nat → Nat → List Nat × Nat × Bool
  | d :: sas, c :: coord, off =>
    match advance sas coord off with
    | (coord, off, true) =>
      let off := SizeT.add off d.stride.toSizeT
      if c + 1 < d.size.toSizeT then ((c + 1) :: coord, off, false)
      else (0 :: coord, SizeT.sub off (SizeT.mul (c + 1) d.stride.toSizeT), true)
    | (coord, off, false) => (c :: coord, off, false)
  | _, _, off => ([], off, true)

/-- The offsets from which `gather_logical` reads (`tensor.h:1510–1541`). -/
def gatherOffset (sas : SizesAndStrides) (i : Nat) : Nat :=
  (Nat.iterate (fun s : List Nat × Nat ↦ ((advance sas s.1 s.2).1, (advance sas s.1 s.2).2.1)) i
    (sas.map fun _ ↦ 0, 0)).2

/-! ### Alignment -/

/-- `first_aligned` (`tensor.h:204–230`). -/
def firstAligned (T : SimdTarget) (array : Option Pointer) (size : Nat) : Nat :=
  let address := array.elim 0 (Pointer.address T)
  if T.alignmentSize ≤ 1 then 0
  else if address &&& (T.scalarSize - 1) ≠ 0 then size
  else
    let mask := T.simdAlignSize - 1
    let first := (T.simdAlignSize - (address / T.scalarSize &&& mask)) &&& mask
    if first < size then first else size

/-- `last_aligned` (`tensor.h:232–236`). -/
def lastAligned (alignedStart size packetSize : Nat) : Nat :=
  alignedStart + (size - alignedStart) / packetSize * packetSize

/-- `tensor` (`tensor.h:1639–1646`). -/
structure Tensor where
  sizesAndStrides : SizesAndStrides := [{ size := 0, stride := 1 }]
  owner : DataPtr := {}
  view : DataView := {}
  alignStart : Nat := 0
  alignEnd : Nat := 0
  numel : Nat := 0
  contiguous : Bool := true

namespace Tensor

variable {α : Type}

/-- `recompute_cpu_simd_alignment_state` (`tensor.h:1573–1637`). -/
def recompute (T : SimdTarget) (t : Tensor) : Tensor :=
  if t.sizesAndStrides = [] then
    { t with numel := 0, contiguous := true, alignStart := 0, alignEnd := 0 }
  else
    let numel := totalSize t.sizesAndStrides
    let contiguous := numel = 0 || (expectedStride t.sizesAndStrides).isSome
    if !T.vectorized || t.view.placement.device ≠ .cpu || numel = 0 || !contiguous then
      { t with numel, contiguous, alignStart := 0, alignEnd := 0 }
    else
      let alignStart := firstAligned T t.view.data numel
      { t with numel, contiguous, alignStart, alignEnd := lastAligned alignStart numel T.length }

/-- `rank()` (`tensor.h:840–843`). -/
def rank (t : Tensor) : Nat := t.sizesAndStrides.length

/-- `logical_offset` (`tensor.h:1444–1465`). -/
def logicalOffset (t : Tensor) (flat : Nat) : Nat :=
  if t.contiguous then flat else stridedOffset t.sizesAndStrides flat

/-- `linearized_index` (`tensor.h:1363–1374`). -/
def linearizedIndex (t : Tensor) (indices : List Nat) : Except TensorError Nat := do
  check (indices.length ≤ t.rank) "number of indices exceeds tensor rank"
  return (List.zip t.sizesAndStrides indices).foldl
    (fun ret d ↦ SizeT.add ret (SizeT.mul d.1.stride.toSizeT d.2)) 0

/-- The element at an offset from `data()`. -/
def readAt (h : Heap α) (t : Tensor) (off : Nat) : Except TensorError α :=
  match t.view.data with
  | some p => h.read (p.add off)
  | none => .error .undefined

/-- `at(i)` (`tensor.h:884–891`). -/
def elementAt (h : Heap α) (t : Tensor) (i : Nat) : Except TensorError α :=
  t.readAt h (t.logicalOffset i)

/-- `at(indices)` (`tensor.h:908–915`). -/
def elementAtIndices (h : Heap α) (t : Tensor) (indices : List Nat) : Except TensorError α := do
  t.readAt h (← t.linearizedIndex indices)

/-- An assignment to `at(i)`. -/
def write (h : Heap α) (t : Tensor) (i : Nat) (x : α) : Except TensorError (Heap α) :=
  match t.view.data with
  | some p => h.write (p.add (t.logicalOffset i)) x
  | none => .error .undefined

/-! ### Constructors -/

section Constructors

variable (T : SimdTarget) (h : Heap α) (placement : Placement) (origin : Nat) (fresh : Nat → α)

/-- `tensor(n, type, device_index, stream)` (`tensor.h:274–287`). -/
def ofSize (n : Nat) : Tensor × Heap α :=
  let (owner, h) := DataPtr.allocate h n placement origin fresh
  (recompute T { sizesAndStrides := [{ size := .ofSizeT n, stride := 1 }], owner, view := owner.view T },
    h)

/-- `tensor(ptr, n, type, device_index, stream)` (`tensor.h:289–303`). -/
def borrowSize (ptr : Option Pointer) (n : Nat) : Tensor :=
  recompute T { sizesAndStrides := [{ size := .ofSizeT n, stride := 1 }], view := .borrow T ptr n placement }

/-- The shape of both constructors from rows and columns (`tensor.h:316–321`, `379–384`). -/
def matrixSas (rows cols : Nat) : SizesAndStrides :=
  [{ size := .ofSizeT rows, stride := .ofSizeT cols }, { size := .ofSizeT cols, stride := 1 }]

/-- `tensor(rows, cols, type, device_index, stream)` (`tensor.h:369–385`). -/
def ofRowsCols (rows cols : Nat) : Tensor × Heap α :=
  let (owner, h) := DataPtr.allocate h (SizeT.mul rows cols) placement origin fresh
  (recompute T { sizesAndStrides := matrixSas rows cols, owner, view := owner.view T }, h)

/-- `tensor(ptr, rows, cols, type, device_index, stream)` (`tensor.h:305–322`). -/
def borrowRowsCols (ptr : Option Pointer) (rows cols : Nat) : Tensor :=
  recompute T { sizesAndStrides := matrixSas rows cols, view := .borrow T ptr (SizeT.mul rows cols) placement }

/-- `tensor(dims, type, device_index, stream)` (`tensor.h:433–463`). -/
def ofDims (dims : List Nat) : Except TensorError (Tensor × Heap α) := do
  let total ← computeTotal dims
  let (owner, h) := DataPtr.allocate h total placement origin fresh
  let sizesAndStrides ← makeContiguousSas dims
  return (recompute T { sizesAndStrides, owner, view := owner.view T }, h)

/-- `tensor(data, dims, type, device_index, stream)` (`tensor.h:465–483`). -/
def borrowDims (data : Option Pointer) (dims : List Nat) : Except TensorError Tensor := do
  let total ← computeTotal dims
  let sizesAndStrides ← makeContiguousSas dims
  return recompute T { sizesAndStrides, view := .borrow T data total placement }

end Constructors

/-! ### Copies and moves -/

section Copies

variable (T : SimdTarget) (h : Heap α) (origin : Nat) (fresh : Nat → α)

/-- `tensor(tensor const&)` (`tensor.h:491–495`). -/
def copy (rhs : Tensor) : Except TensorError (Tensor × Heap α) := do
  let (owner, h) ← DataPtr.clone h rhs.view origin fresh
  return (recompute T { sizesAndStrides := rhs.sizesAndStrides, owner, view := owner.view T }, h)

/-- What `tensor(tensor&&)` leaves of its argument (`tensor.h:506–509`). -/
def movedFrom : Tensor where
  sizesAndStrides := []

/-- `operator=(tensor const&)` from another tensor (`tensor.h:512–522`). -/
def copyAssign (t rhs : Tensor) : Except TensorError (Tensor × Heap α) := do
  let (owner, h) ← DataPtr.clone h rhs.view origin fresh
  return (recompute T { t with sizesAndStrides := rhs.sizesAndStrides, owner, view := owner.view T },
    DataPtr.releaseOwned h t.owner)

/-- `operator=(tensor&&)` from another tensor (`tensor.h:524–541`). -/
def moveAssign (t rhs : Tensor) : Tensor × Tensor × Heap α :=
  (rhs, movedFrom, DataPtr.releaseOwned h t.owner)

/-- `~tensor()` (`tensor.h:595`). -/
def destroy (t : Tensor) : Heap α := DataPtr.releaseOwned h t.owner

end Copies

/-! ### Views -/

section Views

variable (T : SimdTarget)

/-- The view constructor (`tensor.h:1298–1310`). -/
def ofView (ptr : Option Pointer) (storageSize : Nat) (sizesAndStrides : SizesAndStrides)
    (placement : Placement) : Tensor :=
  recompute T { sizesAndStrides, view := .borrow T ptr storageSize placement }

/-- The view of the whole window of `t` with other dimensions. -/
def withSas (t : Tensor) (sas : SizesAndStrides) : Tensor :=
  ofView T t.view.data t.view.size sas t.view.placement

/-- `t()` (`tensor.h:949–956`). -/
def t (x : Tensor) : Except TensorError Tensor :=
  match x.sizesAndStrides with
  | [d₀, d₁] => .ok (x.withSas T [d₁, d₀])
  | _ => .error (.exception "t() requires a rank-2 tensor")

/-- The loop of `permute` (`tensor.h:965–975`); `seen` are the axes taken already. -/
def permutedSas (sas : SizesAndStrides) (seen : List Nat) : List Nat → Except TensorError SizesAndStrides
  | [] => .ok []
  | src :: order =>
    match sas[src]? with
    | none => .error (.exception "permute: axis out of range")
    | some d => do
      check (src ∉ seen) "permute: repeated axis"
      return d :: (← permutedSas sas (src :: seen) order)

/-- `permute` (`tensor.h:958–977`). -/
def permute (x : Tensor) (order : List Nat) : Except TensorError Tensor := do
  check (order.length = x.rank) "permute: order length must equal rank"
  return x.withSas T (← permutedSas x.sizesAndStrides [] order)

/-- `view` and `reshape` with their messages. -/
def reinterpret (x : Tensor) (newDims : List Nat) (contiguous total : String) :
    Except TensorError Tensor := do
  check (x.contiguous = true) contiguous
  check ((← computeTotal newDims) = x.numel) total
  return x.withSas T (← makeContiguousSas newDims)

/-- `view` (`tensor.h:979–988`). -/
def viewAs (x : Tensor) (newDims : List Nat) : Except TensorError Tensor :=
  x.reinterpret T newDims "view() requires a contiguous tensor" "view: element count must not change"

/-- `reshape` (`tensor.h:990–999`). -/
def reshape (x : Tensor) (newDims : List Nat) : Except TensorError Tensor :=
  x.reinterpret T newDims "reshape: call contiguous() first for non-contiguous tensors"
    "reshape: element count must not change"

/-- `start` after it was wrapped and clamped (`tensor.h:1009–1021`). -/
def sliceStart (dimSize start : I64) : Except TensorError Int := do
  let wrapped ← if start.val < 0 then int64 (start.val + dimSize.val) else .ok start
  return min (max wrapped.val 0) dimSize.val

/-- `stop` after it was clamped (`tensor.h:1016–1020`). -/
def sliceStop (dimSize stop : I64) : Int :=
  min (if stop.val < 0 then dimSize.val else stop.val) dimSize.val

/-- The number of elements from `start` to `stop` (`tensor.h:1022–1025`). -/
def sliceSize (start stop : Int) (step : I64) : Except TensorError I64 :=
  let span := stop - start
  if 0 < span ∧ 0 < step.val ∨ span < 0 ∧ step.val < 0 then do
    let absStep ← int64 |step.val|
    let sum ← int64 (|span| + absStep.val)
    int64 ((sum.val - 1) / absStep.val)
  else .ok 0

/-- `slice` (`tensor.h:1001–1035`). -/
def slice (x : Tensor) (dim : Nat) (start stop step : I64) : Except TensorError Tensor :=
  match x.sizesAndStrides[dim]? with
  | none => .error (.exception "slice: dim out of range")
  | some d => do
    check (step.val ≠ 0) "slice: step must not be zero"
    let first ← sliceStart d.size start
    let newSize ← sliceSize first (sliceStop d.size stop) step
    let newStride ← int64 (d.stride.val * step.val)
    let offset := SizeT.mul (first % 2 ^ 64).toNat d.stride.toSizeT
    let storageSize := if offset < x.view.size then x.view.size - offset else 0
    return ofView T (x.view.data.map fun p ↦ p.add offset) storageSize
      (x.sizesAndStrides.set dim { size := newSize, stride := newStride }) x.view.placement

end Views

/-! ### Packed copies -/

section Packed

variable (T : SimdTarget) (h : Heap α) (origin : Nat) (fresh : Nat → α)

/-- The storage that `gather_logical` reads a strided tensor from: its own on the CPU, else a
copy of its window (`tensor.h:1476–1505`). -/
def gatherStorage (x : Tensor) (p : Pointer) : Except TensorError (Nat → Except TensorError α) :=
  match x.view.placement.device with
  | .cpu => .ok fun off ↦ h.read (p.add off)
  | _ =>
    (if x.view.size = 0 then .ok fresh else h.window p x.view.size).map fun window off ↦
      if off < x.view.size then .ok (window off) else .error .undefined

/-- The elements that `copy_logical_to_host` and `clone` write (`tensor.h:1467–1508`): those of
a contiguous tensor at once, others gathered one by one. -/
def logicalElements (x : Tensor) : Except TensorError (Nat → α) :=
  match x.view.data with
  | none => if x.numel = 0 then .ok fresh else .error .undefined
  | some p =>
    if x.contiguous then h.window p x.numel
    else do
      let storage ← x.gatherStorage h fresh p
      check (x.rank ≤ 16) "gather_logical: rank exceeds 16"
      let elements ← (List.range x.numel).mapM fun i ↦ storage (gatherOffset x.sizesAndStrides i)
      return fun i ↦ (elements[i]?).getD (fresh i)

/-- The strides of `stamp_contiguous_shape` (`tensor.h:1434–1440`). -/
def stampedSas : SizesAndStrides → Except TensorError SizesAndStrides
  | [] => .ok []
  | [d] => .ok [{ d with stride := 1 }]
  | d :: d' :: sas => do
    let inner ← stampedSas (d' :: sas)
    let next := inner.headD d'
    return { d with stride := ← int64 (next.stride.val * next.size.val) } :: inner

/-- The packed tensor of `clone` (`tensor.h:545–575`) and of the second half of `to_cpu`
(`tensor.h:795–799`), of its logical elements at `placement`. -/
def packedCopy (placement : Placement) (x : Tensor) : Except TensorError (Tensor × Heap α) := do
  let cells ← if x.numel = 0 then .ok fresh else x.logicalElements h fresh
  let (result, h) := ofSize T h placement origin cells x.numel
  return (recompute T { result with sizesAndStrides := ← stampedSas x.sizesAndStrides }, h)

/-- `clone` (`tensor.h:545–575`). -/
def clone (x : Tensor) : Except TensorError (Tensor × Heap α) :=
  x.packedCopy T h origin fresh x.view.placement

/-- `contiguous` (`tensor.h:579–593`). -/
def contiguousCopy (x : Tensor) : Except TensorError (Tensor × Heap α) :=
  if x.contiguous then .ok (x.withSas T x.sizesAndStrides, h) else x.clone T h origin fresh

/-- `to_cpu` (`tensor.h:783–800`). -/
def toCpu (x : Tensor) : Except TensorError (Tensor × Heap α) :=
  if x.view.placement.device = .cpu ∧ x.contiguous then .ok (x.withSas T x.sizesAndStrides, h)
  else x.packedCopy T h origin fresh {}

end Packed

end Tensor

end Hisab.Vectorization
