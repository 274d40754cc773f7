import Hisab.Base.MachineIntegers

/-!
# Buffers and the handles to them

Models `data_ptr` (`Library/Memory/common/data_ptr.h:26–182`), the owner of a buffer, and
`data_view` (`Library/Memory/common/data_view.h:25–101`), a window that does not own one. A
pointer names the allocation it points into, so that a dangling pointer stays one after its
address is used again. An allocation of `size` elements is taken to succeed.
-/

namespace Hisab.Vectorization

open Hisab.Base Function

/-- `device_enum` (`device.h:11–18`). -/
inductive DeviceEnum
  | cpu
  | cuda
  | hip
  | privateUse1
  | metal
  deriving DecidableEq

/-- The constants of a build for one `value_t`, in elements: `sizeof(value_t)` in bytes,
`alignof(simd_t)`, `simd<value_t>::size`, `VECTORIZATION_ALIGNMENT`, `MEMORY_ALIGNMENT` and
`VECTORIZATION_PACKET_SIZE`. -/
structure SimdTarget where
  vectorized : Bool
  scalarSize : Nat
  simdAlignSize : Nat
  length : Nat
  alignmentSize : Nat
  memoryAlignmentSize : Nat
  packet : Nat
  scalarSize_pow : ∃ k, scalarSize = 2 ^ k
  simdAlignSize_pow : ∃ k, simdAlignSize = 2 ^ k
  length_pos : 0 < length
  /-- The size of a type is a multiple of its alignment. -/
  simdAlign_dvd_length : simdAlignSize ∣ length
  one_lt_alignmentSize : 1 < alignmentSize
  simdAlign_dvd_memoryAlignment : simdAlignSize ∣ memoryAlignmentSize
  packet_pos : 0 < packet

/-- Where a buffer was allocated. -/
structure Placement where
  device : DeviceEnum := .cpu
  deviceIndex : Int := 0
  stream : Nat := 0
  deriving DecidableEq

/-- A pointer into allocation `buffer`, which begins at byte `origin`. -/
structure Pointer where
  buffer : Nat
  origin : Nat
  offset : Nat
  deriving DecidableEq

namespace Pointer

/-- `reinterpret_cast<std::uintptr_t>`. -/
def address (T : SimdTarget) (p : Pointer) : Nat := p.origin + T.scalarSize * p.offset

/-- `p + n` for a `size_t` `n`; a large `n` wraps to an earlier element. -/
def add (p : Pointer) (n : Nat) : Pointer := { p with offset := SizeT.add p.offset n }

@[simp] theorem add_buffer (p : Pointer) (n : Nat) : (p.add n).buffer = p.buffer := rfl

end Pointer

/-- Why an operation has no result. -/
inductive TensorError
  /-- A check failed with this message. -/
  | exception (message : String)
  /-- `int64_t` arithmetic overflowed, or storage that is not there was used. -/
  | undefined
  deriving DecidableEq

/-- One allocation: its elements, how often it was freed, and whether it is memory of the
caller. -/
structure Buffer (α : Type) where
  length : Nat
  cells : Nat → α
  frees : Nat := 0
  external : Bool := false

/-- All allocations so far, by number. -/
structure Heap (α : Type) where
  buffers : Nat → Option (Buffer α) := fun _ ↦ none
  next : Nat := 0

namespace Heap

variable {α : Type}

/-- A buffer that is there. -/
def live (h : Heap α) (b : Nat) : Option (Buffer α) :=
  (h.buffers b).filter fun buffer ↦ buffer.frees = 0

/-- A new buffer. -/
def insert (h : Heap α) (buffer : Buffer α) : Heap α where
  buffers := update h.buffers h.next (some buffer)
  next := h.next + 1

/-- `allocator::free` (`allocator.h:181–215`). -/
def free (h : Heap α) (p : Pointer) : Heap α :=
  { h with
    buffers := update h.buffers p.buffer
      ((h.buffers p.buffer).map fun buffer ↦ { buffer with frees := buffer.frees + 1 }) }

/-- Reads one element. -/
def read (h : Heap α) (p : Pointer) : Except TensorError α :=
  match h.live p.buffer with
  | some buffer => if p.offset < buffer.length then .ok (buffer.cells p.offset) else .error .undefined
  | none => .error .undefined

/-- Writes one element. -/
def write (h : Heap α) (p : Pointer) (x : α) : Except TensorError (Heap α) :=
  match h.live p.buffer with
  | some buffer =>
    if p.offset < buffer.length then
      let written := { buffer with cells := update buffer.cells p.offset x }
      .ok { h with buffers := update h.buffers p.buffer (some written) }
    else .error .undefined
  | none => .error .undefined

/-- The `count` elements from `p` on, as `allocator::copy` reads them. -/
def window (h : Heap α) (p : Pointer) (count : Nat) : Except TensorError (Nat → α) :=
  match h.live p.buffer with
  | some buffer =>
    if p.offset + count ≤ buffer.length then .ok fun i ↦ buffer.cells (p.offset + i)
    else .error .undefined
  | none => .error .undefined

end Heap

/-- `data_view` (`data_view.h:94–100`). -/
structure DataView where
  data : Option Pointer := none
  size : Nat := 0
  placement : Placement := {}
  aligned : Bool := false

/-- `data_view::is_ptr_aligned` (`data_view.h:88–92`). -/
def isPtrAligned (T : SimdTarget) : Option Pointer → Bool
  | some p => p.address T % (T.scalarSize * T.memoryAlignmentSize) == 0
  | none => false

/-- `data_view::borrow` (`data_view.h:50–58`). -/
def DataView.borrow (T : SimdTarget) (data : Option Pointer) (size : Nat)
    (placement : Placement) : DataView :=
  { data, size, placement, aligned := isPtrAligned T data }

/-- `data_ptr` (`data_ptr.h:160–167`); the default value is what `clear_handle` leaves. -/
structure DataPtr where
  data : Option Pointer := none
  size : Nat := 0
  placement : Placement := {}
  allocated : Bool := false
  aligned : Bool := false

namespace DataPtr

variable {α : Type}

/-- `data_ptr(size, type, device_index, stream)` (`data_ptr.h:37–52`). The allocator chooses
the address; the elements are not initialized. -/
def allocate (h : Heap α) (size : Nat) (placement : Placement) (origin : Nat)
    (fresh : Nat → α) : DataPtr × Heap α :=
  if size = 0 then ({ size, placement, aligned := true }, h)
  else
    ({ data := some { buffer := h.next, origin, offset := 0 }, size, placement, allocated := true,
       aligned := true }, h.insert { length := size, cells := fresh })

/-- `data_ptr(data_view const&)` (`data_ptr.h:55–92`): a clone of the window. -/
def clone (h : Heap α) (view : DataView) (origin : Nat) (fresh : Nat → α) :
    Except TensorError (DataPtr × Heap α) :=
  match view.data with
  | some p =>
    if view.size = 0 then .ok (allocate h view.size view.placement origin fresh)
    else do
      let cells ← h.window p view.size
      return allocate h view.size view.placement origin cells
  | none => .ok (allocate h view.size view.placement origin fresh)

/-- `release_owned` (`data_ptr.h:137–145`). -/
def releaseOwned (h : Heap α) (owner : DataPtr) : Heap α :=
  match owner.allocated, owner.data with
  | true, some p => h.free p
  | _, _ => h

/-- `data_ptr::view()` (`data_ptr.h:115–118`). -/
def view (T : SimdTarget) (owner : DataPtr) : DataView :=
  .borrow T owner.data owner.size owner.placement

end DataPtr

end Hisab.Vectorization
