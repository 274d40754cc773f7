import Hisab.Base.Queues
import Hisab.Base.MachineIntegers

/-!
# The queue of a recording thread

`LockFreeQueue` (`lock_free_queue.h:85–212`) with one producer, who calls `push`, and one
consumer, who calls `pop` and `clear`. A step is one access of memory that both threads
reach, together with what the thread does to its own variables. Blocks have addresses that
are free when `new` picks them; an access that the language leaves undefined is a fault.
-/

namespace Hisab.Profiler

open Base Function

/-- The template parameters: `kBlockSize` and `sizeof(no_init<T>)`. A block has at least one
slot behind its header of 16 bytes, and it fits in the address space. -/
structure BlockLayout where
  kBlockSize : Nat
  slotSize : Nat
  slotSize_pos : 0 < slotSize
  fits : 16 + slotSize ≤ kBlockSize
  addressable : kBlockSize ≤ SizeT.modulus

/-- `kNumSlots`. -/
def BlockLayout.kNumSlots (layout : BlockLayout) : Nat := (layout.kBlockSize - 16) / layout.slotSize

theorem BlockLayout.kNumSlots_pos (layout : BlockLayout) : 0 < layout.kNumSlots := by
  have := layout.fits
  exact Nat.div_pos (by omega) layout.slotSize_pos

theorem BlockLayout.kNumSlots_lt (layout : BlockLayout) : layout.kNumSlots < layout.kBlockSize := by
  have := layout.fits
  have hle := Nat.div_le_self (layout.kBlockSize - 16) layout.slotSize
  rw [kNumSlots]
  omega

/-- `InternalBlock`; a slot of type `no_init` has no value until one is emplaced. -/
structure Block (T : Type) where
  start : Nat
  next : Option Nat := none
  slots : Nat → Option T := fun _ ↦ none

/-- A slot gets a value or loses it. -/
def Block.put {T : Type} (b : Block T) (index : Nat) (v : Option T) : Block T :=
  { b with slots := update b.slots index v }

/-- Where the producer is in `push`. -/
inductive ProducerPc (T : Type)
  | idle
  | allocating (element : T) (last : Nat)
  | linking (element : T) (last newBlock : Nat)
  | publishing (element : T) (last : Nat)
deriving Repr, DecidableEq

/-- The function of the consumer that calls `pop_impl`. -/
inductive ConsumerCall
  | pop
  | clear
deriving Repr, DecidableEq

/-- Where the consumer is; `last` is the `end` that the call has read. -/
inductive ConsumerPc (T : Type)
  | idle
  | taking (call : ConsumerCall) (last : Nat)
  | leaving (call : ConsumerCall) (last : Nat) (element : T)
  | deleting (call : ConsumerCall) (last : Nat) (element : T) (oldBlock : Nat)
  | returning (call : ConsumerCall) (last : Nat) (element : T)
deriving Repr, DecidableEq

/-- What `pop_impl` holds and has not returned. -/
def ConsumerPc.inHand {T : Type} : ConsumerPc T → List T
  | .leaving _ _ element | .deleting _ _ element _ | .returning _ _ element => [element]
  | _ => []

/-- Undefined behaviour. -/
inductive QueueFault
  | freedBlock
  | slotOutOfRange
  | unwrittenSlot
  | unwrittenNext
deriving Repr, DecidableEq

/-- `blocked_queue_base` with its heap. `received` is what `pop_impl` has returned, and
`history` what has been published and what has been taken or asked for in vain. -/
structure QueueState (T : Type) where
  blocks : Nat → Option (Block T)
  liveBlocks : Nat
  startBlock : Nat
  start : Nat
  endBlock : Nat
  endIndex : Nat
  producer : ProducerPc T := .idle
  consumer : ConsumerPc T := .idle
  received : List T := []
  history : List (FifoEvent T) := []

/-- The constructor, with the address of the first block. -/
def QueueState.initial {T : Type} (address : Nat) : QueueState T where
  blocks := update (fun _ ↦ none) address (some { start := 0 })
  liveBlocks := 1
  startBlock := address
  start := 0
  endBlock := address
  endIndex := 0

namespace QueueState

variable {T : Type} (layout : BlockLayout) (s : QueueState T)

/-- An access of the block at an address. -/
def block (address : Nat) : Except QueueFault (Block T) :=
  match s.blocks address with
  | some b => .ok b
  | none => .error .freedBlock

/-- A write to the block at an address. -/
def setBlock (address : Nat) (b : Block T) : QueueState T :=
  { s with blocks := update s.blocks address (some b) }

/-! ### The producer, `lock_free_queue.h:150–161` -/

/-- `slot.emplace`, and whether the block is full. -/
def emplace (element : T) : Except QueueFault (QueueState T) := do
  let b ← s.block s.endBlock
  let index := SizeT.sub s.endIndex b.start
  if layout.kNumSlots ≤ index then throw .slotOutOfRange
  let last := SizeT.add s.endIndex 1
  let s := s.setBlock s.endBlock (b.put index (some element))
  return { s with
    producer :=
      if SizeT.sub last b.start = layout.kNumSlots then .allocating element last
      else .publishing element last }

/-- `new Block{/*start=*/end, /*next=*/nullptr, /*slots=*/{}}`. -/
def allocate (element : T) (last address : Nat) : QueueState T :=
  { s.setBlock address { start := last } with
    liveBlocks := s.liveBlocks + 1
    producer := .linking element last address }

/-- `end_block_ = (end_block_->next = new_block)`. -/
def link (element : T) (last newBlock : Nat) : Except QueueFault (QueueState T) := do
  let b ← s.block s.endBlock
  return { s.setBlock s.endBlock { b with next := some newBlock } with
    endBlock := newBlock
    producer := .publishing element last }

/-- `set_end`. -/
def publish (element : T) (last : Nat) : QueueState T :=
  { s with
    endIndex := last
    producer := .idle
    history := s.history ++ [.enqueue element] }

/-! ### The consumer, `lock_free_queue.h:164–212` -/

/-- `std::move(slot).consume()`, and whether the end of the block is reached. -/
def take (call : ConsumerCall) (last : Nat) : Except QueueFault (QueueState T) := do
  let b ← s.block s.startBlock
  let index := SizeT.sub s.start b.start
  if layout.kNumSlots ≤ index then throw .slotOutOfRange
  match b.slots index with
  | none => throw .unwrittenSlot
  | some element =>
    let s := s.setBlock s.startBlock (b.put index none)
    let s := { s with
      start := SizeT.add s.start 1
      history := s.history ++ [FifoEvent.dequeue (some element)] }
    return { s with
      consumer :=
        if SizeT.sub s.start b.start = layout.kNumSlots then .leaving call last element
        else .returning call last element }

/-- `std::exchange(start_block_, start_block_->next)`. -/
def leave (call : ConsumerCall) (last : Nat) (element : T) : Except QueueFault (QueueState T) := do
  let b ← s.block s.startBlock
  match b.next with
  | none => throw .unwrittenNext
  | some next =>
    return { s with startBlock := next, consumer := .deleting call last element s.startBlock }

/-- `delete old_block`. -/
def delete (call : ConsumerCall) (last : Nat) (element : T) (oldBlock : Nat) :
    Except QueueFault (QueueState T) := do
  let _ ← s.block oldBlock
  return { s with
    blocks := update s.blocks oldBlock none
    liveBlocks := s.liveBlocks - 1
    consumer := .returning call last element }

/-- `pop_impl` returns `element`; `clear` goes on until `start_` has reached its `end`. -/
def returnElement (call : ConsumerCall) (last : Nat) (element : T) : QueueState T :=
  { s with
    received := s.received ++ [element]
    consumer := if call = .clear ∧ s.start ≠ last then .taking .clear last else .idle }

end QueueState

/-- The steps of the two threads. -/
inductive QueueStep (T : Type)
  | push (element : T)
  | allocate (address : Nat)
  | allocationFails
  | link
  | publish
  | call (call : ConsumerCall)
  | take
  | leave
  | delete
  | returnElement
deriving Repr, DecidableEq

end Hisab.Profiler
