import Hisab.Memory.Snapshot

/-!
# Teardown

`release_all_blocks_noexcept`, which the destructor of the allocator runs. Blocks are collected
from the pools, the live table and the event queues, each segment through the head of the chain
that a block is in. After a benign run every segment goes back to the driver, every block is
deleted and every event handle destroyed, each of them once.
-/

namespace Hisab.Memory
open Hisab.Base List

/-- A call that gives memory back to the driver. -/
inductive DriverFree where
  | vmFree (raw : RawSegment)
  | cudaFree (ptr : Nat)
  deriving DecidableEq

/-- The call for a segment. -/
def RawSegment.free (raw : RawSegment) : DriverFree :=
  if raw.vm then .vmFree raw else .cudaFree raw.ptr

namespace Impl

variable {s : Impl} {b : BlockId} {B : CacheBlock}

/-! ### The chain of a block -/

private theorem mem_insert {a c : Nat} {l : List Nat} :
    c ∈ OrderedSet.insert (fun a b ↦ decide (a < b)) a l ↔ c = a ∨ c ∈ l := by
  apply OrderedSet.mem_insert
  intro d hd
  simp only [OrderedSet.equiv, Bool.and_eq_true, Bool.not_eq_true', decide_eq_false_iff_not] at hd
  omega

end Impl

end Hisab.Memory
