import Hisab.Base.MachineIntegers
import Hisab.Base.Tiling
import Hisab.Parallel.ProxyThreads
import Mathlib

/-!
# The chunks of `parallel_for`

The ranges that `parallel_for` hands to the functor over the `std_thread` backend
(`std_thread/parallel_tools_impl.h:43–80`) and over OpenMP
(`openmp/parallel_tools_impl.h:49–95`, `openmp/parallel_tools_impl.cpp:132–160`). An `int` is a
`BitVec 32`, a `long` has 64 bits.
-/

namespace Hisab.Parallel

open Base Base.Tiling Nat SizeT

/-- What ends a call without its chunks. -/
inductive ChunkFault
  | divisionByZero
  | moduloByZero
  | lengthError
  | outOfFuel
deriving Repr, DecidableEq

/-- The range and the grain of a call. -/
structure RangeCall where
  first : Nat
  last : Nat
  grain : Nat
  ordered : first ≤ last
  last_lt : last < SizeT.modulus
  grain_lt : grain < SizeT.modulus

/-- A thread of the pool inside a job, with the proxies allocated so far. -/
structure PoolCaller where
  proxies : List PoolProxy
  proxy : Nat
  thread : Nat
  job : Nat

/-- What a call over `std_thread` reads of its surroundings: `specified_num_threads_std`, what
`hardware_concurrency()` reports now and reported when the pool was built, `nested_activated_`,
and the thread of the pool that makes the call. -/
structure ThreadContext where
  specified : BitVec 32
  hardware : BitVec 32
  poolHardware : BitVec 32
  nestedActivated : Bool
  caller : Option PoolCaller
  caller_pool : caller.isSome → 0 < poolHardware.toInt

/-- An `int` as a `size_t`. -/
def sizeOfInt (z : Int) : Nat := (z % SizeT.modulus).toNat

/-- `max_size()` of a vector of pointers. -/
def maxPointers : Nat := (2 ^ 63 - 1) / 8

/-- The grain that replaces one of zero, from the number that `n` is divided by
(`std_thread/parallel_tools_impl.h:62–64`). -/
def estimateGrain (n divisor : Nat) : Nat := if 0 < n / divisor then n / divisor else 1

/-- The grain to go on with (`std_thread/parallel_tools_impl.h:60–65`). -/
def chunkGrain (grain n divisor : Nat) : Except ChunkFault Nat :=
  if grain = 0 then if divisor = 0 then .error .divisionByZero else .ok (estimateGrain n divisor)
  else .ok grain

namespace ThreadContext

/-- `number_of_threads_stdthread` (`std_thread/parallel_tools_impl.cpp:47–51`). -/
def numberOfThreads (c : ThreadContext) : Int :=
  (if c.specified ≠ 0 then c.specified else c.hardware).toInt

/-- The size of `parallel_thread_pool::instance()` (`parallel_thread_pool.cpp:361–375`). -/
def poolSize (c : ThreadContext) : Except ChunkFault Nat :=
  let count := sizeOfInt c.poolHardware.toInt
  if maxPointers < count then .error .lengthError else .ok count

/-- The number of threads of the proxy that `allocate_threads` makes
(`parallel_thread_pool.cpp:431–461`). -/
def allocateThreads (c : ThreadContext) : Except ChunkFault Nat := do
  let size ← c.poolSize
  let count := sizeOfInt c.numberOfThreads
  match c.caller with
  | none => return (topLevelProxy size count).threads.length
  | some p => return (nestedProxy size p.proxies p.proxy p.thread p.job count).threads.length

/-- `is_parallel_scope()` of the pool (`parallel_thread_pool.cpp:507–510`). -/
def isParallelScope (c : ThreadContext) : Except ChunkFault Bool := do
  let _ ← c.poolSize
  return c.caller.isSome

/-- A nested call that is not to run in parallel. -/
def serialised (c : ThreadContext) : Bool := !c.nestedActivated && c.caller.isSome

end ThreadContext

namespace RangeCall

/-- `last - first`. -/
def n (r : RangeCall) : Nat := SizeT.sub r.last r.first

/-- The loop over `do_job` (`std_thread/parallel_tools_impl.h:71–75`), which takes the next of
`workers` threads by a remainder (`parallel_thread_pool.cpp:292`). -/
def dispatch (workers last grain : Nat) : Nat → Nat → Except ChunkFault (List (Nat × Nat))
  | 0, _ => .error .outOfFuel
  | fuel + 1, start =>
    if start < last then
      if workers = 0 then .error .moduloByZero
      else
        (dispatch workers last grain fuel (SizeT.add start grain)).map fun rest ↦
          (start, min (SizeT.add start grain) last) :: rest
    else .ok []

/-- The test for a call that is not split (`std_thread/parallel_tools_impl.h:54`). -/
def runsInline (r : RangeCall) (c : ThreadContext) : Except ChunkFault Bool :=
  if r.n ≤ r.grain then .ok true
  else if c.nestedActivated then .ok false
  else c.isParallelScope

/-- `parallel_for` over `std_thread` (`std_thread/parallel_tools_impl.h:43–80`). -/
def parallelFor (r : RangeCall) (c : ThreadContext) (fuel : Nat) :
    Except ChunkFault (List (Nat × Nat)) :=
  if r.n = 0 then .ok []
  else do
    if ← r.runsInline c then return [(r.first, r.last)]
    else
      let grain ← chunkGrain r.grain r.n (sizeOfInt (c.numberOfThreads * 4))
      let workers ← c.allocateThreads
      dispatch workers r.last grain fuel r.first

/-- The number of turns of an OpenMP loop from `first` below `last`, which is known before it
starts. -/
def turns (n grain : Nat) : Nat := (n + grain - 1) / grain

/-- `execute_functor_openmp` (`openmp/parallel_tools_impl.h:58–65`). -/
def openmpChunk (grain last start : Nat) : Nat × Nat := (start, min (SizeT.add start grain) last)

/-- `parallel_for` over OpenMP (`openmp/parallel_tools_impl.h:69–95`,
`openmp/parallel_tools_impl.cpp:132–160`) with `threads` from `number_of_threads_openmp`. -/
def openmpParallelFor (r : RangeCall) (threads : Int) : Except ChunkFault (List (Nat × Nat)) :=
  if r.n = 0 then .ok []
  else if r.n ≤ r.grain then .ok [(r.first, r.last)]
  else do
    let grain ← chunkGrain r.grain r.n (SizeT.mul (sizeOfInt threads) 4)
    return (List.range (turns r.n grain)).map fun i ↦ openmpChunk grain r.last (r.first + i * grain)

/-- The grain that the chunks of a call are made with. -/
def effectiveGrain (r : RangeCall) (c : ThreadContext) : Nat :=
  if r.grain = 0 then estimateGrain r.n (sizeOfInt (c.numberOfThreads * 4)) else r.grain

/-- The chunks are non-empty and disjoint, together they are the range, and none is longer than
`bound`. -/
structure Partition (r : RangeCall) (bound : Nat) (chunks : List (Nat × Nat)) : Prop where
  nonempty : ∀ b ∈ chunks, b.1 < b.2
  disjoint : chunks.Pairwise fun a b ↦ Disjoint (Set.Ico a.1 a.2) (Set.Ico b.1 b.2)
  union : ∀ i, (∃ b ∈ chunks, i ∈ Set.Ico b.1 b.2) ↔ i ∈ Set.Ico r.first r.last
  short : ∀ b ∈ chunks, b.2 - b.1 ≤ bound

/-- `parallel_for` over `std_thread` ends with a partition of its range, and OpenMP makes the
same chunks for the same number of threads, of which it has at least one. -/
def Partitions (r : RangeCall) (c : ThreadContext) : Prop :=
  ∃ chunks, (∃ fuel, r.parallelFor c fuel = .ok chunks) ∧
    r.Partition (max r.grain (estimateGrain r.n (sizeOfInt (c.numberOfThreads * 4)))) chunks ∧
    (0 < c.numberOfThreads → ∃ chunks', r.openmpParallelFor c.numberOfThreads = .ok chunks' ∧
      chunks'.Perm chunks)

variable {r : RangeCall} {c : ThreadContext}

/-! ### Turns and chunks -/

theorem n_eq (r : RangeCall) : r.n = r.last - r.first := sub_eq r.ordered r.last_lt

theorem turns_zero {g : Nat} (hg : 0 < g) : turns 0 g = 0 := by rw [turns, div_eq_of_lt (by omega)]

theorem turns_succ {n g : Nat} (hn : 0 < n) (hg : 0 < g) : turns n g = turns (n - g) g + 1 := by
  by_cases h : g ≤ n
  · have he : n + g - 1 = (n - g + g - 1) + g := by omega
    rw [turns, turns, he, add_div_right _ hg]
  · have hz : n - g = 0 := by omega
    rw [hz, turns_zero hg, turns]
    have he : n + g - 1 = (n - 1) + g := by omega
    rw [he, add_div_right _ hg, div_eq_of_lt (by omega)]

/-- The turns reach the end of the range. -/
theorem le_turns_mul {n g : Nat} (hg : 0 < g) : n ≤ turns n g * g := by
  have hdiv := div_add_mod (n + g - 1) g
  have hmod := mod_lt (n + g - 1) hg
  rw [turns, mul_comm]
  omega

/-- The last turn starts in the range. -/
theorem turns_pred_mul_lt {n g : Nat} (hn : turns n g ≠ 0) : (turns n g - 1) * g < n := by
  have hle : turns n g * g ≤ n + g - 1 := div_mul_le_self (n + g - 1) g
  obtain ⟨k, hk⟩ := exists_eq_add_one_of_ne_zero hn
  rw [hk, succ_mul] at hle
  rw [hk, Nat.add_sub_cancel]
  by_contra hlt
  have hg : g = 0 := by omega
  rw [turns, hg, Nat.div_zero] at hn
  exact hn rfl

/-- The loop makes the blocks of the range when the end of the last one is a `size_t`. -/
theorem dispatch_eq_blocks {workers grain k start : Nat} (last : Nat) (hw : 0 < workers)
    (hlast : k ≠ 0 → start + (k - 1) * grain < last) (hend : last ≤ start + k * grain)
    (hfit : start + k * grain < SizeT.modulus) :
    dispatch workers last grain (k + 1) start = .ok (blocks last grain k start) := by
  induction k generalizing start with
  | zero =>
    rw [dispatch, if_neg (by omega)]
    rfl
  | succ k ih =>
    have hstart := hlast (succ_ne_zero k)
    rw [Nat.add_sub_cancel] at hstart
    rw [succ_mul] at hend hfit
    have hadd : add start grain = start + grain := add_eq (by omega)
    rw [dispatch, if_pos (by omega), if_neg (by omega), hadd, blocks_succ, ih]
    · rfl
    · intro hk
      obtain ⟨j, rfl⟩ := exists_eq_add_one_of_ne_zero hk
      rw [Nat.add_sub_cancel]
      rw [succ_mul] at hstart
      omega
    · omega
    · omega

/-- A loop that ends with non-empty chunks had a thread to give them to, and did not wrap. -/
theorem fits_of_dispatch {workers last grain fuel start : Nat} {chunks : List (Nat × Nat)}
    (hg : 0 < grain) (hgrain : grain < SizeT.modulus) (hstart : start < SizeT.modulus)
    (h : dispatch workers last grain fuel start = .ok chunks)
    (hne : ∀ b ∈ chunks, b.1 < b.2) :
    start + turns (last - start) grain * grain < SizeT.modulus ∧ (start < last → 0 < workers) := by
  induction fuel generalizing start chunks with
  | zero => cases h
  | succ fuel ih =>
    rw [dispatch] at h
    by_cases hlt : start < last
    · by_cases hw : workers = 0
      · rw [if_pos hlt, if_pos hw] at h
        cases h
      rw [if_pos hlt, if_neg hw] at h
      cases hrest : dispatch workers last grain fuel (add start grain) with
      | error e =>
        rw [hrest] at h
        cases h
      | ok rest =>
        rw [hrest] at h
        cases h
        have hfirst : start < add start grain := by
          have := hne _ List.mem_cons_self
          omega
        -- a sum that wraps is below both of its terms
        have hsum : start + grain < modulus := by
          by_contra hwrap
          have hadd : add start grain = start + grain - modulus := by
            rw [add, mod_eq_sub_mod (by omega), mod_eq_of_lt (by omega)]
          omega
        have hadd := add_eq hsum
        rw [hadd] at hrest
        have hrec := ih hsum hrest (fun b hb ↦ hne b (List.mem_cons_of_mem _ hb))
        rw [turns_succ (by omega) hg, succ_mul, ← sub_add_eq]
        exact ⟨by omega, fun _ ↦ pos_of_ne_zero hw⟩
    · have hz : last - start = 0 := by omega
      rw [hz, turns_zero hg]
      exact ⟨by omega, fun h' ↦ absurd h' hlt⟩

/-- The OpenMP loop makes the same blocks. -/
theorem openmpChunks_eq_blocks {last grain k start : Nat}
    (hfit : start + k * grain < SizeT.modulus) :
    ((List.range k).map fun i ↦ openmpChunk grain last (start + i * grain)) =
      blocks last grain k start := by
  apply List.map_congr_left
  intro i hi
  have hle : (i + 1) * grain ≤ k * grain := mul_le_mul_right _ (List.mem_range.mp hi)
  rw [succ_mul] at hle
  rw [openmpChunk, add_eq (by omega)]

/-! ### Threads -/

theorem sizeOfInt_of_nonneg {z : Int} (h : 0 ≤ z) (hlt : z < 2 ^ 64) : sizeOfInt z = z.toNat := by
  rw [sizeOfInt, modulus]
  omega

theorem estimateGrain_pos (n divisor : Nat) : 0 < estimateGrain n divisor := by
  unfold estimateGrain
  split
  · assumption
  · exact one_pos

theorem estimateGrain_lt {n divisor : Nat} (h : n < SizeT.modulus) :
    estimateGrain n divisor < SizeT.modulus := by
  unfold estimateGrain
  split
  · exact lt_of_le_of_lt (div_le_self _ _) h
  · decide

theorem numberOfThreads_bounds (c : ThreadContext) :
    -2 ^ 31 ≤ c.numberOfThreads ∧ c.numberOfThreads < 2 ^ 31 := by
  have hlo := BitVec.le_toInt (if c.specified ≠ 0 then c.specified else c.hardware)
  have hhi := BitVec.toInt_lt (x := if c.specified ≠ 0 then c.specified else c.hardware)
  exact ⟨hlo, hhi⟩

/-- Four times the number of threads is zero as a `size_t` only when the number is. -/
theorem divisor_eq_zero : sizeOfInt (c.numberOfThreads * 4) = 0 ↔ c.numberOfThreads = 0 := by
  obtain ⟨hlo, hhi⟩ := numberOfThreads_bounds c
  rw [sizeOfInt, modulus]
  omega

/-- Otherwise it is at least four. -/
theorem divisor_ge (h : c.numberOfThreads ≠ 0) : 4 ≤ sizeOfInt (c.numberOfThreads * 4) := by
  obtain ⟨hlo, hhi⟩ := numberOfThreads_bounds c
  rw [sizeOfInt, modulus]
  omega

/-- Both backends divide by the same number. -/
theorem openmp_divisor (z : Int) : SizeT.mul (sizeOfInt z) 4 = sizeOfInt (z * 4) := by
  rw [mul, sizeOfInt, sizeOfInt, modulus]
  omega

/-- The pool holds as many threads as were reported, if that number is not negative. -/
theorem poolSize_of_nonneg (h : 0 ≤ c.poolHardware.toInt) :
    c.poolSize = .ok c.poolHardware.toInt.toNat := by
  have hhi : c.poolHardware.toInt < 2 ^ 31 := BitVec.toInt_lt
  rw [ThreadContext.poolSize, sizeOfInt_of_nonneg h (by omega)]
  exact if_neg (by rw [maxPointers]; omega)

theorem poolSize_of_neg (h : c.poolHardware.toInt < 0) : c.poolSize = .error .lengthError := by
  have hlo : -2 ^ 31 ≤ c.poolHardware.toInt := BitVec.le_toInt _
  apply if_pos
  rw [maxPointers, sizeOfInt, modulus]
  omega

theorem length_le_fillThreads (free : Nat → Bool) (maxCount : Nat) (ts threads : List Nat) :
    threads.length ≤ (fillThreads free maxCount ts threads).length := by
  induction ts generalizing threads with
  | nil => exact le_refl _
  | cons t ts ih =>
    have hmore : threads.length ≤ (threads ++ [t]).length := by simp
    rw [fillThreads]
    cases free t with
    | false =>
      simp only [Bool.false_eq_true, if_false]
      split
      · exact le_refl _
      · exact ih _
    | true =>
      simp only [if_true]
      split
      · exact hmore
      · exact hmore.trans (ih _)

/-- A proxy has a thread exactly when the pool has. -/
theorem allocateThreads_ok :
    0 < c.poolHardware.toInt ↔ ∃ workers, c.allocateThreads = .ok workers ∧ 0 < workers := by
  by_cases hneg : c.poolHardware.toInt < 0
  · rw [ThreadContext.allocateThreads, poolSize_of_neg hneg]
    constructor
    · omega
    · rintro ⟨_, h, -⟩
      cases h
  rw [ThreadContext.allocateThreads, poolSize_of_nonneg (by omega)]
  cases hcaller : c.caller with
  | none =>
    constructor
    · intro hpos
      refine ⟨_, rfl, ?_⟩
      rw [topLevelProxy, List.length_range]
      exact effectiveCount_pos (by omega)
    · rintro ⟨workers, h, hw⟩
      cases h
      rw [topLevelProxy, List.length_range] at hw
      have := effectiveCount_le c.poolHardware.toInt.toNat (sizeOfInt c.numberOfThreads)
      omega
  | some p =>
    have hpos := c.caller_pool (by rw [hcaller]; rfl)
    refine ⟨fun _ ↦ ⟨_, rfl, ?_⟩, fun _ ↦ hpos⟩
    rw [nestedProxy, fillThreadsForNestedProxy]
    split
    · exact one_pos
    · exact lt_of_lt_of_le one_pos (length_le_fillThreads _ _ _ [p.thread])

/-! ### Partitions -/

/-- A tiling of the range is a partition of it. -/
theorem partition_of_tiles {bound : Nat} {chunks : List (Nat × Nat)}
    (h : Tiles Prod.fst Prod.snd r.first chunks r.last)
    (hshort : ∀ b ∈ chunks, b.2 - b.1 ≤ bound) : r.Partition bound chunks where
  nonempty _ hb := (h.bounds hb).2.1
  disjoint := h.pairwise.imp fun hab ↦ Set.Ico_disjoint_Ico_same.mono_right
    (Set.Ico_subset_Ico_left hab)
  union i := h.mem_iff i
  short := hshort

theorem effectiveGrain_pos (r : RangeCall) (c : ThreadContext) : 0 < r.effectiveGrain c := by
  unfold effectiveGrain
  split
  · exact estimateGrain_pos _ _
  · next h => exact pos_of_ne_zero h

theorem effectiveGrain_lt (r : RangeCall) (c : ThreadContext) :
    r.effectiveGrain c < SizeT.modulus := by
  unfold effectiveGrain
  split
  · exact estimateGrain_lt (sub_lt _ _)
  · exact r.grain_lt

theorem effectiveGrain_le (r : RangeCall) (c : ThreadContext) :
    r.effectiveGrain c ≤ max r.grain (estimateGrain r.n (sizeOfInt (c.numberOfThreads * 4))) := by
  unfold effectiveGrain
  split
  · exact le_max_right _ _
  · exact le_max_left _ _

/-- The grain that the code goes on with. -/
theorem chunkGrain_ok (h : r.grain = 0 → c.numberOfThreads ≠ 0) :
    chunkGrain r.grain r.n (sizeOfInt (c.numberOfThreads * 4)) = .ok (r.effectiveGrain c) := by
  unfold effectiveGrain chunkGrain
  split
  · next hz => exact if_neg (fun hd ↦ h hz (divisor_eq_zero.mp hd))
  · rfl

/-- A division that fails is one of an automatic grain by no threads. -/
theorem grain_of_ok {g : Nat}
    (h : chunkGrain r.grain r.n (sizeOfInt (c.numberOfThreads * 4)) = .ok g) :
    g = r.effectiveGrain c ∧ (r.grain = 0 → c.numberOfThreads ≠ 0) := by
  have ht : r.grain = 0 → c.numberOfThreads ≠ 0 := by
    intro hz hn
    rw [chunkGrain, if_pos hz, if_pos (divisor_eq_zero.mpr hn)] at h
    cases h
  rw [chunkGrain_ok ht] at h
  cases h
  exact ⟨rfl, ht⟩

/-- A call that is not split has one chunk over both backends, or none. -/
theorem partitions_of_le (h : r.n ≤ r.grain) : r.Partitions c := by
  have hn := n_eq r
  by_cases hz : r.n = 0
  · have heq : r.first = r.last := by
      have := r.ordered
      omega
    refine ⟨[], ⟨0, if_pos hz⟩, partition_of_tiles (heq ▸ .nil _) (by simp), fun _ ↦ ?_⟩
    exact ⟨[], if_pos hz, .refl _⟩
  · have hlt : r.first < r.last := by omega
    refine ⟨[(r.first, r.last)], ⟨0, ?_⟩, partition_of_tiles (.cons rfl hlt (.nil _)) ?_, fun _ ↦ ?_⟩
    · rw [parallelFor, if_neg hz, runsInline, if_pos h]
      rfl
    · intro b hb
      rw [List.mem_singleton.mp hb]
      exact (hn ▸ h).trans (le_max_left _ _)
    · refine ⟨_, ?_, .refl _⟩
      rw [openmpParallelFor, if_neg hz, if_pos h]

/-- The chunks over OpenMP when the call is split and the loop does not wrap. -/
theorem openmpParallelFor_eq (h : ¬r.n ≤ r.grain) (ht : 0 < c.numberOfThreads)
    (hfit : r.first + turns r.n (r.effectiveGrain c) * r.effectiveGrain c < SizeT.modulus) :
    r.openmpParallelFor c.numberOfThreads =
      .ok (blocks r.last (r.effectiveGrain c) (turns r.n (r.effectiveGrain c)) r.first) := by
  rw [openmpParallelFor, if_neg (by omega), if_neg h, openmp_divisor, chunkGrain_ok (by omega)]
  exact congrArg Except.ok (openmpChunks_eq_blocks hfit)

/-- The blocks of the effective grain partition the range. -/
theorem partition_blocks (r : RangeCall) (c : ThreadContext) :
    r.Partition (max r.grain (estimateGrain r.n (sizeOfInt (c.numberOfThreads * 4))))
      (blocks r.last (r.effectiveGrain c) (turns r.n (r.effectiveGrain c)) r.first) := by
  have hn := n_eq r
  have hreach := le_turns_mul (n := r.n) (effectiveGrain_pos r c)
  have hle := r.ordered
  refine partition_of_tiles (tiles_blocks (fun hk ↦ ?_) (by omega) hle) (fun b hb ↦ ?_)
  · have := turns_pred_mul_lt hk
    omega
  · exact (length_of_mem_blocks hb).trans (effectiveGrain_le r c)

/-- A call that is split where the pool has a thread and the loop does not wrap. -/
theorem partitions_of_fits (h : ¬r.n ≤ r.grain) (hs : ¬c.serialised)
    (ht : r.grain = 0 → c.numberOfThreads ≠ 0) (hpool : 0 < c.poolHardware.toInt)
    (hfit : r.first + turns r.n (r.effectiveGrain c) * r.effectiveGrain c < SizeT.modulus) :
    r.Partitions c := by
  obtain ⟨workers, hworkers, hw⟩ := allocateThreads_ok.mp hpool
  have hn := n_eq r
  have hinline : r.runsInline c = .ok false := by
    rw [runsInline, if_neg h]
    by_cases hnested : c.nestedActivated = true
    · exact if_pos hnested
    · rw [if_neg hnested, ThreadContext.isParallelScope, poolSize_of_nonneg (by omega)]
      have hcaller : c.caller.isSome = false := by
        simpa [ThreadContext.serialised, hnested] using hs
      rw [hcaller]
      rfl
  have hdispatch := dispatch_eq_blocks r.last hw (fun hk ↦ by have := turns_pred_mul_lt hk; omega)
    (by have := le_turns_mul (n := r.n) (effectiveGrain_pos r c); omega) hfit
  refine ⟨_, ⟨turns r.n (r.effectiveGrain c) + 1, ?_⟩, partition_blocks r c, fun hpos ↦ ?_⟩
  · rw [parallelFor, if_neg (by omega), hinline, chunkGrain_ok ht, hworkers]
    exact hdispatch
  · exact ⟨_, openmpParallelFor_eq h hpos hfit, .refl _⟩

/-- A serialised call that is longer than its grain is one chunk, within the bound only when it
has length one. -/
theorem partitions_serialised_iff (h : ¬r.n ≤ r.grain) (hs : c.serialised) :
    r.Partitions c ↔ r.n = 1 := by
  have hn := n_eq r
  have hle := r.ordered
  obtain ⟨hnested, hcaller⟩ : c.nestedActivated = false ∧ c.caller.isSome = true := by
    simpa [ThreadContext.serialised] using hs
  have hpool := c.caller_pool hcaller
  have hrun (fuel : Nat) : r.parallelFor c fuel = .ok [(r.first, r.last)] := by
    rw [parallelFor, if_neg (by omega), runsInline, if_neg h, hnested, ThreadContext.isParallelScope,
      poolSize_of_nonneg (by omega), hcaller]
    rfl
  constructor
  · rintro ⟨chunks, ⟨fuel, hchunks⟩, hpart, -⟩
    rw [hrun] at hchunks
    cases hchunks
    have hshort := hpart.short _ List.mem_cons_self
    have hest : r.n ≤ estimateGrain r.n (sizeOfInt (c.numberOfThreads * 4)) := by
      dsimp only at hshort
      omega
    unfold estimateGrain at hest
    split at hest
    · next hdiv =>
      -- a division by four or more makes a positive number smaller
      by_cases ht : c.numberOfThreads = 0
      · rw [divisor_eq_zero.mpr ht, Nat.div_zero] at hdiv
        omega
      · have := div_lt_self (n := r.n) (by omega) (lt_of_lt_of_le (by decide) (divisor_ge ht))
        omega
    · omega
  · intro hone
    have hgrain : r.grain = 0 := by omega
    refine ⟨_, ⟨0, hrun 0⟩, ?_, fun hpos ↦ ?_⟩
    · refine partition_of_tiles (.cons rfl (by omega) (.nil _)) (fun b hb ↦ ?_)
      rw [List.mem_singleton.mp hb]
      have := estimateGrain_pos r.n (sizeOfInt (c.numberOfThreads * 4))
      omega
    · have hgrain1 : r.effectiveGrain c = 1 := by
        have hdiv : 1 / sizeOfInt (c.numberOfThreads * 4) = 0 :=
          div_eq_of_lt (lt_of_lt_of_le (by decide) (divisor_ge (by omega)))
        rw [effectiveGrain, if_pos hgrain, hone, estimateGrain, hdiv]
        rfl
      have hlt := r.last_lt
      refine ⟨_, openmpParallelFor_eq h hpos ?_, ?_⟩
      · rw [hgrain1, hone]
        change r.first + 1 * 1 < _
        omega
      · rw [hgrain1, hone]
        have hmin : min (r.first + 0 * 1 + 1) r.last = r.last := by omega
        change List.Perm [(r.first + 0 * 1, min (r.first + 0 * 1 + 1) r.last)] _
        rw [hmin, Nat.add_zero]

/-- Outside of a nested call that is serialised, a call longer than its grain is split. -/
theorem runsInline_of_ok {whole : Bool} (h : ¬r.n ≤ r.grain) (hs : ¬c.serialised)
    (hinline : r.runsInline c = .ok whole) : whole = false := by
  rw [runsInline, if_neg h] at hinline
  by_cases hnested : c.nestedActivated = true
  · rw [if_pos hnested] at hinline
    cases hinline
    rfl
  · rw [if_neg hnested, ThreadContext.isParallelScope] at hinline
    have hcaller : c.caller.isSome = false := by simpa [ThreadContext.serialised, hnested] using hs
    cases hpool : c.poolSize with
    | error e =>
      rw [hpool] at hinline
      cases hinline
    | ok size =>
      rw [hpool, hcaller] at hinline
      cases hinline
      rfl

/-- A call is partitioned exactly when it fits in one chunk, or is serialised and has length one,
or is split with a thread to divide by and a thread in the pool, and the end of its last full
block is a `size_t`. -/
theorem partitions_iff (r : RangeCall) (c : ThreadContext) :
    r.Partitions c ↔ r.n ≤ r.grain ∨ (c.serialised ∧ r.n = 1) ∨
      (¬c.serialised ∧ (r.grain = 0 → c.numberOfThreads ≠ 0) ∧ 0 < c.poolHardware.toInt ∧
        r.first + turns r.n (r.effectiveGrain c) * r.effectiveGrain c < SizeT.modulus) := by
  by_cases h : r.n ≤ r.grain
  · exact iff_of_true (partitions_of_le h) (.inl h)
  by_cases hs : c.serialised
  · rw [partitions_serialised_iff h hs]
    simp [h, hs]
  · constructor
    · rintro ⟨chunks, ⟨fuel, hchunks⟩, hpart, -⟩
      refine .inr (.inr ⟨hs, ?_⟩)
      have hn := n_eq r
      rw [parallelFor, if_neg (by omega)] at hchunks
      cases hinline : r.runsInline c with
      | error e =>
        rw [hinline] at hchunks
        cases hchunks
      | ok whole =>
        rw [hinline, runsInline_of_ok h hs hinline] at hchunks
        cases hgrain : chunkGrain r.grain r.n (sizeOfInt (c.numberOfThreads * 4)) with
        | error e =>
          rw [hgrain] at hchunks
          cases hchunks
        | ok g =>
          cases hworkers : c.allocateThreads with
          | error e =>
            rw [hgrain, hworkers] at hchunks
            cases hchunks
          | ok workers =>
            rw [hgrain, hworkers] at hchunks
            obtain ⟨rfl, ht⟩ := grain_of_ok hgrain
            have hlt := r.last_lt
            obtain ⟨hfit, hw⟩ := fits_of_dispatch (effectiveGrain_pos r c) (effectiveGrain_lt r c)
              (by omega) hchunks hpart.nonempty
            exact ⟨ht, allocateThreads_ok.mpr ⟨workers, hworkers, hw (by omega)⟩, hn ▸ hfit⟩
    · rintro (hle | ⟨hser, -⟩ | ⟨-, ht, hpool, hfit⟩)
      · exact absurd hle h
      · exact absurd hser hs
      · exact partitions_of_fits h hs ht hpool hfit

/-- The indices below ten, with an automatic grain. -/
def belowTen : RangeCall where
  first := 0
  last := 10
  grain := 0
  ordered := by decide
  last_lt := by decide
  grain_lt := by decide

/-- A caller outside the pool where `hardware_concurrency()` is zero. -/
def unknownHardware : ThreadContext where
  specified := 0
  hardware := 0
  poolHardware := 0
  nestedActivated := false
  caller := none
  caller_pool := fun h ↦ (by cases h)

/-- The automatic grain divides by zero there. -/
theorem belowTen_not_partitioned : ¬belowTen.Partitions unknownHardware := by
  rintro ⟨chunks, ⟨fuel, hchunks⟩, -⟩
  cases hchunks

end RangeCall

end Hisab.Parallel
