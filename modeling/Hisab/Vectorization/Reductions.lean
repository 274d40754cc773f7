import Hisab.Base.Reduction
import Hisab.Vectorization.LogicalCopies

/-!
# Reductions of tensors and expressions

`accumulate`, `hmin` and `hmax` (`expressions/expressions_evaluator.h:368–865`) over exact
numbers. The three have the same loops with another operation and another start. A prefetch has
no effect, and is left out.
-/

namespace Hisab.Vectorization

open Hisab.Base List Nat SizeT

variable {V : Type}

/-- `accumulate` adds up from zero (`expressions_evaluator.h:368–521`). -/
def accumulateReduction : Reduction ℚ where
  op := (· + ·)
  start := 0
  comm := add_comm
  assoc := add_assoc
  start_op_start := add_zero 0

/-- `hmin` takes minima from `std::numeric_limits<value_t>::max()`
(`expressions_evaluator.h:524–692`). -/
def hminReduction (max : ℚ) : Reduction ℚ where
  op := min
  start := max
  comm := min_comm
  assoc := min_assoc
  start_op_start := min_self max

/-- `hmax` takes maxima from `-std::numeric_limits<value_t>::max()`
(`expressions_evaluator.h:695–865`). -/
def hmaxReduction (max : ℚ) : Reduction ℚ where
  op := Max.max
  start := -max
  comm := max_comm
  assoc := max_assoc
  start_op_start := max_self (-max)

/-- `expression_loader::evaluate` (`expression_interface_loader.h:40–73`): one value, or the lanes
of an aligned or unaligned load. -/
structure Loader (V : Type) where
  scalar : Nat → Except TensorError V
  packet : Bool → Nat → Except TensorError (List V)

namespace Loader

variable (T : SimdTarget) (r : Reduction V) (load : Loader V)

/-- The loop over single values. -/
def scalarLoop (stop i : Nat) (acc : V) : Except TensorError (Nat × V) :=
  forLoop stop 1 Nat.one_pos (fun i acc ↦ (load.scalar i).map (r.op acc)) i acc

/-- One turn of a loop over blocks, with a register for each packet. -/
def blockTurn (aligned : Bool) (i : Nat) (regs : List (List V)) : Except TensorError (List (List V)) :=
  ((List.range T.packet).mapM fun k ↦ load.packet aligned (i + k * T.length)).map
    (List.zipWith (List.zipWith r.op) regs)

/-- One turn of a loop over packets, all into the first register. -/
def packetTurn (aligned : Bool) (i : Nat) (regs : List (List V)) :
    Except TensorError (List (List V)) :=
  (load.packet aligned i).map fun temp ↦ regs.modifyHead (List.zipWith r.op · temp)

theorem block_pos : 0 < T.length * T.packet := mul_pos T.length_pos T.packet_pos

/-- The loop over blocks up to `stop`, which is there if a block has more than one packet. -/
def blockLoop (aligned : Bool) (stop i : Nat) (regs : List (List V)) :
    Except TensorError (Nat × List (List V)) :=
  if 1 < T.packet then
    forLoop (i + (stop - i) / (T.length * T.packet) * (T.length * T.packet)) (T.length * T.packet)
      (block_pos T) (blockTurn T r load aligned) i regs
  else .ok (i, regs)

/-- A loop over blocks and the loop over the packets that are left. -/
def packetLoops (aligned : Bool) (stop i : Nat) (regs : List (List V)) :
    Except TensorError (Nat × List (List V)) := do
  let (i, regs) ← blockLoop T r load aligned stop i regs
  forLoop stop T.length T.length_pos (packetTurn r load aligned) i regs

/-- The registers at first. -/
def startRegisters : List (List V) := List.replicate T.packet (List.replicate T.length r.start)

/-- The packets of a tensor from `i` on, aligned ones first
(`expressions_evaluator.h:391–464`). -/
def tensorPackets (alignEnd n i : Nat) (acc : V) : Except TensorError (Nat × V) :=
  if i < n then do
    let (i, regs) ← packetLoops T r load true alignEnd i (startRegisters T r)
    let (i, regs) ← packetLoops T r load false (i + (n - i) / T.length * T.length) i regs
    return (i, r.op acc (r.horizontal (r.combine regs)))
  else .ok (i, acc)

/-- The vectorized part for a tensor (`expressions_evaluator.h:384–465`). -/
def tensorHead (alignStart alignEnd n : Nat) : Except TensorError (Nat × V) := do
  let (i, acc) ← scalarLoop r load alignStart 0 r.start
  tensorPackets T r load alignEnd n i acc

/-- The vectorized part for an expression (`expressions_evaluator.h:466–514`). -/
def expressionHead (n : Nat) : Except TensorError (Nat × V) :=
  if 0 < T.length * (n / T.length) then do
    let (i, regs) ← packetLoops T r load false (T.length * (n / T.length)) 0 (startRegisters T r)
    return (i, r.op r.start (r.horizontal (r.combine regs)))
  else .ok (0, r.start)

/-- The values that the vectorized part has left (`expressions_evaluator.h:516–520`). -/
def scalarTail (n : Nat) (head : Except TensorError (Nat × V)) : Except TensorError V := do
  let (i, acc) ← head
  let (_, acc) ← scalarLoop r load n i acc
  return acc

/-- A reduction of a tensor. -/
def reduceTensor (alignStart alignEnd n : Nat) : Except TensorError V :=
  scalarTail r load n
    (if T.vectorized then tensorHead T r load alignStart alignEnd n else .ok (0, r.start))

/-- A reduction of an expression. -/
def reduceExpression (n : Nat) : Except TensorError V :=
  scalarTail r load n (if T.vectorized then expressionHead T r load n else .ok (0, r.start))

end Loader

/-! ### The loops -/

namespace Loader

variable {T : SimdTarget} {r : Reduction V} {load : Loader V} {v : Nat → V} {regs : List (List V)}

/-- What is left of `n` values from `i` on. -/
def totalFrom (r : Reduction V) (v : Nat → V) (i n : Nat) : V := r.total ((List.range' i n).map v)

theorem totalFrom_add (i m n : Nat) :
    totalFrom r v i (m + n) = r.op (totalFrom r v i m) (totalFrom r v (i + m) n) := by
  rw [totalFrom, ← range'_append_1, map_append, r.total_append]
  rfl

theorem totalFrom_succ (i n : Nat) :
    totalFrom r v i (n + 1) = r.op (totalFrom r v i n) (v (i + n)) := by
  rw [totalFrom, range'_concat, map_append, one_mul, map_singleton, ← r.op_total]
  rfl

theorem scalarLoop_ok {i n : Nat} (hload : ∀ j < i + n, load.scalar j = .ok (v j)) :
    scalarLoop r load (i + n) i (totalFrom r v 0 i) = .ok (i + n, totalFrom r v 0 (i + n)) := by
  obtain ⟨acc, hacc, rfl⟩ := forLoop_ok one_pos
    (fun i acc ↦ (load.scalar i).map (r.op acc)) (fun j acc ↦ acc = totalFrom r v 0 j)
    (i := i) n (fun m hm acc hacc ↦ by
      refine ⟨_, ?_, rfl⟩
      have hnext : i + (m + 1) * 1 = i + m * 1 + 1 := by omega
      rw [hacc, hload _ (by omega), hnext, totalFrom_succ, zero_add]
      rfl) rfl
  rw [mul_one] at hacc
  exact hacc

/-- The registers hold what is left of `n` values from `i` on. -/
structure Holds (T : SimdTarget) (r : Reduction V) (v : Nat → V) (i n : Nat)
    (regs : List (List V)) : Prop where
  shaped : Reduction.Shaped T.packet T.length regs
  total : r.total regs.flatten = totalFrom r v i n

theorem holds_start (i : Nat) : Holds T r v i 0 (startRegisters T r) where
  shaped := Reduction.shaped_replicate r.start
  total := r.total_flatten_replicate

/-- A load has the lanes from `i` on. -/
def Loads (T : SimdTarget) (load : Loader V) (v : Nat → V) (aligned : Bool) (i : Nat) : Prop :=
  load.packet aligned i = .ok ((List.range' i T.length).map v)

/-- Packets side by side. -/
theorem flatten_packets (i length packet : Nat) :
    ((List.range packet).map fun k ↦ (List.range' (i + k * length) length).map v).flatten =
      (List.range' i (packet * length)).map v := by
  induction packet with
  | zero => simp
  | succ packet ih =>
    rw [range_succ, map_append, flatten_append, ih, succ_mul, ← range'_append_1, map_append]
    simp

/-- One turn of a loop over packets. -/
theorem packetTurn_ok (load : Loader V) (aligned : Bool) {i₀ n : Nat}
    (hload : Loads T load v aligned (i₀ + n)) (h : Holds T r v i₀ n regs) :
    ∃ regs', packetTurn r load aligned (i₀ + n) regs = .ok regs' ∧
      Holds T r v i₀ (n + T.length) regs' := by
  have hlen : ((range' (i₀ + n) T.length).map v).length = T.length := by simp
  refine ⟨_, ?_, Reduction.shaped_modifyHead r h.shaped hlen, ?_⟩
  · rw [packetTurn, hload]
    rfl
  · rw [r.total_modifyHead h.shaped T.packet_pos hlen, h.total, totalFrom_add]
    rfl

/-- One turn of a loop over blocks. -/
theorem blockTurn_ok (load : Loader V) (aligned : Bool) {i₀ n : Nat}
    (hload : ∀ k < T.packet, Loads T load v aligned (i₀ + n + k * T.length))
    (h : Holds T r v i₀ n regs) : ∃ regs', blockTurn T r load aligned (i₀ + n) regs = .ok regs' ∧
      Holds T r v i₀ (n + T.packet * T.length) regs' := by
  let temps := (range T.packet).map fun k ↦ (range' (i₀ + n + k * T.length) T.length).map v
  have htemps : Reduction.Shaped T.packet T.length temps := by
    refine ⟨by simp [temps], fun reg hreg ↦ ?_⟩
    obtain ⟨k, -, rfl⟩ := mem_map.mp hreg
    simp
  have hmap : (range T.packet).mapM (fun k ↦ load.packet aligned (i₀ + n + k * T.length)) =
      .ok temps := by
    rw [mapM_eq_ok, forall₂_map_right_iff, forall₂_same]
    exact fun k hk ↦ hload k (mem_range.mp hk)
  refine ⟨_, ?_, Reduction.shaped_zipWith_zipWith r h.shaped htemps, ?_⟩
  · rw [blockTurn, hmap]
    rfl
  · rw [r.total_zipWith_zipWith h.shaped htemps, h.total, totalFrom_add, flatten_packets]
    rfl

/-- The loop over blocks takes whole blocks and leaves whole packets. -/
theorem blockLoop_ok (aligned : Bool) {i₀ n q : Nat}
    (hload : ∀ m < q, Loads T load v aligned (i₀ + n + m * T.length)) (h : Holds T r v i₀ n regs) :
    ∃ m ≤ q, ∃ regs', blockLoop T r load aligned (i₀ + n + q * T.length) (i₀ + n) regs =
      .ok (i₀ + n + m * T.length, regs') ∧ Holds T r v i₀ (n + m * T.length) regs' := by
  rw [blockLoop]
  by_cases hp : 1 < T.packet
  · rw [if_pos hp]
    have hblocks : (i₀ + n + q * T.length - (i₀ + n)) / (T.length * T.packet) = q / T.packet := by
      rw [Nat.add_sub_cancel_left, mul_comm q, Nat.mul_div_mul_left _ _ T.length_pos]
    rw [hblocks]
    have hle : q / T.packet * T.packet ≤ q := div_mul_le_self q T.packet
    have hregroup (m : Nat) : m * (T.length * T.packet) = m * T.packet * T.length := by
      rw [mul_comm T.length, mul_assoc]
    obtain ⟨regs', hregs', hholds⟩ := forLoop_ok (block_pos T)
      (blockTurn T r load aligned) (fun j regs ↦ ∃ m, j = i₀ + m ∧ Holds T r v i₀ m regs) (q / T.packet) (fun m hm regs hregs ↦ by
        obtain ⟨n', hn', hholds⟩ := hregs
        have hturn := blockTurn_ok load aligned (fun k hk ↦ by
          rw [← hn', hregroup, add_assoc (i₀ + n), ← add_mul]
          have : (m + 1) * T.packet ≤ q / T.packet * T.packet := mul_le_mul_right _ hm
          rw [succ_mul] at this
          exact hload _ (by omega)) hholds
        obtain ⟨regs', hregs', hholds'⟩ := hturn
        refine ⟨regs', hn' ▸ hregs', _, ?_, hholds'⟩
        rw [succ_mul, mul_comm T.packet]
        omega) ⟨n, rfl, h⟩
    obtain ⟨n', hn', hholds⟩ := hholds
    rw [hregroup] at hregs' hn'
    have hn' : n' = n + q / T.packet * T.packet * T.length := by omega
    refine ⟨q / T.packet * T.packet, hle, regs', ?_, hn' ▸ hholds⟩
    rw [hregroup]
    exact hregs'
  · rw [if_neg hp]
    exact ⟨0, zero_le q, regs, by simp, by simpa using h⟩

/-- Both loops together take all packets. -/
theorem packetLoops_ok (aligned : Bool) {i₀ n q : Nat}
    (hload : ∀ m < q, Loads T load v aligned (i₀ + n + m * T.length)) (h : Holds T r v i₀ n regs) :
    ∃ regs', packetLoops T r load aligned (i₀ + n + q * T.length) (i₀ + n) regs =
      .ok (i₀ + n + q * T.length, regs') ∧ Holds T r v i₀ (n + q * T.length) regs' := by
  obtain ⟨m, hm, regs₁, hblock, hholds₁⟩ := blockLoop_ok aligned hload h
  have hsplit : q * T.length = m * T.length + (q - m) * T.length := by
    rw [← add_mul, Nat.add_sub_cancel' hm]
  obtain ⟨regs₂, hpacket, n', hn', hholds₂⟩ := forLoop_ok T.length_pos
    (packetTurn r load aligned) (fun j regs ↦ ∃ m, j = i₀ + m ∧ Holds T r v i₀ m regs)
    (i := i₀ + n + m * T.length) (q - m) (fun k hk regs hregs ↦ by
      obtain ⟨n', hn', hholds⟩ := hregs
      have hturn := packetTurn_ok load aligned (by
        rw [← hn', add_assoc (i₀ + n), ← add_mul]
        exact hload _ (by omega)) hholds
      obtain ⟨regs', hregs', hholds'⟩ := hturn
      refine ⟨regs', hn' ▸ hregs', _, ?_, hholds'⟩
      rw [succ_mul]
      omega) ⟨n + m * T.length, by omega, hholds₁⟩
  have hend : i₀ + n + q * T.length = i₀ + n + m * T.length + (q - m) * T.length := by omega
  have hn' : n' = n + q * T.length := by omega
  refine ⟨regs₂, ?_, hn' ▸ hholds₂⟩
  rw [packetLoops, hblock, hend]
  exact hpacket

/-- The registers are added to the values before them. -/
theorem op_horizontal_of_holds {i n : Nat} (h : Holds T r v i n regs) :
    r.op (totalFrom r v 0 i) (r.horizontal (r.combine regs)) = totalFrom r v 0 (i + n) := by
  rw [totalFrom, r.op_horizontal_combine _ h.shaped, r.total_append, h.total, totalFrom_add,
    zero_add]
  rfl

/-- The packets of a tensor, then the values that are left. -/
theorem tensorPackets_ok {alignEnd n i : Nat} (hi : i ≤ n)
    (hunaligned : ∀ j, j + T.length ≤ n → Loads T load v false j)
    (haligned : i < n → ∃ q, alignEnd = i + q * T.length ∧ alignEnd ≤ n ∧
      ∀ m < q, Loads T load v true (i + m * T.length)) :
    ∃ e ≤ n, tensorPackets T r load alignEnd n i (totalFrom r v 0 i) =
      .ok (e, totalFrom r v 0 e) := by
  rw [tensorPackets]
  by_cases hlt : i < n
  · obtain ⟨q, rfl, hend, hloads⟩ := haligned hlt
    have hle := div_mul_le_self (n - (i + q * T.length)) T.length
    obtain ⟨regs₁, hregs₁, hholds₁⟩ := packetLoops_ok true hloads (holds_start i)
    obtain ⟨regs₂, hregs₂, hholds₂⟩ := packetLoops_ok false (fun m hm ↦ hunaligned _ (by
        have : (m + 1) * T.length ≤ (n - (i + q * T.length)) / T.length * T.length :=
          mul_le_mul_right _ hm
        rw [succ_mul] at this
        omega)) hholds₁
    refine ⟨i + (0 + q * T.length + (n - (i + q * T.length)) / T.length * T.length), by omega, ?_⟩
    rw [if_pos hlt, ← op_horizontal_of_holds hholds₂]
    rw [add_zero] at hregs₁
    rw [zero_add] at hregs₂ ⊢
    rw [hregs₁, ← add_assoc]
    change (packetLoops T r load false _ (i + q * T.length) regs₁ >>= _) = _
    rw [hregs₂]
    rfl
  · rw [if_neg hlt]
    exact ⟨i, hi, rfl⟩

theorem scalarTail_ok {n e : Nat} {head : Except TensorError (Nat × V)} (he : e ≤ n)
    (hhead : head = .ok (e, totalFrom r v 0 e)) (hscalar : ∀ j < n, load.scalar j = .ok (v j)) :
    scalarTail r load n head = .ok (totalFrom r v 0 n) := by
  have hloop := scalarLoop_ok (r := r) (i := e) (n := n - e) (fun j hj ↦ hscalar j (by omega))
  rw [Nat.add_sub_cancel' he] at hloop
  rw [hhead]
  change (scalarLoop r load n e (totalFrom r v 0 e) >>= _) = _
  rw [hloop]
  rfl

/-- A tensor's reduction is the total of its values. -/
theorem reduceTensor_ok {alignStart alignEnd n : Nat} (hscalar : ∀ j < n, load.scalar j = .ok (v j))
    (hunaligned : ∀ j, j + T.length ≤ n → Loads T load v false j)
    (hstart : alignStart ≤ n)
    (haligned : alignStart < n → ∃ q, alignEnd = alignStart + q * T.length ∧ alignEnd ≤ n ∧
      ∀ m < q, Loads T load v true (alignStart + m * T.length)) :
    reduceTensor T r load alignStart alignEnd n = .ok (totalFrom r v 0 n) := by
  rw [reduceTensor]
  by_cases hv : T.vectorized = true
  · rw [if_pos hv]
    obtain ⟨e, he, hpackets⟩ := tensorPackets_ok hstart hunaligned haligned
    have hcap := scalarLoop_ok (r := r) (i := 0) (n := alignStart) (fun j hj ↦ hscalar j (by omega))
    rw [zero_add] at hcap
    refine scalarTail_ok he ?_ hscalar
    change (scalarLoop r load alignStart 0 (totalFrom r v 0 0) >>= _) = _
    rw [hcap]
    exact hpackets
  · rw [if_neg hv]
    exact scalarTail_ok (zero_le n) rfl hscalar

/-- So is an expression's. -/
theorem reduceExpression_ok {n : Nat} (hscalar : ∀ j < n, load.scalar j = .ok (v j))
    (hunaligned : ∀ j, j + T.length ≤ n → Loads T load v false j) :
    reduceExpression T r load n = .ok (totalFrom r v 0 n) := by
  rw [reduceExpression]
  by_cases hv : T.vectorized = true
  · rw [if_pos hv, expressionHead, mul_comm]
    by_cases hpeel : 0 < n / T.length * T.length
    · have hle := div_mul_le_self n T.length
      obtain ⟨regs, hregs, hholds⟩ := packetLoops_ok false (fun m hm ↦ hunaligned _ (by
          have : (m + 1) * T.length ≤ n / T.length * T.length := mul_le_mul_right _ hm
          rw [succ_mul] at this
          omega)) (holds_start 0)
      refine scalarTail_ok hle ?_ hscalar
      have htotal := op_horizontal_of_holds hholds
      rw [zero_add, zero_add] at hregs htotal
      rw [if_pos hpeel, hregs, ← htotal]
      rfl
    · rw [if_neg hpeel]
      exact scalarTail_ok (zero_le n) rfl hscalar
  · rw [if_neg hv]
    exact scalarTail_ok (zero_le n) rfl hscalar

end Loader

/-! ### Tensors -/

namespace Tensor

variable (T : SimdTarget) (h : Heap V) (x : Tensor)

/-- `simd<value_t>::load` may be used at `data() + index`. -/
def loadAligned (index : Nat) : Bool :=
  match x.view.data with
  | some p => (p.address T + T.scalarSize * index) % (T.scalarSize * T.simdAlignSize) == 0
  | none => false

/-- `expression_loader` for a tensor (`expression_interface_loader.h:43–64`), which reads from
`data()` on. -/
def loader : Loader V where
  scalar index := x.readAt h index
  packet aligned index :=
    if aligned && !x.loadAligned T index then .error .undefined
    else (List.range T.length).mapM fun k ↦ x.readAt h (index + k)

def reduce (r : Reduction V) : Except TensorError V :=
  (x.loader T h).reduceTensor T r x.alignStart x.alignEnd x.numel

/-- `accumulate` of a tensor. -/
def accumulate (h : Heap ℚ) : Except TensorError ℚ := x.reduce T h accumulateReduction

/-- `hmin` of a tensor. -/
def hmin (max : ℚ) (h : Heap ℚ) : Except TensorError ℚ := x.reduce T h (hminReduction max)

/-- `hmax` of a tensor. -/
def hmax (max : ℚ) (h : Heap ℚ) : Except TensorError ℚ := x.reduce T h (hmaxReduction max)

end Tensor

/-! ### Expressions -/

/-- An expression tree (`expression_interface.h:81–339`), with a borrowed window for a tensor. On
packets a functor does the same lane by lane. -/
inductive Expression (V : Type)
  | operand (view : DataView)
  | scalar (c : V)
  | unary (functor : V → V) (lhs : Expression V)
  | binary (functor : V → V → V) (lhs rhs : Expression V)
  | trinary (functor : V → V → V → V) (lhs mhs rhs : Expression V)

namespace Expression

variable (T : SimdTarget) (h : Heap V)

/-- `store_operand` of a tensor (`expression_interface.h:57–79`). -/
def storeOperand (x : Tensor) : Except TensorError (Expression V) := do
  check (x.contiguous = true) "expression operands must be contiguous; call contiguous() first"
  return .operand (.borrow T x.view.data x.numel x.view.placement)

/-- `size()`, of an operand that is an expression (`expression_interface.h:94, 155–163,
255–272`). -/
def operandSize : Expression V → Option Nat
  | .operand view => some view.size
  | .scalar _ => none
  | .unary _ lhs => lhs.operandSize
  | .binary _ lhs rhs => rhs.operandSize <|> lhs.operandSize
  | .trinary _ lhs mhs rhs => lhs.operandSize <|> mhs.operandSize <|> rhs.operandSize

def size (e : Expression V) : Nat := e.operandSize.getD 0

/-- One element of a window. -/
def readView (view : DataView) (index : Nat) : Except TensorError V :=
  match view.data with
  | some p => h.read (p.add index)
  | none => .error .undefined

/-- `evaluate<false, false>` (`expression_interface.h:121–127, 215–223, 319–329`). -/
def evaluate : Expression V → Nat → Except TensorError V
  | .operand view, index => readView h view index
  | .scalar c, _ => .ok c
  | .unary f lhs, index => do
    let lhs ← lhs.evaluate index
    return f lhs
  | .binary f lhs rhs, index => do
    let lhs ← lhs.evaluate index
    let rhs ← rhs.evaluate index
    return f lhs rhs
  | .trinary f lhs mhs rhs, index => do
    let lhs ← lhs.evaluate index
    let mhs ← mhs.evaluate index
    let rhs ← rhs.evaluate index
    return f lhs mhs rhs

/-- `evaluate<true, false>`. -/
def evaluatePacket : Expression V → Nat → Except TensorError (List V)
  | .operand view, index => (List.range T.length).mapM fun k ↦ readView h view (index + k)
  | .scalar c, _ => .ok (List.replicate T.length c)
  | .unary f lhs, index => do
    let lhs ← lhs.evaluatePacket index
    return lhs.map f
  | .binary f lhs rhs, index => do
    let lhs ← lhs.evaluatePacket index
    let rhs ← rhs.evaluatePacket index
    return List.zipWith f lhs rhs
  | .trinary f lhs mhs rhs, index => do
    let lhs ← lhs.evaluatePacket index
    let mhs ← mhs.evaluatePacket index
    let rhs ← rhs.evaluatePacket index
    return List.zipWith (fun g x ↦ g x) (List.zipWith f lhs mhs) rhs

def loader (e : Expression V) : Loader V where
  scalar := e.evaluate h
  packet _ := e.evaluatePacket T h

def reduce (e : Expression V) (r : Reduction V) : Except TensorError V :=
  (e.loader T h).reduceExpression T r e.size

/-- `accumulate` of an expression. -/
def accumulate (h : Heap ℚ) (e : Expression ℚ) : Except TensorError ℚ :=
  e.reduce T h accumulateReduction

/-- `hmin` of an expression. -/
def hmin (max : ℚ) (h : Heap ℚ) (e : Expression ℚ) : Except TensorError ℚ :=
  e.reduce T h (hminReduction max)

/-- `hmax` of an expression. -/
def hmax (max : ℚ) (h : Heap ℚ) (e : Expression ℚ) : Except TensorError ℚ :=
  e.reduce T h (hmaxReduction max)

end Expression

/-! ### What the loads find -/

namespace Tensor

variable {T : SimdTarget} {h : Heap V} {x : Tensor} {r : Reduction V} {v : Nat → V}

theorem and_pred_eq_mod {m : Nat} (hm : ∃ k, m = 2 ^ k) (a : Nat) : a &&& (m - 1) = a % m := by
  obtain ⟨k, rfl⟩ := hm
  exact and_two_pow_sub_one_eq_mod a k

theorem firstAligned_le (T : SimdTarget) (array : Option Pointer) (n : Nat) :
    firstAligned T array n ≤ n := by
  unfold firstAligned
  dsimp only
  split
  · exact zero_le n
  · split
    · exact le_refl n
    · split
      · omega
      · exact le_refl n

/-- The first aligned element is aligned, if there is one. -/
theorem firstAligned_spec {p : Pointer} {n : Nat} (hlt : firstAligned T (some p) n < n) :
    (p.address T + T.scalarSize * firstAligned T (some p) n) %
      (T.scalarSize * T.simdAlignSize) = 0 := by
  have halign := T.one_lt_alignmentSize
  have hsimd : 0 < T.simdAlignSize := by
    obtain ⟨k, hk⟩ := T.simdAlignSize_pow
    rw [hk]
    exact Nat.two_pow_pos k
  unfold firstAligned at hlt ⊢
  dsimp only [Option.elim_some] at hlt ⊢
  rw [if_neg (by omega)] at hlt ⊢
  by_cases hscalar : p.address T &&& (T.scalarSize - 1) ≠ 0
  · rw [if_pos hscalar] at hlt
    exact absurd hlt (lt_irrefl n)
  · rw [if_neg hscalar] at hlt ⊢
    rw [and_pred_eq_mod T.simdAlignSize_pow, and_pred_eq_mod T.simdAlignSize_pow] at hlt ⊢
    split at hlt
    · next hfirst =>
      rw [if_pos hfirst]
      rw [and_pred_eq_mod T.scalarSize_pow, not_not] at hscalar
      have haddress : T.scalarSize * (p.address T / T.scalarSize) = p.address T :=
        Nat.mul_div_cancel' (dvd_of_mod_eq_zero hscalar)
      generalize p.address T / T.scalarSize = q at haddress ⊢
      rw [← haddress, ← mul_add, mul_mod_mul_left, add_mod_mod]
      have hq := mod_lt q hsimd
      have hdiv := div_add_mod q T.simdAlignSize
      have hsum : q + (T.simdAlignSize - q % T.simdAlignSize) =
          T.simdAlignSize * (q / T.simdAlignSize + 1) := by
        rw [mul_succ]
        omega
      rw [hsum, mul_mod_right, mul_zero]
    · exact absurd hlt (lt_irrefl n)

/-- So is every packet after an aligned element. -/
theorem loadAligned_add {p : Pointer} (hp : x.view.data = some p) {i : Nat}
    (hi : (p.address T + T.scalarSize * i) % (T.scalarSize * T.simdAlignSize) = 0) (m : Nat) :
    x.loadAligned T (i + m * T.length) = true := by
  obtain ⟨c, hc⟩ := T.simdAlign_dvd_length
  have hstep : T.scalarSize * (m * T.length) = T.scalarSize * T.simdAlignSize * (m * c) := by
    rw [hc, mul_assoc, mul_left_comm m]
  rw [loadAligned, hp]
  dsimp only
  rw [mul_add, ← add_assoc, hstep, add_mul_mod_self_left, hi]
  rfl

/-- A tensor on the CPU whose flags are cached, and whose storage is there if it has elements. -/
structure Reducible (T : SimdTarget) (x : Tensor) : Prop where
  cpu : x.view.placement.device = .cpu
  cached : x.recompute T = x
  data : x.numel ≠ 0 → x.view.data.isSome

/-- The cached range of aligned packets is one, inside the tensor. -/
theorem Reducible.align (hx : x.Reducible T) : x.alignStart ≤ x.numel ∧
    (x.alignStart < x.numel → ∃ q, x.alignEnd = x.alignStart + q * T.length ∧
      x.alignEnd ≤ x.numel ∧ ∀ m < q, x.loadAligned T (x.alignStart + m * T.length) = true) := by
  have hcached := hx.cached
  unfold recompute at hcached
  by_cases hnil : x.sizesAndStrides = []
  · rw [if_pos hnil] at hcached
    have hstart : 0 = x.alignStart := congrArg alignStart hcached
    have hend : 0 = x.alignEnd := congrArg alignEnd hcached
    rw [← hstart, ← hend]
    exact ⟨zero_le _, fun _ ↦ ⟨0, by simp, zero_le _, by simp⟩⟩
  · rw [if_neg hnil] at hcached
    dsimp only at hcached
    split at hcached
    · have hstart : 0 = x.alignStart := congrArg alignStart hcached
      have hend : 0 = x.alignEnd := congrArg alignEnd hcached
      rw [← hstart, ← hend]
      exact ⟨zero_le _, fun _ ↦ ⟨0, by simp, zero_le _, by simp⟩⟩
    · have hnumel : totalSize x.sizesAndStrides = x.numel := congrArg numel hcached
      have hstart := congrArg alignStart hcached
      have hend := congrArg alignEnd hcached
      dsimp only at hstart hend
      rw [hnumel] at hstart hend
      rw [hstart] at hend
      have hle : x.alignStart ≤ x.numel := hstart ▸ firstAligned_le T _ _
      have hdiv := div_mul_le_self (x.numel - x.alignStart) T.length
      rw [lastAligned] at hend
      refine ⟨hle, fun hlt ↦ ⟨_, hend.symm, by omega, fun m _ ↦ ?_⟩⟩
      obtain ⟨p, hp⟩ := Option.isSome_iff_exists.mp (hx.data (by omega))
      apply loadAligned_add hp
      rw [hp] at hstart
      rw [← hstart] at hlt ⊢
      exact firstAligned_spec hlt

/-- Loads of values that are there. -/
theorem loads {n i : Nat} {aligned : Bool} (hread : ∀ j < n, x.readAt h j = .ok (v j))
    (hi : i + T.length ≤ n) (haligned : aligned = true → x.loadAligned T i = true) :
    Loader.Loads T (x.loader T h) v aligned i := by
  have hlanes : (range T.length).mapM (fun k ↦ x.readAt h (i + k)) =
      .ok ((range' i T.length).map v) := by
    rw [mapM_eq_ok, range'_eq_map_range, map_map, forall₂_map_right_iff, forall₂_same]
    intro k hk
    exact hread _ (by have := mem_range.mp hk; omega)
  rw [Loader.Loads, loader]
  dsimp only
  cases aligned with
  | false => exact hlanes
  | true =>
    rw [haligned rfl]
    exact hlanes

/-- A reduction is the total of the values in storage. -/
theorem Reducible.reduce_ok (hx : x.Reducible T) (hread : ∀ j < x.numel, x.readAt h j = .ok (v j)) :
    x.reduce T h r = .ok (r.total ((List.range x.numel).map v)) := by
  obtain ⟨hstart, halign⟩ := hx.align
  rw [range_eq_range']
  refine Loader.reduceTensor_ok hread (fun j hj ↦ loads hread hj (by simp)) hstart
    (fun hlt ↦ ?_)
  obtain ⟨q, hend, hle, hpackets⟩ := halign hlt
  refine ⟨q, hend, hle, fun m hm ↦ loads hread ?_ (fun _ ↦ hpackets m hm)⟩
  have : (m + 1) * T.length ≤ q * T.length := mul_le_mul_right _ hm
  rw [succ_mul] at this
  omega

end Tensor

namespace Expression

variable {T : SimdTarget} {h : Heap V} {r : Reduction V} {v : Nat → V}

/-- Two maps side by side. -/
theorem zipWith_map_map {α β γ : Type} (f : β → γ → V) (u : α → β) (w : α → γ) (l : List α) :
    List.zipWith f (l.map u) (l.map w) = l.map fun k ↦ f (u k) (w k) := by
  induction l with
  | nil => rfl
  | cons a l ih => rw [map_cons, map_cons, zipWith_cons_cons, ih, map_cons]

/-- Where the values of the lanes are there, so is the packet. -/
theorem evaluatePacket_ok (e : Expression V) (i : Nat)
    (hv : ∀ k < T.length, e.evaluate h (i + k) = .ok (v k)) :
    e.evaluatePacket T h i = .ok ((List.range T.length).map v) := by
  have : Nonempty V := ⟨v 0⟩
  induction e generalizing v with
  | operand view =>
    rw [evaluatePacket, mapM_eq_ok, forall₂_map_right_iff, forall₂_same]
    exact fun k hk ↦ hv k (mem_range.mp hk)
  | scalar c =>
    have hc : (range T.length).map v = (range T.length).map fun _ ↦ c := by
      apply map_congr_left
      intro k hk
      have := hv k (mem_range.mp hk)
      cases this
      rfl
    rw [evaluatePacket, hc, map_const', length_range]
  | unary f lhs ihl =>
    have hparts : ∀ k < T.length, ∃ a, lhs.evaluate h (i + k) = .ok a ∧ f a = v k := by
      intro k hk
      have hk := hv k hk
      obtain ⟨a, ha, hk⟩ := bind_eq_ok.mp hk
      exact ⟨a, ha, pure_eq_ok.mp hk⟩
    choose! u hu huv using hparts
    have heq : (range T.length).map v = (range T.length).map fun k ↦ f (u k) :=
      map_congr_left fun k hk ↦ (huv k (mem_range.mp hk)).symm
    rw [evaluatePacket, ihl hu, heq]
    change Except.ok (((range T.length).map u).map f) = _
    rw [map_map]
    rfl
  | binary f lhs rhs ihl ihr =>
    have hparts : ∀ k < T.length, ∃ a b, lhs.evaluate h (i + k) = .ok a ∧
        rhs.evaluate h (i + k) = .ok b ∧ f a b = v k := by
      intro k hk
      have hk := hv k hk
      obtain ⟨a, ha, hk⟩ := bind_eq_ok.mp hk
      obtain ⟨b, hb, hk⟩ := bind_eq_ok.mp hk
      exact ⟨a, b, ha, hb, pure_eq_ok.mp hk⟩
    choose! u w hu hw huv using hparts
    have heq : (range T.length).map v = (range T.length).map fun k ↦ f (u k) (w k) :=
      map_congr_left fun k hk ↦ (huv k (mem_range.mp hk)).symm
    rw [evaluatePacket, ihl hu, ihr hw, heq, ← zipWith_map_map]
    rfl
  | trinary f lhs mhs rhs ihl ihm ihr =>
    have hparts : ∀ k < T.length, ∃ a b c, lhs.evaluate h (i + k) = .ok a ∧
        mhs.evaluate h (i + k) = .ok b ∧ rhs.evaluate h (i + k) = .ok c ∧ f a b c = v k := by
      intro k hk
      have hk := hv k hk
      obtain ⟨a, ha, hk⟩ := bind_eq_ok.mp hk
      obtain ⟨b, hb, hk⟩ := bind_eq_ok.mp hk
      obtain ⟨c, hc, hk⟩ := bind_eq_ok.mp hk
      exact ⟨a, b, c, ha, hb, hc, pure_eq_ok.mp hk⟩
    choose! u w z hu hw hz huv using hparts
    have heq : (range T.length).map v = (range T.length).map fun k ↦ f (u k) (w k) (z k) :=
      map_congr_left fun k hk ↦ (huv k (mem_range.mp hk)).symm
    have hzip := zipWith_map_map (fun (g : V → V) x ↦ g x) (fun k ↦ f (u k) (w k)) z
      (range T.length)
    rw [evaluatePacket, ihl hu, ihm hw, ihr hz, heq, ← hzip, ← zipWith_map_map]
    rfl

/-- A reduction is the total of the values of the expression. -/
theorem reduce_ok (e : Expression V) (hv : ∀ i < e.size, e.evaluate h i = .ok (v i)) :
    e.reduce T h r = .ok (r.total ((List.range e.size).map v)) := by
  rw [range_eq_range']
  refine Loader.reduceExpression_ok hv (fun j hj ↦ ?_)
  have hpacket := evaluatePacket_ok (T := T) e j
    (fun k hk ↦ hv _ (by omega))
  rw [Loader.Loads, range'_eq_map_range, map_map]
  exact hpacket

/-- The values of a stored tensor are its elements. -/
theorem evaluate_storeOperand {x : Tensor} {e : Expression V}
    (he : storeOperand T x = .ok e) (i : Nat) :
    e.size = x.numel ∧ e.evaluate h i = x.elementAt h i := by
  obtain ⟨_, hc, he⟩ := bind_eq_ok.mp he
  cases he
  have hc : x.contiguous = true := by
    unfold check at hc
    split at hc
    · assumption
    · cases hc
  refine ⟨rfl, ?_⟩
  rw [Tensor.elementAt, Tensor.logicalOffset, if_pos hc]
  rfl

end Expression

/-- The results are those for the values `v` below `n`. -/
structure Sees (max : ℚ) (n : Nat) (v : Nat → ℚ) (accumulate hmin hmax : Except TensorError ℚ) :
    Prop where
  sum : accumulate = .ok ((List.range n).map v).sum
  minimum : hmin = .ok (((List.range n).map v).foldl min max)
  maximum : hmax = .ok (((List.range n).map v).foldl Max.max (-max))

theorem accumulateReduction_total (l : List ℚ) : accumulateReduction.total l = l.sum :=
  (sum_eq_foldl).symm

namespace Tensor

variable {T : SimdTarget} {x : Tensor}

/-- Storage below the number of elements is where the elements are. -/
theorem exists_perm {n : Nat} {off : Nat → Nat} (h : ∀ j < n, ∃ i < n, off i = j) :
    ∃ index : Nat → Nat, (∀ j < n, index j < n ∧ off (index j) = j) ∧
      ((List.range n).map index).Perm (List.range n) := by
  choose! index hlt hoff using h
  refine ⟨index, fun j hj ↦ ⟨hlt j hj, hoff j hj⟩, ?_⟩
  have hnodup : ((range n).map index).Nodup := by
    refine List.Nodup.map_on (fun i hi j hj hij ↦ ?_) nodup_range
    rw [← hoff i (mem_range.mp hi), ← hoff j (mem_range.mp hj), hij]
  have hsub : (range n).map index ⊆ range n := by
    intro i hi
    obtain ⟨j, hj, rfl⟩ := mem_map.mp hi
    exact mem_range.mpr (hlt j (mem_range.mp hj))
  exact (subperm_of_subset hnodup hsub).perm_of_length_le (by simp)

/-- A buffer with a one at offset `o`, and zero elsewhere. -/
def indicator (b o : Nat) : Heap ℚ where
  buffers := Function.update (fun _ ↦ none) b
    (some { length := SizeT.modulus, cells := fun i ↦ if i = o then 1 else 0 })
  next := b + 1

theorem read_indicator {p : Pointer} {j k : Nat} (hj : j < SizeT.modulus) (hk : k < SizeT.modulus) :
    (indicator p.buffer (SizeT.add p.offset j)).read (p.add k) = .ok (if k = j then 1 else 0) := by
  have hlive : (indicator p.buffer (add p.offset j)).live p.buffer =
      some { length := modulus, cells := fun i ↦ if i = add p.offset j then 1 else 0 } := by
    rw [Heap.live_eq_some]
    exact ⟨by simp [indicator], rfl⟩
  have hiff : add p.offset k = add p.offset j ↔ k = j := by
    constructor
    · intro h
      have hmod : p.offset + k ≡ p.offset + j [MOD modulus] := h
      exact Nat.ModEq.eq_of_lt_of_lt (Nat.ModEq.add_left_cancel' _ hmod) hk hj
    · rintro rfl
      rfl
  have hoffset : (p.add k).offset = add p.offset k := rfl
  rw [Heap.read, Pointer.add_buffer, hlive]
  dsimp only
  rw [hoffset, if_pos (add_lt _ _)]
  simp only [hiff]

theorem logicalOffset_lt (hx : x.recompute T = x) {i : Nat} (hi : i < x.numel) :
    x.logicalOffset i < SizeT.modulus := by
  rw [logicalOffset]
  split
  · exact lt_trans hi (numel_lt hx)
  · exact (stridedOffset_eq (count_ne_zero hx (by omega))).1

/-- Reductions of an expression have those of its values. A tensor's have those of its elements,
whatever these are, exactly if the elements lie at the offsets below their number. -/
theorem reductions_iff (hx : x.Reducible T) (max : ℚ) :
    (∀ (e : Expression ℚ) h v, (∀ i < e.size, e.evaluate h i = .ok (v i)) →
      Sees max e.size v (e.accumulate T h) (e.hmin T max h) (e.hmax T max h)) ∧
    ((∀ h v, (∀ i < x.numel, x.elementAt h i = .ok (v i)) →
        Sees max x.numel v (x.accumulate T h) (x.hmin T max h) (x.hmax T max h)) ↔
      ∀ j < x.numel, ∃ i < x.numel, x.logicalOffset i = j) := by
  refine ⟨fun e h v hv ↦ ⟨?_, e.reduce_ok hv, e.reduce_ok hv⟩, fun hsees j hj ↦ ?_,
    fun honto h v hv ↦ ?_⟩
  · rw [← accumulateReduction_total]
    exact e.reduce_ok hv
  · by_contra hno
    have hjlt := lt_trans hj (numel_lt hx.cached)
    obtain ⟨p, hp⟩ := Option.isSome_iff_exists.mp (hx.data (by omega))
    let h := indicator p.buffer (add p.offset j)
    have hlogical : ∀ i < x.numel, x.elementAt h i = .ok 0 := by
      intro i hi
      rw [elementAt, readAt, hp]
      dsimp only
      rw [read_indicator hjlt (logicalOffset_lt hx.cached hi), if_neg (fun heq ↦ hno ⟨i, hi, heq⟩)]
    have hflat : ∀ i < x.numel, x.readAt h i = .ok (if i = j then 1 else 0) := by
      intro i hi
      rw [readAt, hp]
      exact read_indicator hjlt (lt_trans hi (numel_lt hx.cached))
    have hzero := (hsees h (fun _ ↦ 0) hlogical).sum
    rw [accumulate, hx.reduce_ok hflat, accumulateReduction_total] at hzero
    have hone : ((range x.numel).map fun i ↦ if i = j then (1 : ℚ) else 0).sum = 1 := by
      rw [sum_map_ite_eq]
      simp [hj]
    rw [hone] at hzero
    simp at hzero
  · obtain ⟨index, hindex, hperm⟩ := exists_perm honto
    have hread : ∀ j < x.numel, x.readAt h j = .ok (v (index j)) := by
      intro j hj
      obtain ⟨hlt, hoff⟩ := hindex j hj
      rw [← hv _ hlt, elementAt, hoff]
    have htotal (r : Reduction ℚ) : x.reduce T h r = .ok (r.total ((range x.numel).map v)) := by
      rw [hx.reduce_ok hread, ← r.total_perm (hperm.map v), map_map]
      rfl
    refine ⟨?_, htotal _, htotal _⟩
    rw [← accumulateReduction_total]
    exact htotal _

/-- Doubles in registers of four, with four registers at a time. -/
def fourLanes : SimdTarget where
  vectorized := true
  scalarSize := 8
  simdAlignSize := 4
  length := 4
  alignmentSize := 32
  memoryAlignmentSize := 8
  packet := 4
  scalarSize_pow := scalarTarget.scalarSize_pow
  simdAlignSize_pow := ⟨2, rfl⟩
  length_pos := by decide
  simdAlign_dvd_length := by decide
  one_lt_alignmentSize := by decide
  simdAlign_dvd_memoryAlignment := by decide
  packet_pos := by decide

/-- The transpose of a `2 × 3` matrix. -/
def transposedMatrix : Tensor := recompute fourLanes
  { sizesAndStrides := (matrixSas 2 3).reverse
    view := .borrow fourLanes (some ⟨0, 0, 0⟩) 6 {} }

/-- It is not contiguous, but its elements are the six in storage. -/
theorem transposedMatrix_reduced : transposedMatrix.contiguous = false ∧
    ∀ h v, (∀ i < transposedMatrix.numel, transposedMatrix.elementAt h i = .ok (v i)) →
      Sees 100 transposedMatrix.numel v (transposedMatrix.accumulate fourLanes h)
        (transposedMatrix.hmin fourLanes 100 h) (transposedMatrix.hmax fourLanes 100 h) := by
  have hx : transposedMatrix.Reducible fourLanes := ⟨rfl, recompute_recompute, fun _ ↦ rfl⟩
  exact ⟨rfl, (reductions_iff hx 100).2.mpr (by decide)⟩

/-- Four numbers of the caller. -/
def fourNumbers : Heap ℚ := ({} : Heap ℚ).insert
  { length := 4, cells := fun i ↦ i + 10, external := true }

/-- Every other one of them is summed to 22, but the first two are added. -/
theorem everyOther_not_seen : ∃ x, (borrowSize fourLanes {} (some ⟨0, 0, 0⟩) 4).slice fourLanes 0 0
      (.ofSizeT 4) (.ofSizeT 2) = .ok x ∧ x.Reducible fourLanes ∧ x.numel = 2 ∧
    (∀ i < 2, x.elementAt fourNumbers i = .ok (2 * i + 10)) ∧
    ((List.range 2).map fun i : Nat ↦ (2 * i + 10 : ℚ)).sum = 22 ∧
    x.accumulate fourLanes fourNumbers = .ok 21 := by
  let x : Tensor := recompute fourLanes
    { sizesAndStrides := [⟨.ofSizeT 2, .ofSizeT 2⟩]
      view := .borrow fourLanes (some ⟨0, 0, 0⟩) 4 {} }
  have hx : x.Reducible fourLanes := ⟨rfl, recompute_recompute, fun _ ↦ rfl⟩
  have hcell (i : Nat) (hi : i < 4) : x.readAt fourNumbers i = .ok ((i : ℚ) + 10) := by
    interval_cases i
    all_goals rfl
  refine ⟨x, rfl, hx, rfl, fun i hi ↦ ?_, by norm_num [range_succ], ?_⟩
  · have hoff : x.logicalOffset i = 2 * i := by
      interval_cases i
      all_goals rfl
    rw [elementAt, hoff, hcell _ (by omega)]
    push_cast
    rfl
  · rw [accumulate, hx.reduce_ok (fun j hj ↦ hcell j (by
      change j < 2 at hj
      omega)), accumulateReduction_total]
    change Except.ok (((range 2).map fun i : Nat ↦ (i : ℚ) + 10).sum) = _
    norm_num [range_succ]

end Tensor

end Hisab.Vectorization
