import Hisab.Base.Fallible
import Hisab.Base.TransitionSystem
import Hisab.Vectorization.Tensor

/-!
# Programs over tensors

The tensors of a program by name and the storage they share, and the operations that make,
copy, move, view and destroy them one after another. The names in scope of a statement
include those of its temporaries.
-/

namespace Hisab.Vectorization

open Hisab.Base

variable {α : Type}

/-- The constructors that take a shape. The others (`tensor.h:322–361`, `388–429`, `604–623`) fill a
tensor that one of these has made. -/
inductive Construct (α : Type)
  | empty
  | vector (n : Nat) (placement : Placement) (origin : Nat) (fresh : Nat → α)
  | borrowVector (ptr : Option Pointer) (n : Nat) (placement : Placement)
  | matrix (rows cols : Nat) (placement : Placement) (origin : Nat) (fresh : Nat → α)
  | borrowMatrix (ptr : Option Pointer) (rows cols : Nat) (placement : Placement)
  | tensor (dims : List Nat) (placement : Placement) (origin : Nat) (fresh : Nat → α)
  | borrowTensor (data : Option Pointer) (dims : List Nat) (placement : Placement)

def Construct.run (T : SimdTarget) (h : Heap α) : Construct α → Except TensorError (Tensor × Heap α)
  | .empty => .ok (Tensor.recompute T {}, h)
  | .vector n placement origin fresh => .ok (Tensor.ofSize T h placement origin fresh n)
  | .borrowVector ptr n placement => .ok (Tensor.borrowSize T placement ptr n, h)
  | .matrix rows cols placement origin fresh =>
    .ok (Tensor.ofRowsCols T h placement origin fresh rows cols)
  | .borrowMatrix ptr rows cols placement =>
    .ok (Tensor.borrowRowsCols T placement ptr rows cols, h)
  | .tensor dims placement origin fresh => Tensor.ofDims T h placement origin fresh dims
  | .borrowTensor data dims placement => do
    return (← Tensor.borrowDims T placement data dims, h)

/-- The operations that return a view. -/
inductive ViewOp
  | t
  | permute (order : List Nat)
  | view (newDims : List Nat)
  | reshape (newDims : List Nat)
  | slice (dim : Nat) (start stop step : I64)

def ViewOp.run (T : SimdTarget) (x : Tensor) : ViewOp → Except TensorError Tensor
  | .t => x.t T
  | .permute order => x.permute T order
  | .view newDims => x.viewAs T newDims
  | .reshape newDims => x.reshape T newDims
  | .slice dim start stop step => x.slice T dim start stop step

/-- The operations that return a packed tensor. -/
inductive PackOp
  | clone
  | contiguous
  | toCpu

def PackOp.run (T : SimdTarget) (h : Heap α) (origin : Nat) (fresh : Nat → α) (x : Tensor) :
    PackOp → Except TensorError (Tensor × Heap α)
  | .clone => x.clone T h origin fresh
  | .contiguous => x.contiguousCopy T h origin fresh
  | .toCpu => x.toCpu T h origin fresh

/-- An operation of a program; the first tensor named is made or changed. -/
inductive TensorOp (α : Type)
  /-- The caller has memory of its own. -/
  | foreign (length : Nat) (cells : Nat → α)
  | construct (x : Nat) (c : Construct α)
  | copy (x y : Nat) (origin : Nat) (fresh : Nat → α)
  | move (x y : Nat)
  | copyAssign (x y : Nat) (origin : Nat) (fresh : Nat → α)
  | moveAssign (x y : Nat)
  | view (x y : Nat) (op : ViewOp)
  | pack (x y : Nat) (op : PackOp) (origin : Nat) (fresh : Nat → α)
  | write (x i : Nat) (v : α)
  | destroy (x : Nat)

/-- The tensors in scope and the storage. -/
structure TensorState (α : Type) where
  heap : Heap α := {}
  tensors : Nat → Option Tensor := fun _ ↦ none

namespace TensorState

/-- The tensor of a name in scope. -/
def get (s : TensorState α) (x : Nat) : Except TensorError Tensor :=
  match s.tensors x with
  | some t => .ok t
  | none => .error .undefined

def set (s : TensorState α) (x : Nat) (t : Tensor) (h : Heap α) : TensorState α :=
  { heap := h, tensors := Function.update s.tensors x (some t) }

/-- A tensor gets a new name. -/
def declare (s : TensorState α) (x : Nat) (made : Tensor × Heap α) :
    Except TensorError (TensorState α) :=
  match s.tensors x with
  | some _ => .error .undefined
  | none => .ok (s.set x made.1 made.2)

/-- One operation. -/
def run (T : SimdTarget) (s : TensorState α) : TensorOp α → Except TensorError (TensorState α)
  | .foreign length cells =>
    .ok { s with heap := s.heap.insert { length, cells, external := true } }
  | .construct x c => do s.declare x (← c.run T s.heap)
  | .copy x y origin fresh => do s.declare x (← (← s.get y).copy T s.heap origin fresh)
  | .move x y => do
    let s' ← s.declare x (← s.get y, s.heap)
    return s'.set y .movedFrom s.heap
  | .copyAssign x y origin fresh => do
    let t ← s.get x
    let rhs ← s.get y
    if x = y then return s
    else
      let made ← t.copyAssign T s.heap origin fresh rhs
      return s.set x made.1 made.2
  | .moveAssign x y => do
    let t ← s.get x
    let rhs ← s.get y
    if x = y then return s
    else
      let (t, rhs, h) := t.moveAssign s.heap rhs
      return (s.set x t h).set y rhs h
  | .view x y op => do s.declare x (← op.run T (← s.get y), s.heap)
  | .pack x y op origin fresh => do s.declare x (← op.run T s.heap origin fresh (← s.get y))
  | .write x i v => do return { s with heap := ← (← s.get x).write s.heap i v }
  | .destroy x => do
    let t ← s.get x
    return { heap := t.destroy s.heap, tensors := Function.update s.tensors x none }

end TensorState

/-- The programs over tensors. -/
def tensorPrograms (α : Type) (T : SimdTarget) : TransitionSystem (TensorState α) (TensorOp α) where
  init s := s = {}
  step s op s' := s.run T op = .ok s'

end Hisab.Vectorization

/-!
## The effects of operations

What an operation of a program over tensors has done when it succeeds.
-/

namespace Hisab.Vectorization

open Hisab.Base

variable {α : Type} {T : SimdTarget} {s s' : TensorState α} {op : TensorOp α} {x y : Nat}
  {t : Tensor} {h : Heap α}

/-- The state after an operation. -/
inductive Effect (T : SimdTarget) (s : TensorState α) : TensorOp α → TensorState α → Prop
  | foreign {length : Nat} {cells : Nat → α} : Effect T s (.foreign length cells)
      { s with heap := s.heap.insert { length, cells, external := true } }
  | construct {x : Nat} {c : Construct α} {t : Tensor} {h : Heap α} (hx : s.tensors x = none)
      (hmade : c.run T s.heap = .ok (t, h)) : Effect T s (.construct x c) (s.set x t h)
  | copy {x y origin : Nat} {fresh : Nat → α} {rhs t : Tensor} {h : Heap α}
      (hx : s.tensors x = none) (hy : s.tensors y = some rhs)
      (hmade : rhs.copy T s.heap origin fresh = .ok (t, h)) :
      Effect T s (.copy x y origin fresh) (s.set x t h)
  | move {x y : Nat} {rhs : Tensor} (hx : s.tensors x = none) (hy : s.tensors y = some rhs) :
      Effect T s (.move x y) ((s.set x rhs s.heap).set y .movedFrom s.heap)
  | copyAssignSelf {x origin : Nat} {fresh : Nat → α} {t : Tensor} (hx : s.tensors x = some t) :
      Effect T s (.copyAssign x x origin fresh) s
  | copyAssign {x y origin : Nat} {fresh : Nat → α} {t rhs t' : Tensor} {h : Heap α}
      (hx : s.tensors x = some t) (hy : s.tensors y = some rhs) (hne : x ≠ y)
      (hmade : t.copyAssign T s.heap origin fresh rhs = .ok (t', h)) :
      Effect T s (.copyAssign x y origin fresh) (s.set x t' h)
  | moveAssignSelf {x : Nat} {t : Tensor} (hx : s.tensors x = some t) :
      Effect T s (.moveAssign x x) s
  | moveAssign {x y : Nat} {t rhs : Tensor} (hx : s.tensors x = some t)
      (hy : s.tensors y = some rhs) (hne : x ≠ y) : Effect T s (.moveAssign x y)
        ((s.set x rhs (DataPtr.releaseOwned s.heap t.owner)).set y .movedFrom
          (DataPtr.releaseOwned s.heap t.owner))
  | view {x y : Nat} {v : ViewOp} {rhs t : Tensor} (hx : s.tensors x = none)
      (hy : s.tensors y = some rhs) (hmade : v.run T rhs = .ok t) :
      Effect T s (.view x y v) (s.set x t s.heap)
  | pack {x y origin : Nat} {p : PackOp} {fresh : Nat → α} {rhs t : Tensor} {h : Heap α}
      (hx : s.tensors x = none) (hy : s.tensors y = some rhs)
      (hmade : p.run T s.heap origin fresh rhs = .ok (t, h)) :
      Effect T s (.pack x y p origin fresh) (s.set x t h)
  | write {x i : Nat} {v : α} {t : Tensor} {h : Heap α} (hx : s.tensors x = some t)
      (hmade : t.write s.heap i v = .ok h) : Effect T s (.write x i v) { s with heap := h }
  | destroy {x : Nat} {t : Tensor} (hx : s.tensors x = some t) : Effect T s (.destroy x)
      { heap := DataPtr.releaseOwned s.heap t.owner, tensors := Function.update s.tensors x none }

theorem get_eq_ok : s.get x = .ok t ↔ s.tensors x = some t := by
  unfold TensorState.get
  cases s.tensors x with
  | none => exact iff_of_false nofun fun h ↦ by cases h
  | some t' => rw [Except.ok.injEq, Option.some.injEq]

theorem declare_eq_ok {made : Tensor × Heap α} :
    s.declare x made = .ok s' ↔ s.tensors x = none ∧ s' = s.set x made.1 made.2 := by
  unfold TensorState.declare
  cases s.tensors x with
  | none => exact ⟨fun h ↦ by cases h; exact ⟨rfl, rfl⟩, fun h ↦ by rw [h.2]⟩
  | some t' => exact iff_of_false (fun h ↦ by cases h) fun h ↦ by cases h.1

/-- An operation that succeeds has its effect. -/
theorem effect_of_run (hrun : s.run T op = .ok s') : Effect T s op s' := by
  cases op with
  | foreign length cells =>
    cases hrun
    exact .foreign
  | construct x c =>
    obtain ⟨⟨t, h⟩, hmade, hrun⟩ := bind_eq_ok.mp hrun
    obtain ⟨hx, rfl⟩ := declare_eq_ok.mp hrun
    exact .construct hx hmade
  | copy x y origin fresh =>
    obtain ⟨rhs, hy, hrun⟩ := bind_eq_ok.mp hrun
    obtain ⟨⟨t, h⟩, hmade, hrun⟩ := bind_eq_ok.mp hrun
    obtain ⟨hx, rfl⟩ := declare_eq_ok.mp hrun
    exact .copy hx (get_eq_ok.mp hy) hmade
  | move x y =>
    obtain ⟨rhs, hy, hrun⟩ := bind_eq_ok.mp hrun
    obtain ⟨s₁, hs₁, hrun⟩ := bind_eq_ok.mp hrun
    obtain ⟨hx, rfl⟩ := declare_eq_ok.mp hs₁
    cases pure_eq_ok.mp hrun
    exact .move hx (get_eq_ok.mp hy)
  | copyAssign x y origin fresh =>
    obtain ⟨t, hx, hrun⟩ := bind_eq_ok.mp hrun
    obtain ⟨rhs, hy, hrun⟩ := bind_eq_ok.mp hrun
    split at hrun
    next heq =>
      cases pure_eq_ok.mp hrun
      subst heq
      exact .copyAssignSelf (get_eq_ok.mp hx)
    next hne =>
      obtain ⟨⟨t', h⟩, hmade, hrun⟩ := bind_eq_ok.mp hrun
      cases pure_eq_ok.mp hrun
      exact .copyAssign (get_eq_ok.mp hx) (get_eq_ok.mp hy) hne hmade
  | moveAssign x y =>
    obtain ⟨t, hx, hrun⟩ := bind_eq_ok.mp hrun
    obtain ⟨rhs, hy, hrun⟩ := bind_eq_ok.mp hrun
    split at hrun
    next heq =>
      cases pure_eq_ok.mp hrun
      subst heq
      exact .moveAssignSelf (get_eq_ok.mp hx)
    next hne =>
      cases pure_eq_ok.mp hrun
      exact .moveAssign (get_eq_ok.mp hx) (get_eq_ok.mp hy) hne
  | view x y v =>
    obtain ⟨rhs, hy, hrun⟩ := bind_eq_ok.mp hrun
    obtain ⟨t, hmade, hrun⟩ := bind_eq_ok.mp hrun
    obtain ⟨hx, rfl⟩ := declare_eq_ok.mp hrun
    exact .view hx (get_eq_ok.mp hy) hmade
  | pack x y p origin fresh =>
    obtain ⟨rhs, hy, hrun⟩ := bind_eq_ok.mp hrun
    obtain ⟨⟨t, h⟩, hmade, hrun⟩ := bind_eq_ok.mp hrun
    obtain ⟨hx, rfl⟩ := declare_eq_ok.mp hrun
    exact .pack hx (get_eq_ok.mp hy) hmade
  | write x i v =>
    obtain ⟨t, hx, hrun⟩ := bind_eq_ok.mp hrun
    obtain ⟨h, hmade, hrun⟩ := bind_eq_ok.mp hrun
    cases pure_eq_ok.mp hrun
    exact .write (get_eq_ok.mp hx) hmade
  | destroy x =>
    obtain ⟨t, hx, hrun⟩ := bind_eq_ok.mp hrun
    cases pure_eq_ok.mp hrun
    exact .destroy (get_eq_ok.mp hx)

/-- A build of single elements. -/
def scalarTarget : SimdTarget where
  vectorized := false
  scalarSize := 8
  simdAlignSize := 1
  length := 1
  alignmentSize := 8
  memoryAlignmentSize := 8
  packet := 1
  scalarSize_pow := ⟨3, rfl⟩
  simdAlignSize_pow := ⟨0, rfl⟩
  length_pos := Nat.one_pos
  simdAlign_dvd_length := by decide
  one_lt_alignmentSize := by decide
  simdAlign_dvd_memoryAlignment := by decide
  packet_pos := Nat.one_pos

/-- A list of operations that succeed one after another. -/
theorem reachable_of_foldlM (ops : List (TensorOp α)) {P : TensorOp α → Prop}
    (hrun : ops.foldlM (TensorState.run T) ({} : TensorState α) = .ok s)
    (hops : ∀ op ∈ ops, P op) : ((tensorPrograms α T).restrict fun _ op ↦ P op).Reachable s := by
  suffices h : ∀ s₀ : TensorState α, ops.foldlM (TensorState.run T) s₀ = .ok s →
      ((tensorPrograms α T).restrict fun _ op ↦ P op).Run s₀ ops s from ⟨{}, ops, rfl, h _ hrun⟩
  clear hrun
  induction ops with
  | nil =>
    intro s₀ hrun
    cases pure_eq_ok.mp hrun
    exact .nil _
  | cons op ops ih =>
    intro s₀ hrun
    rw [List.foldlM_cons, bind_eq_ok] at hrun
    obtain ⟨s₁, hstep, hrest⟩ := hrun
    exact .cons ⟨hstep, hops op (List.mem_cons_self ..)⟩
      (ih (fun op' hop ↦ hops op' (List.mem_cons_of_mem _ hop)) s₁ hrest)

namespace TensorState

variable {P : Tensor → Prop}

/-- Every tensor in scope is one of these. -/
def All (P : Tensor → Prop) (s : TensorState α) : Prop := ∀ x t, s.tensors x = some t → P t

theorem All.set (hs : s.All P) (ht : P t) : (s.set x t h).All P := by
  intro z t' hz
  rw [TensorState.set] at hz
  dsimp only at hz
  by_cases heq : z = x
  · subst heq
    rw [Function.update_self] at hz
    cases hz
    exact ht
  · rw [Function.update_of_ne heq] at hz
    exact hs z t' hz

theorem All.erase (hs : s.All P) :
    TensorState.All P { heap := h, tensors := Function.update s.tensors x none } := by
  intro z t' hz
  dsimp only at hz
  by_cases heq : z = x
  · subst heq
    rw [Function.update_self] at hz
    cases hz
  · rw [Function.update_of_ne heq] at hz
    exact hs z t' hz

end TensorState

end Hisab.Vectorization
