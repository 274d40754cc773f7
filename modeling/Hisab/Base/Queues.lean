import Hisab.Base.TransitionSystem

/-!
# First in, first out

A queue with its two operations as a transition system: an element is added behind the
others, or the front is asked for, with an answer that is empty only if the queue is. What
has been added is what has been taken followed by what is still there.
-/

namespace Hisab.Base

universe u

variable {A : Type u}

/-- One operation of a queue with its argument or its answer. -/
inductive FifoEvent (A : Type u)
  | enqueue (x : A)
  | dequeue (answer : Option A)
deriving Repr, DecidableEq

/-- The effect of an operation on the elements of the queue. -/
def fifoStep (q : List A) (e : FifoEvent A) (q' : List A) : Prop :=
  match e with
  | .enqueue x => q' = q ++ [x]
  | .dequeue (some x) => q = x :: q'
  | .dequeue none => q = [] ∧ q' = []

/-- The queue, empty at first. -/
def fifo (A : Type u) : TransitionSystem (List A) (FifoEvent A) where
  init q := q = []
  step := fifoStep

/-- The elements that the operations have added. -/
def enqueued (es : List (FifoEvent A)) : List A :=
  es.filterMap fun
    | .enqueue x => some x
    | .dequeue _ => none

/-- The elements that the operations have taken. -/
def dequeued (es : List (FifoEvent A)) : List A :=
  es.filterMap fun
    | .enqueue _ => none
    | .dequeue answer => answer

@[simp] theorem enqueued_nil : enqueued ([] : List (FifoEvent A)) = [] := rfl

@[simp] theorem dequeued_nil : dequeued ([] : List (FifoEvent A)) = [] := rfl

@[simp] theorem dequeued_append (es es' : List (FifoEvent A)) :
    dequeued (es ++ es') = dequeued es ++ dequeued es' := List.filterMap_append ..

@[simp] theorem enqueued_enqueue (x : A) : enqueued [FifoEvent.enqueue x] = [x] := rfl

@[simp] theorem dequeued_enqueue (x : A) : dequeued [FifoEvent.enqueue x] = [] := rfl

@[simp] theorem enqueued_dequeue (answer : Option A) :
    enqueued [FifoEvent.dequeue answer] = [] := rfl

@[simp] theorem dequeued_dequeue (answer : Option A) :
    dequeued [FifoEvent.dequeue answer] = answer.toList := by
  cases answer <;> rfl

end Hisab.Base

/-!
## Deques with holes and consecutive indices

A deque whose elements carry their index, so that an element is found by the distance of its
index from the index of the front: each element at position `p` has the index of the base
plus `p`. Holes keep the positions of the elements behind them.
-/

namespace Hisab.Base

universe u

variable {A : Type u} {index index' : A → Int} {base : Int} {q q' : List (Option A)}
  {a : Option A} {x : A}

/-- Every element is as far behind `base` as its position says. -/
def Indexed (index : A → Int) (base : Int) (q : List (Option A)) : Prop :=
  ∀ (p : Nat) (x : A), q[p]? = some (some x) → index x = base + p

theorem Indexed.nil : Indexed index base [] := fun _ _ h ↦ nomatch h

theorem indexed_cons : Indexed index base (a :: q) ↔
      (∀ x, a = some x → index x = base) ∧ Indexed index (base + 1) q := by
  constructor
  · intro h
    refine ⟨fun x hx ↦ ?_, fun p x hp ↦ ?_⟩
    · have := h 0 x (congrArg some hx)
      omega
    · have := h (p + 1) x hp
      omega
  · rintro ⟨ha, hq⟩ p x hp
    cases p with
    | zero =>
      have := ha x (Option.some.inj hp)
      omega
    | succ p =>
      have := hq p x hp
      omega

theorem indexed_append :
    Indexed index base (q ++ q') ↔ Indexed index base q ∧ Indexed index (base + q.length) q' := by
  induction q generalizing base with
  | nil => simp [Indexed.nil]
  | cons a q ih =>
    have hbase : base + 1 + q.length = base + (q.length + 1 : Nat) := by omega
    rw [List.cons_append, indexed_cons, indexed_cons, ih, List.length_cons, hbase, and_assoc]

/-- A hole leaves the other elements where they are. -/
theorem Indexed.set_none (h : Indexed index base q) (i : Nat) :
    Indexed index base (q.set i none) := by
  intro p x hp
  rw [List.getElem?_set] at hp
  split at hp
  · split at hp <;> cases hp
  · exact h p x hp

/-- Only the indices of the elements of the deque matter. -/
theorem Indexed.congr (h : Indexed index base q)
    (heq : ∀ x, some x ∈ q → index' x = index x) : Indexed index' base q := fun p x hp ↦
  (heq x (List.mem_of_getElem? hp)).trans (h p x hp)

/-- The last element is one position before the end. -/
theorem Indexed.getLast (h : Indexed index base q) (hx : q.getLast? = some (some x)) :
    index x + 1 = base + q.length := by
  rw [List.getLast?_eq_getElem?] at hx
  have hpos : 0 < q.length := by
    by_contra hlen
    simp [List.length_eq_zero_iff.mp (Nat.eq_zero_of_not_pos hlen)] at hx
  have := h _ x hx
  omega

end Hisab.Base
