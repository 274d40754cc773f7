import Hisab.Base.ThreadTable
import Hisab.Base.TransitionSystem
import Hisab.Core.TargetCounts

/-!
# Intrusive pointers

`intrusive_ptr` and `weak_intrusive_ptr` of `Library/Core/common/intrusive_ptr.h`, one atomic step
at a time. A thread has its variables of either kind, each with the target that it points to, and
the calls that it is in, the innermost first. Targets are numbered in the order of their making. A
pointer that is being reset belongs to the call; what `release_resources` and a destructor call are
further calls of the same thread.
-/

namespace Hisab.Core

open Base Function

/-- `intrusive_ptr` or `weak_intrusive_ptr`. -/
inductive Kind
  | strong
  | weak
  deriving DecidableEq, Repr

def Kind.role : Kind → Role
  | .strong => .strong
  | .weak => .weak

/-- What the copy of a handle adds to the word (`retain_`). -/
def Kind.one : Kind → Nat
  | .strong => kReferenceCountOne
  | .weak => kWeakReferenceCountOne

/-- Where a call is: in `reset_` of a strong pointer (`intrusive_ptr.h:339–381`) before the load,
before the store of zero, before the decrement, before `release_resources`, in it or before the
weak decrement, or before the target is deleted; in `reset_` of a weak pointer
(`intrusive_ptr.h:787–796`); in `lock` (`intrusive_ptr.h:938–963`) of a variable before the load, or
before the exchange, with what was loaded. -/
inductive Pending
  | load (x : Nat)
  | storeZero (x : Nat)
  | decrement (x : Nat)
  | releaseResources (x : Nat)
  | weakDecrement (x : Nat)
  | delete (x : Nat) (counted : Bool)
  | weakReset (x : Nat)
  | lockLoad (i : Nat)
  | lockExchange (i : Nat) (expected : Nat) (h : refcount expected ≠ 0)

/-- The handle that a call has, or the count that it answers for. -/
def Pending.share : Pending → Option (Role × Nat)
  | .load x => some (.strong, x)
  | .storeZero x => some (.unique, x)
  | .decrement x => some (.strong, x)
  | .releaseResources x => some (.releasing, x)
  | .weakDecrement x => some (.dropping, x)
  | .delete x counted => some (if counted then .deletingCounted else .deleting, x)
  | .weakReset x => some (.weak, x)
  | .lockLoad _ | .lockExchange .. => none

/-- The variables and the calls of a thread; no target is `NullType::singleton()`. -/
structure Thread where
  handles : Kind → List (Option Nat) := fun _ ↦ []
  pending : List Pending := []

/-- The threads, and of each target the word, whether and how often it was deleted and its resources
were released, and the number of weak handles as its last strong handle was dropped. The last three
are not in the source. -/
structure PtrState where
  threads : Nat → Thread := fun _ ↦ {}
  made : Nat := 0
  word : Nat → Nat := fun _ ↦ 0
  deleted : Nat → Nat := fun _ ↦ 0
  released : Nat → Nat := fun _ ↦ 0
  weakAtDrop : Nat → Option Nat := fun _ ↦ none

/-- What a thread can do with its variables, named by their kind and index, and a step of the call
that it is in. An exchange may fail spuriously. A handle is given to another thread by a move. -/
inductive PtrOp
  | make
  | null (kind : Kind)
  | copy (kind : Kind) (j : Nat)
  | move (kind : Kind) (j : Nat)
  | copyAssign (kind : Kind) (i j : Nat)
  | moveAssign (kind : Kind) (i j : Nat)
  | reset (kind : Kind) (i : Nat)
  | weaken (j : Nat)
  | weakAssign (i j : Nat)
  | lock (j : Nat)
  | give (kind : Kind) (j : Nat) (receiver : Nat)
  | step (spurious : Bool)

namespace Thread

/-- What the variables and the calls of a thread stand for. -/
def shares (t : Thread) : List (Role × Nat) :=
  (t.handles .strong).filterMap (Option.map (Role.strong, ·)) ++
    (t.handles .weak).filterMap (Option.map (Role.weak, ·)) ++ t.pending.filterMap Pending.share

/-- A new variable. -/
def push (t : Thread) (kind : Kind) (v : Option Nat) : Thread :=
  { t with handles := update t.handles kind (t.handles kind ++ [v]) }

/-- The old value of a variable that is there, and the thread with the new one. -/
def exchange (t : Thread) (kind : Kind) (i : Nat) (v : Option Nat) : Option (Option Nat × Thread) :=
  match (t.handles kind)[i]? with
  | none => none
  | some old => some (old, { t with
      handles := update t.handles kind ((t.handles kind).set i v) })

/-- The call of `reset_` on a pointer that is no longer a variable. -/
def drop (t : Thread) : Kind → Option Nat → Thread
  | _, none => t
  | .strong, some x => { t with pending := .load x :: t.pending }
  | .weak, some x => { t with pending := .weakReset x :: t.pending }

/-- A thread can call while it is in no call, or in one that is in code of the target:
`release_resources` or the destructor. -/
def mayCall (t : Thread) : Bool :=
  match t.pending with
  | [] | .weakDecrement _ :: _ | .delete .. :: _ => true
  | _ => false

end Thread

namespace PtrState

variable (n : Nat) (s : PtrState)

def setThread (i : Nat) (t : Thread) : PtrState := { s with threads := update s.threads i t }

def setWord (x w : Nat) : PtrState := { s with word := update s.word x w }

/-- The handles and calls of all threads. -/
def shares : List (Role × Nat) := held Thread.shares n s.threads

/-- The target as seen by who knows all its handles. -/
def counts (x : Nat) : Counts where
  strong := (s.shares n).count (.strong, x)
  unique := (s.shares n).count (.unique, x)
  weak := (s.shares n).count (.weak, x)
  releasing := (s.shares n).count (.releasing, x)
  dropping := (s.shares n).count (.dropping, x)
  deleting := (s.shares n).count (.deleting, x)
  deletingCounted := (s.shares n).count (.deletingCounted, x)
  word := s.word x
  deleted := s.deleted x
  released := s.released x
  weakAtDrop := s.weakAtDrop x

/-- `retain_` of a pointer to a target. -/
def retain (kind : Kind) : Option Nat → PtrState
  | none => s
  | some x => s.setWord x (SizeT.add (s.word x) kind.one)

/-- The last strong handle of a target is dropped. -/
def setWeakAtDrop (x : Nat) : PtrState :=
  { s with weakAtDrop := update s.weakAtDrop x (some (s.counts n x).weak) }

/-- A step of the innermost call. -/
def stepCall (i : Nat) (t : Thread) (spurious : Bool) : Option PtrState :=
  match t.pending with
  | [] => none
  | .load x :: calls =>
    if s.word x = kUniqueRef then some (s.setThread i { t with pending := .storeZero x :: calls })
    else some (s.setThread i { t with pending := .decrement x :: calls })
  | .storeZero x :: calls =>
    some (((s.setWeakAtDrop n x).setWord x 0).setThread i
      { t with pending := .delete x false :: calls })
  | .decrement x :: calls =>
    let word := SizeT.sub (s.word x) kReferenceCountOne
    if refcount word = 0 then
      some (((s.setWeakAtDrop n x).setWord x word).setThread i { t with
        pending := (if word = kWeakReferenceCountOne then .delete x true
          else .releaseResources x) :: calls })
    else some ((s.setWord x word).setThread i { t with pending := calls })
  | .releaseResources x :: calls =>
    some ({ s with released := update s.released x (s.released x + 1) }.setThread i
      { t with pending := .weakDecrement x :: calls })
  | .weakDecrement x :: calls | .weakReset x :: calls =>
    let word := SizeT.sub (s.word x) kWeakReferenceCountOne
    if weakcount word = 0 then
      some ((s.setWord x word).setThread i { t with pending := .delete x false :: calls })
    else some ((s.setWord x word).setThread i { t with pending := calls })
  | .delete x _ :: calls =>
    some ({ s with deleted := update s.deleted x (s.deleted x + 1) }.setThread i
      { t with pending := calls })
  | .lockLoad j :: calls =>
    match (t.handles .weak)[j]? with
    | some (some x) =>
      if h : refcount (s.word x) ≠ 0 then
        some (s.setThread i { t with pending := .lockExchange j (s.word x) h :: calls })
      else some (s.setThread i ({ t with pending := calls }.push .strong none))
    | _ => none
  | .lockExchange j expected _ :: calls =>
    match (t.handles .weak)[j]? with
    | some (some x) =>
      if s.word x = expected ∧ spurious = false then
        some ((s.setWord x (SizeT.add expected kReferenceCountOne)).setThread i
          ({ t with pending := calls }.push .strong (some x)))
      else if h : refcount (s.word x) ≠ 0 then
        some (s.setThread i { t with pending := .lockExchange j (s.word x) h :: calls })
      else some (s.setThread i ({ t with pending := calls }.push .strong none))
    | _ => none

/-- A call of a thread, up to its first atomic step. -/
def call (i : Nat) (t : Thread) : PtrOp → Option PtrState
  -- The constructor stores the counts of the first handle (`intrusive_ptr.h:383–401`).
  | .make => some ({ s.setWord s.made kUniqueRef with made := s.made + 1 }.setThread i
      (t.push .strong (some s.made)))
  | .null kind => some (s.setThread i (t.push kind none))
  | .copy kind j => do
    let v ← (t.handles kind)[j]?
    return (s.retain kind v).setThread i (t.push kind v)
  | .move kind j => do
    let (v, t) ← t.exchange kind j none
    return s.setThread i (t.push kind v)
  -- The assignments copy or move, swap and drop the old value (`intrusive_ptr.h:463–498`). The
  -- copy of a weak pointer to itself is left out (`intrusive_ptr.h:855–863`).
  | .copyAssign kind k j =>
    if kind = .weak ∧ k = j then some s
    else do
      let v ← (t.handles kind)[j]?
      let (old, t) ← t.exchange kind k v
      return (s.retain kind v).setThread i (t.drop kind old)
  | .moveAssign kind k j => do
    let (v, t) ← t.exchange kind j none
    let (old, t) ← t.exchange kind k v
    return s.setThread i (t.drop kind old)
  | .reset kind k => do
    let (old, t) ← t.exchange kind k none
    return s.setThread i (t.drop kind old)
  | .weaken j => do
    let v ← (t.handles .strong)[j]?
    return (s.retain .weak v).setThread i (t.push .weak v)
  | .weakAssign k j => do
    let v ← (t.handles .strong)[j]?
    let (old, t) ← t.exchange .weak k v
    return (s.retain .weak v).setThread i (t.drop .weak old)
  | .lock j => do
    let v ← (t.handles .weak)[j]?
    match v with
    | none => return s.setThread i (t.push .strong none)
    | some _ => return s.setThread i { t with pending := .lockLoad j :: t.pending }
  | .give kind j receiver =>
    if receiver < n then do
      let (v, t) ← t.exchange kind j none
      let s := s.setThread i t
      return s.setThread receiver ((s.threads receiver).push kind v)
    else none
  | .step _ => none

def next : Nat × PtrOp → Option PtrState
  | (i, op) =>
    if i < n then
      match op with
      | .step spurious => s.stepCall n i (s.threads i) spurious
      | op => if (s.threads i).mayCall then s.call n i (s.threads i) op else none
    else none

end PtrState

/-- The `n` threads with their calls in every order of their steps. -/
def intrusivePtrs (n : Nat) : TransitionSystem PtrState (Nat × PtrOp) where
  init s := s = {}
  step s l s' := s.next n l = some s'

end Hisab.Core
