import Hisab.Graph.GraphBuilder

/-!
# The keyed graph builder

`keyed_graph_builder.h`: a key is resolved to a node by calling its resolver, whose own calls
of `resolve` become the node's edges. Resolvers are arbitrary callbacks. One is given by its
program points: at each point it either returns, throws, or calls `ctx.resolve` and goes on
with the reply; what it reads of the builder and of the state it shares with others is
explicit. An exception of a nested call passes through the resolvers above it.

Runs carry, besides what the code computes, a record of the resolvers called and of the
replies to their own `ctx.resolve` calls. The code keeps no such record and no step reads it.
-/

namespace Hisab.Graph

/-- The status and the `out` argument a `resolve` call leaves with its caller. -/
structure Reply where
  status : GraphStatus
  out : Nat
deriving Repr, DecidableEq

/-- `keyed_graph_builder<Key>` (`keyed_graph_builder.h:260–263`). The keys in progress are
listed innermost first, and so are the frames. -/
structure KeyedGraphBuilder (Key α : Type) where
  builder : GraphBuilder α := {}
  resolved : Key → Option Nat := fun _ ↦ none
  inProgress : List Key := []
  frameStack : List (List Nat) := []

/-- What a resolver does next: return, throw, or resolve a key with some resolver `R` and go
on with the reply. `U` is the state the callbacks share. -/
inductive Request (Key α R U P : Type)
  | finish (status : GraphStatus) (name : String) (work : NodeWork α) (user : U)
  | throw (e : Thrown) (user : U)
  | resolve (key : Key) (resolver : R) (user : U) (out : Nat) (k : Reply → U → P)

/-- A family of resolvers: where the resolver `r` starts when it is called on a key, and what
each point does next, given the builder it can query. -/
structure Resolvers (Key α R U P : Type) where
  enter : R → Key → U → P
  next : P → KeyedGraphBuilder Key α → Request Key α R U P

/-- A `ctx.resolve` call that returned to the resolver that made it. -/
structure ResolveCall (Key : Type) where
  key : Key
  out : Nat
  reply : Reply
deriving Repr, DecidableEq

/-- One call of a resolver: the keys in progress around it, its own `ctx.resolve` calls, how
it ended and the node it led to. -/
structure Invocation (Key : Type) where
  key : Key
  inProgress : List Key
  calls : List (ResolveCall Key)
  result : Except Thrown GraphStatus
  node : Option Nat

/-- The end of a resolver's body. -/
structure ResolverRun (Key α U : Type) where
  value : Except Thrown (GraphStatus × String × NodeWork α)
  user : U
  ctx : KeyedGraphBuilder Key α
  calls : List (ResolveCall Key)
  invocations : List (Invocation Key)

/-- The end of a `resolve` call. -/
structure ResolveRun (Key α U : Type) where
  value : Except Thrown Reply
  user : U
  ctx : KeyedGraphBuilder Key α
  invocations : List (Invocation Key)

namespace KeyedGraphBuilder

variable {Key α R U P : Type} [DecidableEq Key]

/-- The answer to a key in progress (`keyed_graph_builder.h:101–103`). -/
def resolutionCycle : GraphStatus :=
  .failure .cycleDetected "keyed_graph_builder::resolve(): resolution cycle detected"

/-- `record_in_caller_frame` (`keyed_graph_builder.h:252–258`). -/
def recordInCallerFrame (b : KeyedGraphBuilder Key α) (id : Nat) : KeyedGraphBuilder Key α :=
  match b.frameStack with
  | [] => b
  | frame :: frames => { b with frameStack := (frame ++ [id]) :: frames }

/-- `is_resolved` (`keyed_graph_builder.h:151`). -/
def isResolved (b : KeyedGraphBuilder Key α) (key : Key) : Bool := (b.resolved key).isSome

/-- The bookkeeping before the resolver is called (`keyed_graph_builder.h:106–107`). -/
def beginResolve (b : KeyedGraphBuilder Key α) (key : Key) : KeyedGraphBuilder Key α :=
  { b with inProgress := key :: b.inProgress, frameStack := [] :: b.frameStack }

/-- The bookkeeping after the resolver has returned (`keyed_graph_builder.h:113–115`). -/
def endResolve (b : KeyedGraphBuilder Key α) (key : Key) : KeyedGraphBuilder Key α :=
  { b with inProgress := b.inProgress.erase key, frameStack := b.frameStack.tail }

/-- The node and the edges of a resolved key (`keyed_graph_builder.h:122–127`). -/
def addResolved (b : KeyedGraphBuilder Key α) (key : Key) (name : String) (work : NodeWork α)
    (dependencies : List Nat) : Nat × KeyedGraphBuilder Key α :=
  let (id, builder) := b.builder.addNode name work
  let resolved := if (b.resolved key).isSome then b.resolved
    else Function.update b.resolved key (some id)
  (id, { b with
    builder := dependencies.foldl (fun g d ↦ g.dependsOn id d) builder
    resolved := resolved })

/-- The end of `resolve` once the resolver's body has ended
(`keyed_graph_builder.h:111–131`). An exception leaves the bookkeeping as it is. -/
def concludeResolve (key : Key) (inProgress : List Key) (out : Nat)
    (body : ResolverRun Key α U) : ResolveRun Key α U :=
  match body.value with
  | .error e =>
    { value := .error e
      user := body.user
      ctx := body.ctx
      invocations := body.invocations ++ [⟨key, inProgress, body.calls, .error e, none⟩] }
  | .ok (status, name, work) =>
    let dependencies := body.ctx.frameStack.headD []
    let ctx := body.ctx.endResolve key
    if status.ok then
      let (id, ctx) := ctx.addResolved key name work dependencies
      { value := .ok ⟨.success, id⟩
        user := body.user
        ctx := ctx.recordInCallerFrame id
        invocations := body.invocations ++ [⟨key, inProgress, body.calls, .ok status, some id⟩] }
    else
      { value := .ok ⟨status, out⟩
        user := body.user
        ctx := ctx
        invocations := body.invocations ++ [⟨key, inProgress, body.calls, .ok status, none⟩] }

/-- `resolve` (`keyed_graph_builder.h:90–132`), with the run of the resolver's body given. -/
def resolveVia (code : Resolvers Key α R U P)
    (run : KeyedGraphBuilder Key α → P → Option (ResolverRun Key α U))
    (b : KeyedGraphBuilder Key α) (key : Key) (resolver : R) (user : U) (out : Nat) :
    Option (ResolveRun Key α U) :=
  match b.resolved key with
  | some id => some ⟨.ok ⟨.success, id⟩, user, b.recordInCallerFrame id, []⟩
  | none =>
    if key ∈ b.inProgress then some ⟨.ok ⟨resolutionCycle, out⟩, user, b, []⟩
    else (run (b.beginResolve key) (code.enter resolver key user)).map
      (concludeResolve key b.inProgress out)

/-- The body of a resolver from a program point on; `none` when `fuel` did not suffice. -/
def runResolver (code : Resolvers Key α R U P) :
    Nat → KeyedGraphBuilder Key α → P → Option (ResolverRun Key α U)
  | 0, _, _ => none
  | fuel + 1, b, p =>
    match code.next p b with
    | .finish status name work user => some ⟨.ok (status, name, work), user, b, [], []⟩
    | .throw e user => some ⟨.error e, user, b, [], []⟩
    | .resolve key resolver user out k =>
      match resolveVia code (runResolver code fuel) b key resolver user out with
      | none => none
      | some call =>
        match call.value with
        | .error e => some ⟨.error e, call.user, call.ctx, [], call.invocations⟩
        | .ok reply =>
          (runResolver code fuel call.ctx (k reply call.user)).map fun rest ↦
            { rest with
              calls := ⟨key, out, reply⟩ :: rest.calls
              invocations := call.invocations ++ rest.invocations }

/-- `resolve` with the resolver's body run on `fuel`. -/
def resolve (code : Resolvers Key α R U P) (fuel : Nat) (b : KeyedGraphBuilder Key α)
    (key : Key) (resolver : R) (user : U) (out : Nat) : Option (ResolveRun Key α U) :=
  resolveVia code (runResolver code fuel) b key resolver user out

/-- `build` (`keyed_graph_builder.h:145`). -/
def build (b : KeyedGraphBuilder Key α) (out : Option (DependencyGraph α)) :
    GraphStatus × Option (DependencyGraph α) := b.builder.build out

end KeyedGraphBuilder
end Hisab.Graph
