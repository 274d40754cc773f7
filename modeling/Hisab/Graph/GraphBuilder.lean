import Hisab.Base.Tabulate
import Hisab.Base.TransitionSystem

/-!
# Node ids, works, statuses and built graphs

The vocabulary of `graph_types.h` and `dependency_graph.h`. A `node_id` is a natural number.
A `std::any` is an optional value of the type `α` of the results; a node's work maps the
results of its dependencies to its own, or throws.
-/

namespace Hisab.Graph

/-- `std::any`: empty, or a result. -/
abbrev Any (α : Type) := Option α

/-- What a work throws: a `std::exception` with its `what()`, or anything else. -/
inductive Thrown
  | exception (what : String)
  | unknown
deriving Repr, DecidableEq

/-- A node's work (`graph_types.h:36`): the results of the dependencies, in the order they
were declared, to the node's own result. -/
abbrev NodeWork (α : Type) := List (Any α) → Except Thrown (Any α)

/-- `graph_build_status_code` (`graph_types.h:39–44`). -/
inductive GraphBuildStatusCode
  | ok
  | cycleDetected
  | unknownNodeReference
deriving Repr, DecidableEq

/-- Outcome of building a graph (`graph_types.h:56–80`). -/
structure GraphStatus where
  code : GraphBuildStatusCode
  message : String
deriving Repr, DecidableEq

namespace GraphStatus

/-- `graph_status::success()`. -/
def success : GraphStatus := ⟨.ok, ""⟩

/-- `graph_status::failure(code, message)`. -/
def failure (code : GraphBuildStatusCode) (message : String) : GraphStatus := ⟨code, message⟩

/-- `graph_status::ok()`. -/
def ok (s : GraphStatus) : Bool := s.code == .ok

@[simp] theorem ok_success : success.ok = true := rfl

end GraphStatus

/-- A node of a built graph (`dependency_graph.h:44–57`). -/
structure DependencyGraph.Node (α : Type) where
  name : String
  work : NodeWork α
  successors : List Nat
  dependencies : List Nat

/-- An immutable graph with the order its nodes were peeled in (`dependency_graph.h:41–75`). -/
structure DependencyGraph (α : Type) where
  nodes : List (DependencyGraph.Node α)
  topologicalOrder : List Nat

namespace DependencyGraph

variable {α : Type}

/-- `node_count()`. -/
def nodeCount (g : DependencyGraph α) : Nat := g.nodes.length

/-- `node_at(id)`; an id outside the graph has no node. -/
def nodeAt (g : DependencyGraph α) (id : Nat) : Option (Node α) := g.nodes[id]?

end DependencyGraph
end Hisab.Graph

/-!
## The graph builder

`graph_builder.cpp`: nodes and edges are recorded as they come, and `build` checks the ids,
inverts the edges and peels nodes of in-degree zero (Kahn's algorithm). The in-degrees are
integers, so that a decrement below zero would not be taken for zero.
-/

namespace Hisab.Graph

/-- A recorded node (`graph_builder.h:66–70`). -/
structure PendingNode (α : Type) where
  name : String
  work : NodeWork α

/-- A recorded `depends_on` call (`graph_builder.h:75–79`). -/
structure PendingEdge where
  node : Nat
  dependency : Nat
deriving Repr, DecidableEq

/-- `graph_builder`. -/
structure GraphBuilder (α : Type) where
  nodes : List (PendingNode α) := []
  edges : List PendingEdge := []

/-- The vectors `build` fills from the edges. -/
structure EdgeTables where
  successors : List (List Nat)
  dependencies : List (List Nat)
  inDegree : List Int
deriving Repr, DecidableEq

/-- The state of the peeling loop. -/
structure Peeling where
  inDegree : List Int
  ready : List Nat
  topologicalOrder : List Nat
deriving Repr, DecidableEq

namespace GraphBuilder

variable {α : Type}

/-- `graph_builder::add_node` (`graph_builder.cpp:27–32`). -/
def addNode (b : GraphBuilder α) (name : String) (work : NodeWork α) : Nat × GraphBuilder α :=
  (b.nodes.length, { b with nodes := b.nodes ++ [⟨name, work⟩] })

/-- `graph_builder::depends_on` (`graph_builder.cpp:34–38`). -/
def dependsOn (b : GraphBuilder α) (node dependency : Nat) : GraphBuilder α :=
  { b with edges := b.edges ++ [⟨node, dependency⟩] }

/-- The failure of an edge that names no node (`graph_builder.cpp:51–53`). -/
def unknownNode : GraphStatus :=
  .failure .unknownNodeReference "depends_on() referenced a node id outside the graph"

/-- The failure of a peeling that leaves nodes over (`graph_builder.cpp:91–93`). -/
def cycleFound : GraphStatus :=
  .failure .cycleDetected "graph_builder::build(): dependency edges contain a cycle"

/-- What one edge adds to the tables (`graph_builder.cpp:55–60`). -/
def recordEdge (t : EdgeTables) (e : PendingEdge) : EdgeTables where
  successors := t.successors.modify e.dependency (· ++ [e.node])
  dependencies := t.dependencies.modify e.node (· ++ [e.dependency])
  inDegree := t.inDegree.modify e.node (· + 1)

/-- The loop over the edges, left at the first edge that names no node
(`graph_builder.cpp:47–61`). -/
def scanEdges (count : Nat) : List PendingEdge → EdgeTables → Except GraphStatus EdgeTables
  | [], t => .ok t
  | e :: es, t =>
    if count ≤ e.node ∨ count ≤ e.dependency then .error unknownNode
    else scanEdges count es (recordEdge t e)

/-- One decrement of the inner loop (`graph_builder.cpp:82–85`). -/
def release (s : Peeling) (successor : Nat) : Peeling :=
  let inDegree := s.inDegree.modify successor (· - 1)
  { s with
    inDegree := inDegree
    ready := if inDegree[successor]? = some 0 then s.ready ++ [successor] else s.ready }

/-- The loop over the ready queue (`graph_builder.cpp:74–87`). -/
def peel (successors : List (List Nat)) : Nat → Peeling → Peeling
  | 0, s => s
  | fuel + 1, s =>
    match s.ready with
    | [] => s
    | id :: ready =>
      let popped := { s with ready := ready, topologicalOrder := s.topologicalOrder ++ [id] }
      peel successors fuel (((successors[id]?).getD []).foldl release popped)

/-- The state in which peeling starts (`graph_builder.cpp:63–72`). -/
def startPeeling (count : Nat) (inDegree : List Int) : Peeling where
  inDegree := inDegree
  ready := (List.range count).filter fun id ↦ inDegree[id]? = some 0
  topologicalOrder := []

/-- The nodes of the built graph (`graph_builder.cpp:96–105`). -/
def builtNodes (b : GraphBuilder α) (t : EdgeTables) : List (DependencyGraph.Node α) :=
  b.nodes.mapIdx fun id n ↦
    { name := n.name
      work := n.work
      successors := (t.successors[id]?).getD []
      dependencies := (t.dependencies[id]?).getD [] }

/-- `graph_builder::build` (`graph_builder.cpp:40–110`); the second component is `out`. Each
pass of the peeling loop appends a node, so `count` passes are enough. -/
def build (b : GraphBuilder α) (out : Option (DependencyGraph α)) :
    GraphStatus × Option (DependencyGraph α) :=
  let count := b.nodes.length
  match scanEdges count b.edges
      ⟨List.replicate count [], List.replicate count [], List.replicate count 0⟩ with
  | .error status => (status, out)
  | .ok t =>
    let peeled := peel t.successors count (startPeeling count t.inDegree)
    if peeled.topologicalOrder.length ≠ count then (cycleFound, out)
    else (.success, some ⟨b.builtNodes t, peeled.topologicalOrder⟩)

end GraphBuilder
end Hisab.Graph
