import Hisab.Graph.Peeling

/-!
# What building a graph decides

A program of `add_node` and `depends_on` calls leaves a builder, and `build` tells the three
cases apart: an edge to an id no `add_node` returned, a cycle, and a graph whose order is a
schedule of all nodes. A graph that was built is well formed.
-/

namespace Hisab.Graph

open Base GraphBuilder List

variable {α : Type}

/-- What `build` promises of a graph: its order is a schedule of its ids, and the successor
lists are the converse of the dependency lists. -/
structure DependencyGraph.WellFormed (g : DependencyGraph α) : Prop where
  order_perm : g.topologicalOrder.Perm (List.range g.nodeCount)
  schedule : Schedule (fun v u ↦ ∃ n, g.nodeAt v = some n ∧ u ∈ n.dependencies)
    g.topologicalOrder
  dependencies_lt : ∀ v n, g.nodeAt v = some n → ∀ u ∈ n.dependencies, u < g.nodeCount
  converse : ∀ u v m n, g.nodeAt u = some m → g.nodeAt v = some n →
    m.successors.count v = n.dependencies.count u

namespace GraphBuilder

/-- The graph of a builder whose peeling leaves nothing over. -/
def graph (b : GraphBuilder α) : DependencyGraph α :=
  ⟨b.builtNodes (tablesOf b.nodes.length b.edges), peeledOrder b.nodes.length b.edges⟩

variable {b : GraphBuilder α}

/-- An edge out of range fails the build. -/
theorem build_of_not_inRange (h : ¬InRange b.nodes.length b.edges)
    (out : Option (DependencyGraph α)) : b.build out = (unknownNode, out) := by
  simp only [build, scanEdges_of_not_inRange h]

/-- A cycle fails the build. -/
theorem build_of_cyclic (hr : InRange b.nodes.length b.edges) (hc : Cyclic (DependsOn b.edges))
    (out : Option (DependencyGraph α)) : b.build out = (cycleFound, out) := by
  have hlen : (peeledOrder b.nodes.length b.edges).length ≠ b.nodes.length := fun h ↦
    (length_peeledOrder_iff hr).mp h hc
  simp only [build, scanEdges_eq_tables hr]
  exact if_pos hlen

/-- Edges in range without a cycle give the graph. -/
theorem build_of_acyclic (hr : InRange b.nodes.length b.edges) (hc : ¬Cyclic (DependsOn b.edges))
    (out : Option (DependencyGraph α)) : b.build out = (.success, some b.graph) := by
  have hlen := (length_peeledOrder_iff hr).mpr hc
  simp only [build, scanEdges_eq_tables hr]
  exact if_neg (not_not_intro hlen)

/-- What a successful build says of its builder and its result. -/
theorem build_eq_success {out : Option (DependencyGraph α)} {g : DependencyGraph α}
    {status : GraphStatus} (h : b.build out = (status, some g)) (hok : status.ok = true) :
    InRange b.nodes.length b.edges ∧ ¬Cyclic (DependsOn b.edges) ∧ g = b.graph := by
  by_cases hr : InRange b.nodes.length b.edges
  · by_cases hc : Cyclic (DependsOn b.edges)
    · rw [build_of_cyclic hr hc, Prod.mk.injEq] at h
      rw [← h.1] at hok
      cases hok
    · rw [build_of_acyclic hr hc, Prod.mk.injEq, Option.some.injEq] at h
      exact ⟨hr, hc, h.2.symm⟩
  · rw [build_of_not_inRange hr, Prod.mk.injEq] at h
    rw [← h.1] at hok
    cases hok

/-- The node of the built graph at an id. -/
theorem nodeAt_graph (b : GraphBuilder α) (id : Nat) : b.graph.nodeAt id = b.nodes[id]?.map fun n ↦
      { name := n.name
        work := n.work
        successors := successorsOf b.edges id
        dependencies := dependenciesOf b.edges id } := by
  simp only [DependencyGraph.nodeAt, graph, builtNodes, getElem?_mapIdx]
  cases hn : b.nodes[id]? with
  | none => rfl
  | some n =>
    have hlt : id < b.nodes.length := (List.getElem?_eq_some_iff.mp hn).1
    simp [tablesOf, getElem?_tabulate hlt]

@[simp] theorem nodeCount_graph (b : GraphBuilder α) : b.graph.nodeCount = b.nodes.length := by
  simp [DependencyGraph.nodeCount, graph, builtNodes]

/-- The dependencies listed at a node of the built graph are those declared. -/
theorem exists_nodeAt_graph (hr : InRange b.nodes.length b.edges) {v u : Nat} :
    (∃ n, b.graph.nodeAt v = some n ∧ u ∈ n.dependencies) ↔ DependsOn b.edges v u := by
  rw [nodeAt_graph]
  constructor
  · rintro ⟨n, hn, hu⟩
    obtain ⟨m, _, rfl⟩ := Option.map_eq_some_iff.mp hn
    exact mem_dependenciesOf.mp hu
  · intro h
    obtain ⟨m, hm⟩ : ∃ m, b.nodes[v]? = some m := ⟨_, getElem?_eq_getElem (hr _ h).1⟩
    exact ⟨_, by rw [hm]; rfl, mem_dependenciesOf.mpr h⟩

/-- The order of the built graph is a permutation of the ids. -/
theorem order_graph_perm (hr : InRange b.nodes.length b.edges) (hc : ¬Cyclic (DependsOn b.edges)) :
    b.graph.topologicalOrder.Perm (List.range b.nodes.length) := by
  obtain ⟨hn, _, hm⟩ := peeledOrder_spec hr
  have hsub : peeledOrder b.nodes.length b.edges ⊆ range b.nodes.length := fun v hv ↦
    mem_range.mpr ((hm v).mp hv).1
  refine (hn.subperm hsub).perm_of_length_le ?_
  rw [(length_peeledOrder_iff hr).mpr hc, length_range]

/-- A graph that was built is well formed. -/
theorem wellFormed_graph (hr : InRange b.nodes.length b.edges) (hc : ¬Cyclic (DependsOn b.edges)) :
    b.graph.WellFormed where
  order_perm := by
    rw [nodeCount_graph]
    exact order_graph_perm hr hc
  schedule := by
    have hdep : (fun v u ↦ ∃ n, b.graph.nodeAt v = some n ∧ u ∈ n.dependencies) =
        DependsOn b.edges := by
      funext v u
      exact propext (exists_nodeAt_graph hr)
    rw [hdep]
    exact (peeledOrder_spec hr).2.1
  dependencies_lt v n hn u hu := by
    rw [nodeCount_graph]
    exact (hr _ ((exists_nodeAt_graph hr).mp ⟨n, hn, hu⟩)).2
  converse u v m n hm hn := by
    rw [nodeAt_graph] at hm hn
    obtain ⟨_, _, rfl⟩ := Option.map_eq_some_iff.mp hm
    obtain ⟨_, _, rfl⟩ := Option.map_eq_some_iff.mp hn
    exact count_successorsOf v u

end GraphBuilder
/-! ## Programs of builder calls -/

/-- A call that grows a builder. -/
inductive BuilderCall (α : Type)
  | addNode (name : String) (work : NodeWork α)
  | dependsOn (node dependency : Nat)

/-- Run calls in order; the ids `add_node` returned and the builder they leave. -/
def runCalls : List (BuilderCall α) → GraphBuilder α → List Nat × GraphBuilder α
  | [], b => ([], b)
  | .addNode name work :: calls, b =>
    let added := b.addNode name work
    let rest := runCalls calls added.2
    (added.1 :: rest.1, rest.2)
  | .dependsOn node dependency :: calls, b => runCalls calls (b.dependsOn node dependency)

/-- The edges the `depends_on` calls name, in call order. -/
def declared : List (BuilderCall α) → List PendingEdge
  | [] => []
  | .addNode _ _ :: calls => declared calls
  | .dependsOn node dependency :: calls => ⟨node, dependency⟩ :: declared calls

/-- The ids returned are dense, and the builder holds the edges as they were declared. -/
theorem runCalls_spec (calls : List (BuilderCall α)) (b : GraphBuilder α) :
    (runCalls calls b).2.edges = b.edges ++ declared calls ∧
      List.range (runCalls calls b).2.nodes.length =
        List.range b.nodes.length ++ (runCalls calls b).1 := by
  induction calls generalizing b with
  | nil => simp [runCalls, declared]
  | cons c calls ih =>
    cases c with
    | addNode name work =>
      obtain ⟨he, hn⟩ := ih (b.addNode name work).2
      refine ⟨he, hn.trans ?_⟩
      simp [addNode, runCalls, range_succ]
    | dependsOn node dependency =>
      obtain ⟨he, hn⟩ := ih (b.dependsOn node dependency)
      refine ⟨he.trans ?_, hn⟩
      simp [dependsOn, declared]

/-- `build` decides whether the edges name only returned ids and whether they are free of
cycles; it then yields a schedule of all ids with the dependencies in call order, and
otherwise leaves `out` as it was. Building again gives the same result. -/
theorem build_decides_acyclicity (calls : List (BuilderCall α)) (out : Option (DependencyGraph α)) :
    let ids := (runCalls calls {}).1
    let b := (runCalls calls {}).2
    let edges := declared calls
    let unknown := ∃ e ∈ edges, e.node ∉ ids ∨ e.dependency ∉ ids
    let status := (b.build out).1
    let out' := (b.build out).2
    (status.code = .unknownNodeReference ↔ unknown) ∧
      (status.code = .cycleDetected ↔ ¬unknown ∧ Cyclic (DependsOn edges)) ∧
      (status.ok = true ↔ ¬unknown ∧ ¬Cyclic (DependsOn edges)) ∧
      (status.ok = true → ∃ g, out' = some g ∧ g.topologicalOrder.Perm ids ∧
        Schedule (DependsOn edges) g.topologicalOrder ∧
        ∀ id ∈ ids, ∃ n, g.nodeAt id = some n ∧ n.dependencies = dependenciesOf edges id ∧
          n.successors = successorsOf edges id ∧
          ∀ v, n.successors.count v = (dependenciesOf edges v).count id) ∧
      (status.ok = false → out' = out) ∧
      b.build out' = (status, out') := by
  intro ids b edges unknown status out'
  obtain ⟨hedges, hids⟩ := runCalls_spec calls ({} : GraphBuilder α)
  have he : b.edges = edges := by simpa [b, edges] using hedges
  have hi : ids = range b.nodes.length := by simpa [b, ids] using hids.symm
  have hunknown : unknown ↔ ¬InRange b.nodes.length b.edges := by
    simp only [unknown, InRange, hi, he, mem_range, not_forall, not_and_or, exists_prop]
  by_cases hr : InRange b.nodes.length b.edges
  · have hno : ¬unknown := fun h ↦ hunknown.mp h hr
    by_cases hc : Cyclic (DependsOn b.edges)
    · have hb := fun o ↦ build_of_cyclic hr hc o
      have hs : status = cycleFound := by simp only [status, hb]
      have ho : out' = out := by simp only [out', hb]
      rw [he] at hc
      rw [hs, ho, hb]
      simp [hno, hc, cycleFound, GraphStatus.failure, GraphStatus.ok]
    · have hb := fun o ↦ build_of_acyclic hr hc o
      have hs : status = .success := by simp only [status, hb]
      have ho : out' = some b.graph := by simp only [out', hb]
      have hperm := order_graph_perm hr hc
      have hsched : Schedule (DependsOn b.edges) b.graph.topologicalOrder :=
        (peeledOrder_spec hr).2.1
      rw [hs, ho, hb]
      rw [he] at hc
      refine ⟨by simp [hno, GraphStatus.success], by simp [hc, GraphStatus.success],
        by simp [hno, hc], fun _ ↦ ⟨b.graph, rfl, hi ▸ hperm, he ▸ hsched, fun id hid ↦ ?_⟩,
        by simp, rfl⟩
      rw [hi, mem_range] at hid
      rw [nodeAt_graph, getElem?_eq_getElem hid, he]
      exact ⟨_, rfl, rfl, rfl, fun v ↦ count_successorsOf v id⟩
  · have hb := fun o ↦ build_of_not_inRange hr o
    have hs : status = unknownNode := by simp only [status, hb]
    have ho : out' = out := by simp only [out', hb]
    rw [hs, ho, hb]
    simp [hunknown.mpr hr, unknownNode, GraphStatus.failure, GraphStatus.ok]

end Hisab.Graph
