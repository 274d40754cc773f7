import Hisab.Graph.GraphBuilder

/-!
# What the loops of the graph builder compute

The scan of the edges inverts the edge list, and the peeling loop keeps one invariant: the
in-degree of a node counts the edges to dependencies not yet peeled, the peeled and the ready
nodes are those whose count is zero, and the peeled ones form a schedule.
-/

namespace Hisab.Graph

open Base Function List

/-- Some `depends_on` call made `v` depend on `u`. -/
def DependsOn (edges : List PendingEdge) (v u : Nat) : Prop := ⟨v, u⟩ ∈ edges

/-- Every edge names nodes of the builder. -/
def InRange (count : Nat) (edges : List PendingEdge) : Prop :=
  ∀ e ∈ edges, e.node < count ∧ e.dependency < count

/-- The dependencies of `v` in call order, with multiplicity. -/
def dependenciesOf (edges : List PendingEdge) (v : Nat) : List Nat :=
  (edges.filter (·.node = v)).map (·.dependency)

/-- The nodes that depend on `u` in call order, with multiplicity. -/
def successorsOf (edges : List PendingEdge) (u : Nat) : List Nat :=
  (edges.filter (·.dependency = u)).map (·.node)

/-- The number of edges from `v` to dependencies outside `order`. -/
def waiting (edges : List PendingEdge) (order : List Nat) (v : Nat) : Nat :=
  edges.countP fun e ↦ e.node = v ∧ e.dependency ∉ order

variable {edges : List PendingEdge} {count : Nat}

theorem mem_dependenciesOf {v u : Nat} : u ∈ dependenciesOf edges v ↔ DependsOn edges v u := by
  simp only [dependenciesOf, mem_map, mem_filter, decide_eq_true_eq]
  constructor
  · rintro ⟨⟨n, d⟩, ⟨he, rfl⟩, rfl⟩
    exact he
  · intro h
    exact ⟨⟨v, u⟩, ⟨h, rfl⟩, rfl⟩

/-- The successor lists are the converse of the dependency lists, with multiplicity. -/
theorem count_successorsOf (v u : Nat) :
    (successorsOf edges u).count v = (dependenciesOf edges v).count u := by
  simp only [successorsOf, dependenciesOf, count_eq_countP, countP_map, countP_filter]
  refine countP_congr fun e _ ↦ ?_
  simp [and_comm]

theorem lt_of_mem_successorsOf (hr : InRange count edges) {v u : Nat}
    (h : v ∈ successorsOf edges u) : v < count := by
  obtain ⟨e, he, rfl⟩ := mem_map.mp h
  exact (hr e (mem_of_mem_filter he)).1

/-! ## The scan of the edges -/

namespace GraphBuilder

theorem scanEdges_of_inRange (hr : InRange count edges) (t : EdgeTables) :
    scanEdges count edges t = .ok (edges.foldl recordEdge t) := by
  induction edges generalizing t with
  | nil => rfl
  | cons e es ih =>
    obtain ⟨h₁, h₂⟩ := hr e (by simp)
    rw [scanEdges, if_neg (by omega)]
    exact ih (fun e' he' ↦ hr e' (by simp [he'])) _

theorem scanEdges_of_not_inRange (hr : ¬InRange count edges) (t : EdgeTables) :
    scanEdges count edges t = .error unknownNode := by
  induction edges generalizing t with
  | nil => exact absurd nofun hr
  | cons e es ih =>
    rw [scanEdges]
    split
    · rfl
    next h =>
      refine ih (fun hes ↦ hr fun e' he' ↦ ?_) _
      rcases mem_cons.mp he' with rfl | he'
      · omega
      · exact hes e' he'

private theorem foldl_recordEdge (t : EdgeTables) : edges.foldl recordEdge t =
      ⟨edges.foldl (fun s e ↦ s.modify e.dependency (· ++ [e.node])) t.successors,
        edges.foldl (fun s e ↦ s.modify e.node (· ++ [e.dependency])) t.dependencies,
        edges.foldl (fun s e ↦ s.modify e.node (· + 1)) t.inDegree⟩ := by
  induction edges generalizing t with
  | nil => rfl
  | cons e es ih => rw [foldl_cons, ih]; rfl

/-- The tables that hold the edges by node and by dependency. -/
def tablesOf (count : Nat) (edges : List PendingEdge) : EdgeTables where
  successors := tabulate count (successorsOf edges)
  dependencies := tabulate count (dependenciesOf edges)
  inDegree := tabulate count fun v ↦ (waiting edges [] v : Int)

/-- The scan of edges in range fills the tables. -/
theorem scanEdges_eq_tables (hr : InRange count edges) : scanEdges count edges
        ⟨List.replicate count [], List.replicate count [], List.replicate count 0⟩ =
      .ok (tablesOf count edges) := by
  rw [scanEdges_of_inRange hr, foldl_recordEdge]
  simp only [replicate_eq_tabulate, foldl_append_tabulate, foldl_count_tabulate, tablesOf]
  simp only [Int.zero_add, waiting, not_mem_nil, not_false_eq_true, and_true]
  rfl

/-! ## The peeling loop -/

/-- The in-degrees are `degree`, and the listed nodes are those of degree zero. -/
structure Counts (count : Nat) (degree : Nat → Nat) (s : Peeling) : Prop where
  inDegree : s.inDegree = tabulate count fun v ↦ (degree v : Int)
  nodup : (s.topologicalOrder ++ s.ready).Nodup
  mem_iff : ∀ v, v ∈ s.topologicalOrder ++ s.ready ↔ v < count ∧ degree v = 0

@[simp] theorem release_topologicalOrder (s : Peeling) (w : Nat) :
    (release s w).topologicalOrder = s.topologicalOrder := rfl

variable {s : Peeling}

/-- One decrement of a positive in-degree keeps the counts. -/
theorem Counts.release {degree : Nat → Nat} (h : Counts count degree s) {w : Nat} (hw : w < count)
    (hpos : 0 < degree w) :
    Counts count (update degree w (degree w - 1)) (release s w) := by
  have hdeg : s.inDegree.modify w (· - 1) =
      tabulate count fun v ↦ (update degree w (degree w - 1) v : Int) := by
    rw [h.inDegree, modify_tabulate]
    refine tabulate_congr fun v _ ↦ ?_
    by_cases hv : v = w
    · subst hv
      simp only [update_self]
      omega
    · simp [update_of_ne hv]
  have hzero : (s.inDegree.modify w (· - 1))[w]? = some 0 ↔ degree w = 1 := by
    rw [hdeg, getElem?_tabulate hw]
    simp only [update_self, Option.some.injEq]
    omega
  have hfresh : w ∉ s.topologicalOrder ++ s.ready := by
    intro hin
    have := ((h.mem_iff w).mp hin).2
    omega
  have hother : ∀ v, v ≠ w → (v < count ∧ degree v = 0 ↔
      v < count ∧ update degree w (degree w - 1) v = 0) := by
    intro v hv
    rw [update_of_ne hv]
  by_cases hone : degree w = 1
  · have hready : (GraphBuilder.release s w).ready = s.ready ++ [w] := by
      simp [GraphBuilder.release, hzero.mpr hone]
    refine ⟨hdeg, ?_, fun v ↦ ?_⟩
    · rw [hready, ← append_assoc]
      exact nodup_append.mpr ⟨h.nodup, nodup_singleton w, by
        intro a ha b hb hab
        rw [mem_singleton.mp hb] at hab
        exact hfresh (hab ▸ ha)⟩
    · rw [hready, release_topologicalOrder, ← append_assoc, mem_append, mem_singleton, h.mem_iff v]
      by_cases hv : v = w
      · subst hv
        simp [hw, hone]
      · simp only [hv, or_false]
        exact hother v hv
  · have hready : (GraphBuilder.release s w).ready = s.ready := by
      simp only [GraphBuilder.release, if_neg (mt hzero.mp hone)]
    refine ⟨hdeg, by rw [hready]; exact h.nodup, fun v ↦ ?_⟩
    rw [hready, release_topologicalOrder, h.mem_iff v]
    by_cases hv : v = w
    · subst hv
      simp only [update_self]
      omega
    · exact hother v hv

/-- Decrements of a node once for each edge it still has leave the remaining count. -/
theorem Counts.foldl_release {degree : Nat → Nat} (h : Counts count degree s) {l : List Nat}
    (hlt : ∀ v ∈ l, v < count) (hl : ∀ v, l.count v ≤ degree v) :
    Counts count (fun v ↦ degree v - l.count v) (l.foldl GraphBuilder.release s) ∧
      (l.foldl GraphBuilder.release s).topologicalOrder = s.topologicalOrder := by
  induction l generalizing degree s with
  | nil => exact ⟨by simpa using h, rfl⟩
  | cons w l ih =>
    have hpos : 0 < degree w := by
      have := hl w
      simp only [count_cons_self] at this
      omega
    have hrest : ∀ v, l.count v ≤ update degree w (degree w - 1) v := by
      intro v
      have := hl v
      by_cases hv : v = w
      · subst hv
        simp only [count_cons_self] at this
        simp only [update_self]
        omega
      · rw [update_of_ne hv]
        rwa [count_cons_of_ne (Ne.symm hv)] at this
    obtain ⟨hc, ho⟩ := ih (h.release (hlt w (by simp)) hpos) (fun v hv ↦ hlt v (by simp [hv])) hrest
    refine ⟨?_, ho⟩
    have heq : (fun v ↦ degree v - (w :: l).count v) =
        fun v ↦ update degree w (degree w - 1) v - l.count v := by
      funext v
      by_cases hv : v = w
      · subst hv
        simp only [count_cons_self, update_self]
        omega
      · rw [update_of_ne hv, count_cons_of_ne (Ne.symm hv)]
    rw [heq]
    exact hc

/-- The counts are those of the edges, and the peeled nodes form a schedule. -/
structure PeelInv (count : Nat) (edges : List PendingEdge) (s : Peeling) : Prop where
  counts : Counts count (waiting edges s.topologicalOrder) s
  schedule : Schedule (DependsOn edges) s.topologicalOrder

/-- No edge waits exactly when every dependency is in the order. -/
theorem waiting_eq_zero {order : List Nat} {v : Nat} :
    waiting edges order v = 0 ↔ ∀ u, DependsOn edges v u → u ∈ order := by
  simp only [waiting, countP_eq_zero, decide_eq_true_eq, not_and, Decidable.not_not]
  constructor
  · intro h u hu
    exact h ⟨v, u⟩ hu rfl
  · rintro h ⟨n, d⟩ he rfl
    exact h d he

/-- Peeling a node takes its edges out of the counts. -/
theorem waiting_snoc {order : List Nat} {id : Nat} (hid : id ∉ order) (v : Nat) :
    waiting edges (order ++ [id]) v = waiting edges order v - (successorsOf edges id).count v := by
  have hsplit : waiting edges order v =
      waiting edges (order ++ [id]) v + (successorsOf edges id).count v := by
    simp only [waiting, successorsOf, count_eq_countP, countP_map, countP_filter]
    induction edges with
    | nil => rfl
    | cons e es ih =>
      simp only [countP_cons, ih]
      by_cases hv : e.node = v <;> by_cases hd : e.dependency = id
      · simp [hd, hid]
        omega
      · simp [hd]
        omega
      · simp [hv]
      · simp [hv]
  omega

theorem PeelInv.start : PeelInv count edges
    (startPeeling count (tablesOf count edges).inDegree) := by
  refine ⟨⟨rfl, ?_, fun v ↦ ?_⟩, Schedule.nil⟩
  · exact nodup_range.filter _
  · simp only [startPeeling, nil_append, mem_filter, mem_range]
    refine and_congr_right fun hv ↦ ?_
    have hdeg : (tablesOf count edges).inDegree[v]? = some (waiting edges [] v : Int) :=
      getElem?_tabulate hv
    simp [hdeg]

/-- One pass of the peeling loop. -/
theorem PeelInv.step (hr : InRange count edges) (h : PeelInv count edges s) {id : Nat}
    {ready : List Nat} (hready : s.ready = id :: ready) :
    let popped := { s with ready := ready, topologicalOrder := s.topologicalOrder ++ [id] }
    PeelInv count edges ((successorsOf edges id).foldl release popped) ∧
      ((successorsOf edges id).foldl release popped).topologicalOrder =
        s.topologicalOrder ++ [id] := by
  intro popped
  have hsame : s.topologicalOrder ++ s.ready = popped.topologicalOrder ++ popped.ready := by
    simp [popped, hready]
  have hcounts : Counts count (waiting edges s.topologicalOrder) popped :=
    ⟨h.counts.inDegree, hsame ▸ h.counts.nodup, fun v ↦ hsame ▸ h.counts.mem_iff v⟩
  have hfresh : id ∉ s.topologicalOrder := by
    have hn := h.counts.nodup
    rw [hready] at hn
    intro hin
    exact disjoint_of_nodup_append hn hin (by simp)
  have hle : ∀ v, (successorsOf edges id).count v ≤ waiting edges s.topologicalOrder v := by
    intro v
    simp only [successorsOf, count_eq_countP, countP_map, countP_filter]
    refine countP_mono_left fun e _ he ↦ ?_
    simp only [Function.comp_apply, Bool.and_eq_true, beq_iff_eq, decide_eq_true_eq] at he ⊢
    exact ⟨he.1, he.2 ▸ hfresh⟩
  obtain ⟨hc, ho⟩ := hcounts.foldl_release (fun v hv ↦ lt_of_mem_successorsOf hr hv) hle
  have hneeds : ∀ u, DependsOn edges id u → u ∈ s.topologicalOrder := by
    have hin : id ∈ s.topologicalOrder ++ s.ready := by simp [hready]
    exact waiting_eq_zero.mp ((h.counts.mem_iff id).mp hin).2
  refine ⟨⟨?_, ?_⟩, ho⟩
  · rw [ho]
    have hw : waiting edges (s.topologicalOrder ++ [id]) = fun v ↦
        waiting edges s.topologicalOrder v - (successorsOf edges id).count v :=
      funext (waiting_snoc hfresh)
    rw [hw]
    exact hc
  · rw [ho]
    exact schedule_snoc.mpr ⟨h.schedule, hneeds⟩

/-- The peeled and the ready nodes are at most `count`. -/
theorem PeelInv.length_le (h : PeelInv count edges s) :
    s.topologicalOrder.length + s.ready.length ≤ count := by
  have hsub : s.topologicalOrder ++ s.ready ⊆ range count := fun v hv ↦
    mem_range.mpr ((h.counts.mem_iff v).mp hv).1
  simpa using (h.counts.nodup.subperm hsub).length_le

/-- The loop ends with nothing ready. -/
theorem PeelInv.peel (hr : InRange count edges) (fuel : Nat) (h : PeelInv count edges s)
    (hf : count ≤ s.topologicalOrder.length + fuel) :
    PeelInv count edges (peel (tablesOf count edges).successors fuel s) ∧
      (GraphBuilder.peel (tablesOf count edges).successors fuel s).ready = [] := by
  induction fuel generalizing s with
  | zero =>
    have hle := h.length_le
    have hnone : s.ready.length = 0 := by omega
    exact ⟨h, length_eq_zero_iff.mp hnone⟩
  | succ fuel ih =>
    rw [GraphBuilder.peel]
    split
    next hready => exact ⟨h, hready⟩
    next id ready hready =>
      have hid : id < count := by
        have hin : id ∈ s.topologicalOrder ++ s.ready := by simp [hready]
        exact ((h.counts.mem_iff id).mp hin).1
      obtain ⟨hs, ho⟩ := h.step hr hready
      have hsucc : ((tablesOf count edges).successors[id]?).getD [] = successorsOf edges id := by
        simp [tablesOf, getElem?_tabulate hid]
      rw [hsucc]
      refine ih hs ?_
      rw [ho, length_append, length_singleton]
      omega

/-- The order the peeling loop computes. -/
def peeledOrder (count : Nat) (edges : List PendingEdge) : List Nat :=
  (GraphBuilder.peel (tablesOf count edges).successors count
    (startPeeling count (tablesOf count edges).inDegree)).topologicalOrder

/-- What the loop has peeled when it ends: a schedule of distinct nodes that leaves out no
node it could append. -/
theorem peeledOrder_spec (hr : InRange count edges) :
    (peeledOrder count edges).Nodup ∧ Schedule (DependsOn edges) (peeledOrder count edges) ∧
      ∀ v, v ∈ peeledOrder count edges ↔
        v < count ∧ ∀ u, DependsOn edges v u → u ∈ peeledOrder count edges := by
  have hstart : PeelInv count edges (startPeeling count (tablesOf count edges).inDegree) := .start
  obtain ⟨hinv, hready⟩ := hstart.peel hr count (Nat.le_add_left _ _)
  have hn := hinv.counts.nodup
  have hm := hinv.counts.mem_iff
  rw [hready, append_nil] at hn
  refine ⟨hn, hinv.schedule, fun v ↦ ?_⟩
  have := hm v
  rwa [hready, append_nil, waiting_eq_zero] at this

/-- The loop peels every node exactly when no node depends on itself through others. -/
theorem length_peeledOrder_iff (hr : InRange count edges) :
    (peeledOrder count edges).length = count ↔ ¬Cyclic (DependsOn edges) := by
  obtain ⟨hn, hs, hm⟩ := peeledOrder_spec hr
  have hsub : peeledOrder count edges ⊆ range count := fun v hv ↦ mem_range.mpr ((hm v).mp hv).1
  constructor
  · rintro hl ⟨v, hc⟩
    obtain ⟨u, hu, _⟩ := Relation.TransGen.head'_iff.mp hc
    have hperm := (hn.subperm hsub).perm_of_length_le (by simp [hl])
    have hv : v ∈ range count := mem_range.mpr (hr _ hu).1
    exact hs.not_cyclic (hperm.mem_iff.mpr hv) hc
  · intro hc
    have hall : range count ⊆ peeledOrder count edges :=
      subset_of_acyclic (fun v u h ↦ mem_range.mpr (hr _ h).2) hc fun v hv h ↦
        (hm v).mpr ⟨mem_range.mp hv, h⟩
    have h₁ := (hn.subperm hsub).length_le
    have h₂ := (nodup_range.subperm hall).length_le
    simp only [length_range] at h₁ h₂
    omega

end GraphBuilder
end Hisab.Graph
