import Hisab.Base.ForestTrees
import Hisab.Profiler.TreeReplay

/-!
# The forest of a call tree

The events as one forest whose roots stand in the order of the list, and which is the forest of the
open frames on each thread.
-/

namespace Hisab.Profiler.Collection

open Base

variable {initial tree : Results} {events : List Nat} {x y : Nat} {forest : Forest Nat}

/-- The innermost frame of its thread that is open as an event starts. -/
def frameOf (initial : Results) (events : List Nat) (x : Nat) : Option Nat :=
  ((frameParents (startOf initial) (endOf initial) []
    (onThread initial (initial x).startTid events)).lookup x).join

theorem mem_onThread_self (hx : x ∈ events) : x ∈ onThread initial (initial x).startTid events :=
  List.mem_filter.mpr ⟨hx, decide_eq_true rfl⟩

theorem tid_of_mem_onThread {t : Nat} (hx : x ∈ onThread initial t events) :
    (initial x).startTid = t := of_decide_eq_true (List.mem_filter.mp hx).2

theorem mem_of_mem_onThread {t : Nat} (hx : x ∈ onThread initial t events) : x ∈ events :=
  (List.mem_filter.mp hx).1

namespace CallTree

theorem frameOf_eq (h : CallTree initial tree events) (hx : x ∈ events) :
    frameOf initial events x = (tree x).parent := by
  rw [frameOf, ← h.parents, List.lookup_graph _ (mem_onThread_self hx)]
  rfl

/-- A parent is an event of the same thread that is not empty. -/
theorem of_parent (h : CallTree initial tree events) (hx : x ∈ events)
    (hy : (tree x).parent = some y) : y ∈ events ∧
      (initial y).startTid = (initial x).startTid ∧ startOf initial y < endOf initial y := by
  have hmem : (x, some y) ∈ frameParents (startOf initial) (endOf initial) []
      (onThread initial (initial x).startTid events) := by
    rw [← h.parents, ← hy]
    exact List.mem_map_of_mem (mem_onThread_self hx)
  obtain ⟨hthread, hpos⟩ := of_mem_frameParents hmem
  exact ⟨mem_of_mem_onThread hthread, tid_of_mem_onThread hthread, hpos⟩

/-- The children of an event are on its thread. -/
theorem children_eq (h : CallTree initial tree events) (hy : y ∈ events) : (tree y).children =
    (onThread initial (initial y).startTid events).filter fun x ↦
      decide ((tree x).parent = some y) := by
  rw [h.children y hy, onThread, List.filter_filter]
  apply List.filter_congr
  intro x hx
  by_cases hparent : (tree x).parent = some y
  · have htid := (h.of_parent hx hparent).2.1
    simp [htid]
  · simp [hparent]

theorem childless (h : CallTree initial tree events) (hx : x ∈ events)
    (he : (initial x).extraFields = .allocation) : (tree x).children = [] := by
  rw [h.children x hx, List.filter_eq_nil_iff]
  intro y hy hparent
  have hpos := (h.of_parent hy (of_decide_eq_true hparent)).2.2
  rw [endOf, Result.end_, he] at hpos
  exact lt_irrefl _ hpos

end CallTree

/-- A forest of the events that is the one of the frames on each thread. -/
structure CallForest (initial tree : Results) (events : List Nat) (forest : Forest Nat) : Prop where
  tops : forest.tops = events.filter fun x ↦ decide ((tree x).parent = none)
  perm : forest.nodes.Perm events
  children : forest.All fun a l ↦ (tree a).children = l
  threads : ∀ t, (forest.select fun x ↦ decide ((initial x).startTid = t)).edges none =
    (onThread initial t events).map fun x ↦ (x, (tree x).parent)

theorem CallForest.nodes_select (h : CallForest initial tree events forest) (t : Nat) :
    (forest.select fun x ↦ decide ((initial x).startTid = t)).nodes = onThread initial t events := by
  rw [← Forest.map_fst_edges _ none, h.threads, List.map_map]
  exact List.map_id' _

/-- A node with children is not empty. -/
theorem CallForest.innerPositive (h : CallForest initial tree events forest)
    (htree : CallTree initial tree events) (t : Nat) :
    (forest.select fun x ↦ decide ((initial x).startTid = t)).InnerPositive (startOf initial)
      (endOf initial) := by
  apply Forest.innerPositive_of_edges
  intro x y hmem
  rw [h.threads, htree.parents] at hmem
  exact (of_mem_frameParents hmem).2

theorem CallTree.exists_forest (h : CallTree initial tree events) (hnodup : events.Nodup) :
    ∃ forest, CallForest initial tree events forest := by
  have hthread : ∀ t, ∃ forest : Forest Nat, forest.edges none =
      (onThread initial t events).map fun x ↦ (x, (tree x).parent) := by
    intro t
    rw [h.parents]
    exact Base.exists_forest _ _ (hnodup.filter _)
  choose F hF using hthread
  have hnodes : ∀ t, (F t).nodes = onThread initial t events := by
    intro t
    rw [← Forest.map_fst_edges _ none, hF, List.map_map]
    exact List.map_id' _
  have htops : ∀ t, (F t).tops = (events.filter fun x ↦ decide ((tree x).parent = none)).filter
      fun r ↦ decide ((initial r).startTid = t) := by
    intro t
    rw [Forest.tops_eq, hF, List.filter_map, List.map_map, List.filter_comm]
    show ((onThread initial t events).filter _).map id = _
    rw [List.map_id]
    apply List.filter_congr
    intro x _
    cases hparent : (tree x).parent with
    | none | some p => simp [hparent]
  obtain ⟨forest, hroots, hselect⟩ := Forest.exists_merged (fun x ↦ (initial x).startTid) (fun t x hx ↦ tid_of_mem_onThread (hnodes t ▸ hx))
    (fun t ↦ htops t ▸ (hnodup.filter _).filter _) htops
  refine ⟨forest, hroots, ?_, ?_, fun t ↦ ?_⟩
  · rw [List.perm_iff_count]
    intro x
    have hkeep : ∀ l : List Nat, List.count x l =
        List.count x (l.filter fun y ↦ decide ((initial y).startTid = (initial x).startTid)) :=
      fun l ↦ (List.count_filter (by simp)).symm
    rw [hkeep, ← Forest.nodes_select (hselect _).2, (hselect _).1, hnodes, hkeep events]
    rfl
  · rw [Forest.all_of_select fun x ↦ (initial x).startTid]
    intro t
    rw [(hselect t).1]
    have hthread : (F t).nodes.Nodup := hnodes t ▸ hnodup.filter _
    apply (Forest.all_childrenIn none hthread (by simp)).congr
    intro a ha l hl
    rw [hnodes] at ha
    have htid := tid_of_mem_onThread ha
    rw [hl, h.children_eq (mem_of_mem_onThread ha), htid, Forest.childrenIn, hF, List.filter_map,
      List.map_map]
    exact (List.map_id' _).symm
  · rw [(hselect t).1, hF]

end Hisab.Profiler.Collection
