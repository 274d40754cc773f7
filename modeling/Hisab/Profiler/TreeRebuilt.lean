import Hisab.Profiler.AdjustedTimes
import Hisab.Profiler.CallForest
import Hisab.Profiler.TreeNesting

/-!
# The tree after the adjustment

`adjust_timestamps` lays siblings back to back, and `build_tree` takes an event that starts as
another one ends to be in it. The second tree is the first one if and only if no event that is not
empty is laid out against a later one beside it.
-/

namespace Hisab.Profiler.Collection

open Base List Forest

variable {initial tree adjusted : Results} {out events : List Nat} {forest : Forest Nat} {x y : Nat}
  {queue : MinQueue Nat Int}

/-- What holds of the adjusted times and of the tree that is built from them. -/
structure TreeKept (run : Rebuild) : Prop where
  contains : ∀ p ∈ run.sorted, ∀ x ∈ (run.tree p).children,
    startOf run.adjusted p ≤ startOf run.adjusted x ∧ endOf run.adjusted x ≤ endOf run.adjusted p
  siblings : ∀ p ∈ run.sorted, (run.tree p).children.Pairwise fun x y ↦
    endOf run.adjusted x ≤ startOf run.adjusted y
  roots : (run.sorted.filter fun x ↦ decide ((run.tree x).parent = none)).Pairwise fun x y ↦
    endOf run.adjusted x ≤ startOf run.adjusted y
  durations : ∀ x ∈ run.sorted, durationOf run.tree x ≤ durationOf run.adjusted x
  order : ∀ p ∈ run.sorted, (run.tree p).children.Sublist run.resorted
  parents : ∀ x ∈ run.sorted, (run.rebuilt x).parent = (run.tree x).parent

/-- New results whose times are not the mark of a missing one. -/
structure Given (initial : Results) (out : List Nat) : Prop where
  nodup : out.Nodup
  fresh : ∀ x ∈ out, Fresh (initial x)
  timed : ∀ x ∈ out, Timed (initial x)
  started : ∀ x ∈ out, minTime < startOf initial x

/-- Of the events in a frame only the last one is not empty. -/
def OnlyLastLong (initial : Results) (events : List Nat) : Prop :=
  ∀ x y, Before events x y → (frameOf initial events x).isSome = true →
    frameOf initial events x = frameOf initial events y → endOf initial x ≤ startOf initial x

/-- The longest event from a root up to the next root of its thread. -/
def treeLength (initial : Results) (events : List Nat) (r : Nat) : Int :=
  Forest.longest (durationOf initial) (Forest.upToNext (fun x ↦ (frameOf initial events x).isNone)
    (onThread initial (initial r).startTid events) r)

/-- When the roots take the lengths of their trees one after the other, none that is not empty ends
as a later one of its thread starts. -/
def RunsApart (initial : Results) (events : List Nat) : Prop :=
  (Forest.runs (startOf initial) (treeLength initial events) minTime
    (events.filter fun x ↦ (frameOf initial events x).isNone)).Pairwise fun a b ↦
      (initial a.1).startTid = (initial b.1).startTid → a.2.1 < a.2.2 → a.2.2 ≠ b.2.1

theorem Given.sorted (h : Given initial out) : Sorted initial (sortBy (startOf initial) out) := by
  have hperm := sortBy_perm (startOf initial) out
  refine ⟨hperm.nodup_iff.mpr h.nodup, fun x hx ↦ ?_, fun x hx ↦ ?_, pairwise_sortBy ..⟩
  · exact h.fresh x (hperm.mem_iff.mp hx)
  · exact h.timed x (hperm.mem_iff.mp hx)

theorem resetTree_eq (results : Results) (events : List Nat) (x : Nat) :
    ∃ parent children finished, resetTree results events x =
      { results x with parent := parent, children := children, finished := finished } := by
  rw [resetTree]
  split
  · exact ⟨_, _, _, rfl⟩
  · exact ⟨_, _, _, rfl⟩

theorem startOf_resetTree (results : Results) (events : List Nat) :
    startOf (resetTree results events) = startOf results := by
  funext x
  obtain ⟨_, _, _, heq⟩ := resetTree_eq results events x
  rw [startOf, heq]
  rfl

theorem endOf_resetTree (results : Results) (events : List Nat) :
    endOf (resetTree results events) = endOf results := by
  funext x
  obtain ⟨_, _, _, heq⟩ := resetTree_eq results events x
  rw [endOf, heq]
  rfl

/-! ### The adjusted times -/

/-- Events whose forest is laid out. -/
structure Laid (initial tree adjusted : Results) (events : List Nat) (forest : Forest Nat) :
    Prop where
  sorted : Sorted initial events
  callTree : CallTree initial tree events
  callForest : CallForest initial tree events forest
  moved : Moved forest.nodes tree adjusted
  ends : ∀ x ∈ events, Ends (adjusted x)
  widened : forest.Widened (durationOf initial) (durationOf adjusted)
  placed : forest.RootsPlaced (startOf initial) (startOf adjusted) (durationOf adjusted) minTime

theorem Laid.mem_iff (h : Laid initial tree adjusted events forest) :
    x ∈ forest.nodes ↔ x ∈ events := h.callForest.perm.mem_iff

theorem exists_laid (queue : MinQueue Nat Int) (h : Sorted initial events)
    (hstarted : ∀ x ∈ events, minTime < startOf initial x) :
    ∃ tree adjusted forest, buildTree queue initial events = some tree ∧
      adjustTimestamps events.length tree events = some adjusted ∧
        Laid initial tree adjusted events forest := by
  obtain ⟨tree, hbuild, htree⟩ := buildTree_eq queue h
  obtain ⟨forest, hforest⟩ := htree.exists_forest h.nodup
  have hstart : startOf tree = startOf initial := funext htree.times.start
  have hend : endOf tree = endOf initial := funext htree.times.end_
  have hdur : durationOf tree = durationOf initial := by
    funext x
    rw [durationOf, durationOf, hstart, hend]
  have hgrown : Grown tree forest := by
    refine ⟨hforest.children, hforest.perm.nodup_iff.mpr h.nodup, fun x hx ↦ ?_, fun x hx he ↦ ?_⟩
    · have hx := hforest.perm.mem_iff.mp hx
      have htimed := h.timed x hx
      constructor
      · show startOf tree x ≤ endOf tree x
        rw [hstart, hend]
        exact htimed.le
      · show minTime < endOf tree x
        rw [hend]
        exact htimed.real
    · rw [htree.times.extraFields] at he
      exact htree.childless (hforest.perm.mem_iff.mp hx) he
  cases events with
  | nil =>
    have hnil : forest = .nil := by
      cases forest with
      | nil => rfl
      | node a children siblings => cases hforest.tops
    subst hnil
    exact ⟨tree, tree, .nil, hbuild, rfl, h, htree, hforest, .refl ..,
      (fun _ hx ↦ by cases hx), trivial, trivial⟩
  | cons first rest =>
    have hfirst : ∀ x ∈ first :: rest, startOf initial first ≤ startOf initial x := by
      intro x hx
      cases mem_cons.mp hx with
      | inl heq => rw [heq]
      | inr hx => exact (pairwise_cons.mp h.sorted).1 x hx
    have hm : minTime < startOf initial first := hstarted first mem_cons_self
    obtain ⟨adjusted, m, hfold, hmoved, hends, hwidened, hplaced⟩ :=
      adjustRoots_eq hgrown hforest.tops
        hforest.perm.length_eq.le hm
    rw [hdur] at hwidened
    rw [hstart] at hplaced
    refine ⟨tree, adjusted, forest, hbuild, ?_, h, htree, hforest, hmoved, fun x hx ↦ ?_, hwidened,
      hplaced.of_le (fun r hr ↦ ?_) hm.le⟩
    · have hfirst : (tree first).startTimeNs = startOf initial first := htree.times.start first
      rw [adjustTimestamps, hfirst, hfold]
      rfl
    · exact hends x (hforest.perm.mem_iff.mpr hx)
    · have hr := hforest.tops ▸ mem_of_mem_head? hr
      exact hfirst r (mem_filter.mp hr).1

namespace Laid

variable (h : Laid initial tree adjusted events forest)
include h

theorem wide : forest.Wide (durationOf initial) (durationOf adjusted) := by
  refine ⟨h.widened, fun x hx ↦ ?_⟩
  exact Int.sub_nonneg_of_le (h.sorted.timed x (h.mem_iff.mp hx)).le

/-- Children stand in their parent, one after the other. -/
theorem holds (hx : x ∈ events) :
    Forest.Holds (startOf adjusted) (durationOf adjusted) x (tree x).children :=
  (all_iff_of_mem h.callForest.children).mp (h.wide.all_holds_roots h.placed.apart) x
    (h.mem_iff.mpr hx)

theorem durations (hx : x ∈ events) : durationOf tree x ≤ durationOf adjusted x := by
  have hle := h.widened.le x (h.mem_iff.mpr hx)
  have hstart := h.callTree.times.start x
  have hend := h.callTree.times.end_ x
  rw [durationOf, startOf, endOf] at hle ⊢
  omega

theorem pos_iff (hx : x ∈ events) :
    0 < durationOf adjusted x ↔ startOf initial x < endOf initial x := by
  have hmem : x ∈ (forest.select fun y ↦
      decide ((initial y).startTid = (initial x).startTid)).nodes := by
    rw [h.callForest.nodes_select]
    exact mem_onThread_self hx
  apply h.wide.select.widened.pos_iff (h.callForest.innerPositive h.callTree _) _ x hmem
  intro y hy
  rw [h.callForest.nodes_select] at hy
  exact (h.sorted.timed y (mem_of_mem_onThread hy)).le

/-- The events of a thread stay in their order. -/
theorem pairwise_start (t : Nat) :
    (onThread initial t events).Pairwise fun x y ↦ startOf adjusted x ≤ startOf adjusted y := by
  have hstarts := h.wide.select.starts_roots (h.wide.apart_select
    (p := fun x ↦ decide ((initial x).startTid = t)) h.placed.apart)
  rw [h.callForest.nodes_select] at hstarts
  exact hstarts

theorem onThread_sortBy (t : Nat) :
    onThread initial t (sortBy (startOf adjusted) events) = onThread initial t events := by
  have hsub := (sublist_sortBy filter_sublist (h.pairwise_start t)).filter fun x ↦
    decide ((initial x).startTid = t)
  rw [filter_filter] at hsub
  simp only [Bool.and_self] at hsub
  exact (hsub.eq_of_length ((sortBy_perm _ events).filter _).length_eq.symm).symm

/-- Siblings keep their order. -/
theorem children_sublist (hx : x ∈ events) :
    (tree x).children.Sublist (sortBy (fun y ↦ (resetTree adjusted events y).startTimeNs) events) := by
  have hkey : (fun y ↦ (resetTree adjusted events y).startTimeNs) = startOf adjusted :=
    startOf_resetTree adjusted events
  rw [hkey]
  apply sublist_sortBy
  · rw [h.callTree.children x hx]
    exact filter_sublist
  · rw [h.callTree.children_eq hx]
    exact (h.pairwise_start _).sublist filter_sublist

/-- The second tree has the parents of the first one if and only if siblings are separate. -/
theorem rebuild (queue : MinQueue Nat Int) : ∃ rebuilt, buildTree queue (resetTree adjusted events)
        (sortBy (fun x ↦ (resetTree adjusted events x).startTimeNs) events) = some rebuilt ∧
      ((∀ x ∈ events, (rebuilt x).parent = (tree x).parent) ↔
        ∀ t, (forest.select fun x ↦ decide ((initial x).startTid = t)).Separate (startOf adjusted)
          (endOf adjusted)) := by
  have hstart := startOf_resetTree adjusted events
  have hend := endOf_resetTree adjusted events
  have htid : ∀ x, (resetTree adjusted events x).startTid = (initial x).startTid := by
    intro x
    obtain ⟨_, _, _, heq⟩ := resetTree_eq adjusted events x
    rw [heq, ← h.callTree.times.tid, ← h.moved.startTid]
  have hsort : sortBy (fun x ↦ (resetTree adjusted events x).startTimeNs) events =
      sortBy (startOf adjusted) events := congrArg (fun key ↦ sortBy key events) hstart
  have hperm := sortBy_perm (startOf adjusted) events
  have hsorted : Sorted (resetTree adjusted events) (sortBy (startOf adjusted) events) := by
    refine ⟨hperm.nodup_iff.mpr h.sorted.nodup, fun x hx ↦ ?_, fun x hx ↦ ?_, ?_⟩
    · rw [resetTree, if_pos (hperm.mem_iff.mp hx)]
      exact ⟨rfl, rfl, rfl⟩
    · have hx := hperm.mem_iff.mp hx
      have hends := h.ends x hx
      constructor
      · show startOf (resetTree adjusted events) x ≤ endOf (resetTree adjusted events) x
        rw [hstart, hend]
        exact hends.le
      · show minTime < endOf (resetTree adjusted events) x
        rw [hend]
        exact hends.real
      · intro e f he
        obtain ⟨_, _, _, heq⟩ := resetTree_eq adjusted events x
        rw [heq] at he
        obtain ⟨e₀, he₀⟩ := h.moved.functionOp he
        rw [h.callTree.times.extraFields] at he₀
        exact (h.sorted.timed x hx).home e₀ f he₀
    · have hpairwise := pairwise_sortBy (startOf adjusted) events
      rw [← hstart] at hpairwise ⊢
      exact hpairwise
  obtain ⟨rebuilt, hbuild, htree⟩ := buildTree_eq queue hsorted
  refine ⟨rebuilt, ?_, ?_⟩
  · rw [hsort]
    exact hbuild
  · have hparents : ∀ t, (onThread initial t events).map (fun x ↦ (x, (rebuilt x).parent)) =
        frameParents (startOf adjusted) (endOf adjusted) [] (onThread initial t events) := by
      intro t
      have hthread := htree.parents t
      have honThread : onThread (resetTree adjusted events) t (sortBy (startOf adjusted) events) =
          onThread initial t events := by
        rw [← h.onThread_sortBy]
        simp only [onThread, htid]
      rw [honThread, hstart, hend] at hthread
      exact hthread
    have hkept : (∀ x ∈ events, (rebuilt x).parent = (tree x).parent) ↔
        ∀ t, (onThread initial t events).map (fun x ↦ (x, (rebuilt x).parent)) =
          (onThread initial t events).map fun x ↦ (x, (tree x).parent) := by
      constructor
      · intro hkept t
        apply map_congr_left
        intro x hx
        rw [hkept x (mem_of_mem_onThread hx)]
      · intro hkept x hx
        have hx' := map_inj_left.mp (hkept (initial x).startTid) x (mem_onThread_self hx)
        exact (Prod.mk.inj hx').2
    rw [hkept]
    apply forall_congr'
    intro t
    have hwide := h.wide.select (p := fun x ↦ decide ((initial x).startTid = t))
    have happart := h.wide.apart_select (p := fun x ↦ decide ((initial x).startTid = t)) h.placed.apart
    have hinside := hwide.startsInside_roots happart
    have hinner : (forest.select fun x ↦ decide ((initial x).startTid = t)).InnerPositive
        (startOf adjusted) (endOf adjusted) := by
      apply (h.callForest.innerPositive h.callTree t).imp
      intro x hx hpos
      rw [h.callForest.nodes_select] at hx
      have hpos := (h.pos_iff (mem_of_mem_onThread hx)).mpr hpos
      rw [durationOf] at hpos
      omega
    have hnodup : (forest.select fun x ↦ decide ((initial x).startTid = t)).nodes.Nodup := by
      rw [h.callForest.nodes_select]
      exact h.sorted.nodup.filter _
    rw [← endOf_eq] at hinside
    have hiff := frameParents_nodes_iff [] [] hinside hinner hnodup (fun _ hx ↦ by cases hx)
      (disjoint_nil_left _) (disjoint_nil_right _)
    rw [h.callForest.nodes_select] at hiff
    rw [hparents, ← h.callForest.threads]
    simpa using hiff

/-! ### The condition -/

theorem tops_eq : forest.tops = events.filter fun x ↦ (frameOf initial events x).isNone := by
  rw [h.callForest.tops]
  apply filter_congr
  intro x hx
  rw [h.callTree.frameOf_eq hx]
  cases (tree x).parent with
  | none | some p => rfl

theorem all_iff_onlyLastLong :
    (forest.All fun _ l ↦ l.Pairwise fun b _ ↦ durationOf adjusted b ≤ 0) ↔
      OnlyLastLong initial events := by
  have hempty : ∀ x ∈ events, durationOf adjusted x ≤ 0 ↔ endOf initial x ≤ startOf initial x := by
    intro x hx
    have hpos := h.pos_iff hx
    omega
  rw [all_iff_of_mem h.callForest.children]
  constructor
  · intro hall x y hxy hsome heq
    have hx := hxy.left_mem
    have hy := hxy.right_mem
    rw [h.callTree.frameOf_eq hx] at hsome heq
    rw [h.callTree.frameOf_eq hy] at heq
    obtain ⟨p, hp⟩ := Option.isSome_iff_exists.mp hsome
    have hmem := (h.callTree.of_parent hx hp).1
    have hpairwise := hall p (h.mem_iff.mpr hmem)
    rw [h.callTree.children p hmem] at hpairwise
    have hsub := hxy.filter fun z ↦ decide ((tree z).parent = some p)
    rw [filter_eq_self.mpr (by simp [hp, ← heq])] at hsub
    exact (hempty x hx).mp (pairwise_iff_forall_sublist.mp hpairwise hsub)
  · intro hlast p hp
    have hp := h.mem_iff.mp hp
    rw [h.callTree.children p hp, pairwise_iff_forall_sublist]
    intro x y hxy
    have hx := mem_filter.mp (hxy.subset mem_cons_self)
    have hy := mem_filter.mp (hxy.subset (mem_cons_of_mem _ mem_cons_self))
    have hpx := of_decide_eq_true hx.2
    have hpy := of_decide_eq_true hy.2
    rw [← h.callTree.frameOf_eq hx.1] at hpx
    rw [← h.callTree.frameOf_eq hy.1] at hpy
    exact (hempty x hx.1).mpr (hlast x y (hxy.trans filter_sublist) (by rw [hpx]; rfl)
      (hpx.trans hpy.symm))

/-- A root is as wide as the longest event up to the next root. -/
theorem treeLength_eq {r : Nat}
    (hall : forest.All fun _ l ↦ l.Pairwise fun b _ ↦ durationOf adjusted b ≤ 0)
    (hr : r ∈ forest.tops) : treeLength initial events r = durationOf adjusted r := by
  rw [← map_fst_toTrees] at hr
  obtain ⟨root, hroot, rfl⟩ := mem_map.mp hr
  have hselect : root ∈ (forest.select fun x ↦
      decide ((initial x).startTid = (initial root.1).startTid)).toTrees := by
    rw [toTrees_select]
    exact mem_filter.mpr ⟨hroot, decide_eq_true rfl⟩
  have hnodup : (forest.select fun x ↦
      decide ((initial x).startTid = (initial root.1).startTid)).nodes.Nodup := by
    rw [h.callForest.nodes_select]
    exact h.sorted.nodup.filter _
  have hup := upToNext_nodes (p := fun x ↦ (frameOf initial events x).isNone) hnodup
    (fun r hr ↦ ?_) (fun tree' htree x hx ↦ ?_) hselect
  · rw [h.callForest.nodes_select] at hup
    rw [treeLength, hup, h.wide.eq_longest_of_mem hall hroot]
  · rw [tops_select, h.tops_eq] at hr
    exact (mem_filter.mp (mem_filter.mp hr).1).2
  · obtain ⟨y, hy⟩ := exists_edge_of_below none htree hx
    rw [h.callForest.threads] at hy
    obtain ⟨z, hz, heq⟩ := mem_map.mp hy
    obtain ⟨rfl, hparent⟩ := Prod.mk.inj heq
    rw [h.callTree.frameOf_eq (mem_of_mem_onThread hz), hparent]
    rfl

theorem runsApart_iff (hall : forest.All fun _ l ↦ l.Pairwise fun b _ ↦ durationOf adjusted b ≤ 0) :
    RunsApart initial events ↔ forest.tops.Pairwise fun b c ↦
      (initial b).startTid = (initial c).startTid → 0 < durationOf adjusted b →
        startOf adjusted b + durationOf adjusted b ≠ startOf adjusted c := by
  rw [RunsApart, ← h.tops_eq, runs_congr fun r hr ↦ h.treeLength_eq hall hr,
    h.placed.runs_eq, pairwise_map]
  simp only [lt_add_iff_pos_right]

theorem separate_iff :
    (∀ t, (forest.select fun x ↦ decide ((initial x).startTid = t)).Separate (startOf adjusted)
        (endOf adjusted)) ↔ OnlyLastLong initial events ∧ RunsApart initial events := by
  have hthread := fun t ↦ Forest.Wide.separate_roots_iff
    (h.wide.select (p := fun x ↦ decide ((initial x).startTid = t))) (h.wide.apart_select h.placed.apart)
  rw [← endOf_eq] at hthread
  simp only [hthread, forall_and, tops_select]
  rw [← all_of_select fun x ↦ (initial x).startTid, forall_pairwise_filter_iff]
  constructor
  · rintro ⟨htops, hall⟩
    exact ⟨h.all_iff_onlyLastLong.mp hall, (h.runsApart_iff hall).mpr htops⟩
  · rintro ⟨hlast, hruns⟩
    have hall := h.all_iff_onlyLastLong.mpr hlast
    exact ⟨(h.runsApart_iff hall).mp hruns, hall⟩

end Laid

/-- The adjusted times keep the tree if and only if of the events in a frame only the last one is
not empty, and no root ends as a later one of its thread starts. -/
theorem adjustAndRebuild_keeps_iff (queue : MinQueue Nat Int) (h : Given initial out) :
    (∃ run, adjustAndRebuild queue initial out = some run ∧ TreeKept run) ↔
      OnlyLastLong initial (sortBy (startOf initial) out) ∧
        RunsApart initial (sortBy (startOf initial) out) := by
  have hperm := sortBy_perm (startOf initial) out
  obtain ⟨tree, adjusted, forest, hbuild, hadjust, hlaid⟩ := exists_laid queue h.sorted
    fun x hx ↦ h.started x (hperm.mem_iff.mp hx)
  obtain ⟨rebuilt, hrebuild, hparents⟩ := hlaid.rebuild queue
  rw [hperm.length_eq] at hadjust
  have hrun : adjustAndRebuild queue initial out = some ⟨sortBy (startOf initial) out, tree, adjusted,
      sortBy (fun x ↦ (resetTree adjusted (sortBy (startOf initial) out) x).startTimeNs)
        (sortBy (startOf initial) out), rebuilt⟩ := by
    have hkey : (fun x ↦ (initial x).startTimeNs) = startOf initial := rfl
    rw [adjustAndRebuild, hkey]
    simp only [hbuild, hadjust, hrebuild, Option.bind_eq_bind, Option.bind_some]
    rfl
  rw [← hlaid.separate_iff, ← hparents]
  constructor
  · rintro ⟨run, heq, hkept⟩
    rw [hrun] at heq
    cases heq
    exact hkept.parents
  · intro hkept
    have hend := fun x ↦ congrFun (endOf_eq adjusted) x
    refine ⟨_, hrun, ?_, ?_, ?_, ?_, ?_, hkept⟩
    · intro p hp x hx
      simp only [hend]
      exact (hlaid.holds hp).1 x hx
    · intro p hp
      simp only [hend]
      exact (hlaid.holds hp).2
    · simp only [hend]
      rw [← hlaid.callForest.tops]
      exact hlaid.wide.roots_apart hlaid.placed.apart
    · exact fun x hx ↦ hlaid.durations hx
    · intro p hp
      exact hlaid.children_sublist hp

/-! ### Two runs -/

/-- An op in another one. -/
theorem adjustAndRebuild_keeps_iff_nested : ∃ run,
    adjustAndRebuild .first (opsOf [(0, 10), (1, 4)]) [0, 1] = some run ∧ TreeKept run := by
  have htimed : ∀ x ∈ [0, 1], Timed (opsOf [(0, 10), (1, 4)] x) := by
    simp only [forall_mem_cons]
    exact ⟨timed_opsOf rfl (by decide) (by decide), timed_opsOf rfl (by decide) (by decide), nofun⟩
  have hsort : sortBy (startOf (opsOf [(0, 10), (1, 4)])) [0, 1] = [0, 1] :=
    sortBy_of_pairwise (by decide)
  apply (adjustAndRebuild_keeps_iff .first
    ⟨by decide, fun x _ ↦ fresh_opsOf _ x, htimed, by decide⟩).mpr
  rw [hsort]
  constructor
  · intro x y hxy
    have hcond : ∀ x ∈ [0, 1], ∀ y ∈ [0, 1], Before [0, 1] x y →
        (frameOf (opsOf [(0, 10), (1, 4)]) [0, 1] x).isSome = true →
          frameOf (opsOf [(0, 10), (1, 4)]) [0, 1] x = frameOf (opsOf [(0, 10), (1, 4)]) [0, 1] y →
            endOf (opsOf [(0, 10), (1, 4)]) x ≤ startOf (opsOf [(0, 10), (1, 4)]) x := by
      unfold Before
      decide
    exact hcond x hxy.left_mem y hxy.right_mem hxy
  · unfold RunsApart
    decide

/-- Two ops in one are laid out back to back, and the second one is put under the first one. -/
theorem adjustAndRebuild_siblings : Given (opsOf [(0, 10), (1, 4), (5, 10)]) [0, 1, 2] ∧ ∃ run,
    adjustAndRebuild .first (opsOf [(0, 10), (1, 4), (5, 10)]) [0, 1, 2] = some run ∧
      (run.tree 2).parent = some 0 ∧ (run.rebuilt 2).parent = some 1 ∧ ¬ TreeKept run := by
  have htimed : ∀ x ∈ [0, 1, 2], Timed (opsOf [(0, 10), (1, 4), (5, 10)] x) := by
    simp only [forall_mem_cons]
    exact ⟨timed_opsOf rfl (by decide) (by decide), timed_opsOf rfl (by decide) (by decide),
      timed_opsOf rfl (by decide) (by decide), nofun⟩
  have hsort : ∀ key : Nat → Int, key 0 ≤ key 1 ∧ key 1 ≤ key 2 → sortBy key [0, 1, 2] = [0, 1, 2] := by
    intro key hkey
    apply sortBy_of_pairwise
    simp
    omega
  refine ⟨⟨by decide, fun x _ ↦ fresh_opsOf _ x, htimed, by decide⟩, ?_⟩
  have hsteps : ((buildTree .first (opsOf [(0, 10), (1, 4), (5, 10)]) [0, 1, 2]).bind fun tree ↦
      (adjustTimestamps 3 tree [0, 1, 2]).bind fun adjusted ↦
        (buildTree .first (resetTree adjusted [0, 1, 2]) [0, 1, 2]).map fun rebuilt ↦
          ([0, 1, 2].map fun x ↦ (resetTree adjusted [0, 1, 2] x).startTimeNs,
            (tree 2).parent, (rebuilt 2).parent)) = some ([0, 2, 5], some 0, some 1) := by
    decide +kernel
  obtain ⟨tree, hbuild, hsteps⟩ := Option.bind_eq_some_iff.mp hsteps
  obtain ⟨adjusted, hadjust, hsteps⟩ := Option.bind_eq_some_iff.mp hsteps
  obtain ⟨rebuilt, hrebuild, heq⟩ := Option.map_eq_some_iff.mp hsteps
  simp only [map_cons, map_nil, Prod.mk.injEq, cons.injEq, and_true] at heq
  obtain ⟨⟨hstart₀, hstart₁, hstart₂⟩, htree, hrebuilt⟩ := heq
  refine ⟨⟨[0, 1, 2], tree, adjusted, [0, 1, 2], rebuilt⟩, ?_, htree, hrebuilt, fun hkept ↦ ?_⟩
  · rw [adjustAndRebuild, hsort _ (by decide)]
    simp only [hbuild]
    show (adjustTimestamps 3 tree [0, 1, 2]).bind _ = _
    simp only [hadjust, Option.bind_some]
    rw [hsort _ (by rw [hstart₀, hstart₁, hstart₂]; decide), hrebuild]
    rfl
  · have hparent := hkept.parents 2 (by simp)
    rw [hrebuilt, htree] at hparent
    cases hparent

end Hisab.Profiler.Collection
