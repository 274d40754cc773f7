import Hisab.Base.NestedCover
import Hisab.Profiler.HotspotRows
import Hisab.Profiler.ScopeNesting

/-!
# The times of the hotspot report

The rows of the report add up to the recorded time unless a scope bears the name of the synthetic
root, or a scope is nested under a shorter one that starts with it inside a longer one.
-/

namespace Hisab.Profiler

open Base List FlatEvent

/-! ### The own times of a line -/

/-- The length of the event of a node. -/
def nodeSpan (node : ScopeData) : Nat := span FlatEvent.startNs FlatEvent.endNs node.event

section Lines

variable {threadLabel : List Char} {s : Spine ScopeData} {events earlier : List FlatEvent}
  {hostLine : XPlane × XLine} {t : Int}

theorem lineEvents_le {plane : XPlane} {line : XLine} {e : FlatEvent}
    (he : e ∈ lineEvents plane line) : e.startNs ≤ e.endNs := by
  obtain ⟨⟨event, recorded⟩, -, hevent⟩ := mem_filterMap.mp he
  dsimp only at hevent
  split at hevent <;> cases hevent
  exact Int.le_add_of_nonneg_right (le_max_left ..)

variable (threadLabel) in
/-- The own times of a line are at least the time it covers, and more if there is an inversion. -/
theorem selfSum_foldl (hs : Nested FlatEvent.startNs FlatEvent.endNs ScopeData.event s earlier t)
    (hsorted : (t :: events.map FlatEvent.startNs).Pairwise (· ≤ ·))
    (hle : ∀ e ∈ events, e.startNs ≤ e.endNs)
    (hnested : ∀ a ∈ earlier ++ events, ∀ b ∈ events,
      NestedOrDisjoint FlatEvent.startNs FlatEvent.endNs a b) :
    unionLength FlatEvent.startNs FlatEvent.endNs (events.reverse ++ earlier) + s.selfSum nodeSpan ≤
        (events.foldl (nestLineEvent threadLabel) s).selfSum nodeSpan +
          unionLength FlatEvent.startNs FlatEvent.endNs earlier ∧
      (unionLength FlatEvent.startNs FlatEvent.endNs (events.reverse ++ earlier) +
          s.selfSum nodeSpan =
        (events.foldl (nestLineEvent threadLabel) s).selfSum nodeSpan +
          unionLength FlatEvent.startNs FlatEvent.endNs earlier ↔
        NoInversion FlatEvent.startNs FlatEvent.endNs earlier events) := by
  induction events generalizing s earlier t with
  | nil =>
    rw [reverse_nil, nil_append, foldl_nil, Nat.add_comm]
    exact ⟨Nat.le_refl _, iff_of_true rfl trivial⟩
  | cons event events ih =>
    obtain ⟨ht, hsorted⟩ := pairwise_cons.mp hsorted
    have ht : t ≤ event.startNs := ht _ (.head _)
    let node : ScopeData :=
      { event, depthLevel := (((s.closeWhile fun node ↦
          decide (node.event.endNs ≤ event.startNs)).top.map ScopeData.depthLevel).getD 0) + 1
        threadLabel }
    have hstep : nestLineEvent threadLabel s event =
      nest startNs endNs ScopeData.event s node := rfl
    have hnext := hs.next (b := node) ht (hle event (.head _))
    obtain ⟨hadd, hadd_iff⟩ := hs.selfSum_nest (b := node) ht (hle event (.head _))
      fun y hy ↦ hnested y (mem_append_left _ hy) event (.head _)
    obtain ⟨hrest, hrest_iff⟩ := ih hnext hsorted (fun e he ↦ hle e (.tail _ he)) (by
      intro a ha b hb
      refine hnested a ?_ b (.tail _ hb)
      simp only [mem_append, mem_cons] at ha ⊢
      obtain (rfl | ha) | ha := ha
      · exact .inr (.inl rfl)
      · exact .inl ha
      · exact .inr (.inr ha))
    have hspan : span startNs endNs ∘ ScopeData.event = nodeSpan := rfl
    have hevent : node.event = event := rfl
    rw [← hstep, hspan, hevent] at hadd hadd_iff
    rw [← hstep, hevent] at hrest hrest_iff
    rw [reverse_cons, append_assoc, singleton_append, foldl_cons, NoInversion,
      ← hadd_iff, ← hrest_iff]
    exact ⟨by omega, by omega⟩

/-- The sorted events of a line are in the order of their starts from the first one on. -/
theorem sorted_from_head {event : FlatEvent} {events : List FlatEvent}
    (h : (event :: events).Pairwise fun a b ↦ a.startNs ≤ b.startNs) :
    (event.startNs :: (event :: events).map FlatEvent.startNs).Pairwise (· ≤ ·) := by
  have hmap := pairwise_map.mpr h
  refine pairwise_cons.mpr ⟨fun t ht ↦ ?_, hmap⟩
  obtain rfl | ht := mem_cons.mp ht
  · exact le_rfl
  · exact (pairwise_cons.mp hmap).1 t ht

/-- The own times of the tree of a line. -/
theorem selfSum_lineForest (hnested : ∀ a ∈ lineEvents hostLine.1 hostLine.2,
      ∀ b ∈ lineEvents hostLine.1 hostLine.2,
        NestedOrDisjoint FlatEvent.startNs FlatEvent.endNs a b) :
    unionLength FlatEvent.startNs FlatEvent.endNs (lineEvents hostLine.1 hostLine.2) ≤
        (lineForest hostLine).selfSum nodeSpan ∧
      (unionLength FlatEvent.startNs FlatEvent.endNs (lineEvents hostLine.1 hostLine.2) =
        (lineForest hostLine).selfSum nodeSpan ↔ NoInversion FlatEvent.startNs FlatEvent.endNs []
            (collectLineEvents hostLine.1 hostLine.2)) := by
  have hperm : (collectLineEvents hostLine.1 hostLine.2).Perm (lineEvents hostLine.1 hostLine.2) :=
    sortBy_perm ..
  have hsorted : (collectLineEvents hostLine.1 hostLine.2).Pairwise
      fun a b ↦ a.startNs ≤ b.startNs := pairwise_sortBy ..
  rw [lineForest, nestLineEvents, Spine.selfSum_toForest, ← unionLength_perm hperm]
  cases hevents : collectLineEvents hostLine.1 hostLine.2 with
  | nil => exact ⟨Nat.le_refl _, iff_of_true rfl trivial⟩
  | cons event events =>
    rw [hevents] at hperm hsorted
    have hmem : ∀ {e}, e ∈ event :: events → e ∈ lineEvents hostLine.1 hostLine.2 :=
      fun he ↦ hperm.mem_iff.mp he
    have h := selfSum_foldl (lineThreadLabel hostLine.2) .start_
      (sorted_from_head hsorted) (fun e he ↦ lineEvents_le (hmem he))
      fun a ha b hb ↦ hnested a (hmem ha) b (hmem hb)
    rw [append_nil, unionLength_perm (reverse_perm (event :: events))] at h
    exact h

end Lines

/-! ### The records of a tree -/

section Records

variable {forest : Forest ScopeData}

theorem records_nodes (forest : Forest ScopeData) : (records forest).map Prod.fst =
    forest.nodes.filter fun node ↦ decide (node.event.name ≠ syntheticRootName) := by
  induction forest with
  | nil => rfl
  | node node children siblings ihc ihs =>
    rw [records, map_append, map_append, ihc, ihs, Forest.nodes]
    by_cases hname : node.event.name = syntheticRootName
    · simp [hname]
    · simp [hname]

theorem records_root {root : ScopeData} (h : root.event.name = syntheticRootName)
    (children : Forest ScopeData) :
    records (.node root children .nil) = records children := by
  rw [records, if_pos h, nil_append, records, append_nil]

theorem records_le {r : ScopeData × Nat} (hr : r ∈ records forest) : r.2 ≤ nodeTotalNs r.1 := by
  induction forest with
  | nil => cases hr
  | node node children siblings ihc ihs =>
    rw [records, mem_append, mem_append] at hr
    obtain (hr | hr) | hr := hr
    · split at hr
      next => cases hr
      next =>
        obtain rfl := mem_singleton.mp hr
        exact Nat.sub_le ..
    · exact ihc hr
    · exact ihs hr

theorem foldl_mod (totals : List Nat) (sum : Nat) (h : sum + totals.sum < SizeT.modulus) :
    totals.foldl (fun sum total ↦ (sum + total) % SizeT.modulus) sum = sum + totals.sum := by
  induction totals generalizing sum with
  | nil => rfl
  | cons total totals ih =>
    rw [sum_cons] at h
    rw [foldl_cons, Nat.mod_eq_of_lt (by omega), ih _ (by omega), sum_cons]
    omega

variable (forest) in
theorem childrenTotalNs_eq (hexact : ∀ node ∈ forest.nodes, nodeTotalNs node = nodeSpan node)
    (hlt : forest.total nodeSpan < SizeT.modulus) :
    childrenTotalNs forest = forest.topSum nodeSpan := by
  have hmap : forest.tops.map nodeTotalNs = forest.tops.map nodeSpan := by
    refine map_congr_left fun node hnode ↦ hexact node ?_
    rw [← Forest.map_fst_edges forest none]
    exact mem_map_of_mem (Forest.mem_edges_of_mem_tops none hnode)
  have hle := (Forest.topSum_le_total forest).trans_lt hlt
  rw [Forest.topSum] at hle
  rw [childrenTotalNs, hmap, foldl_mod _ _ (by omega), Forest.topSum, Nat.zero_add]

/-- Without a scope of the root's name the self times are the own times of the tree. -/
theorem selfTotalNs_records (hname : ∀ node ∈ forest.nodes, node.event.name ≠ syntheticRootName)
    (hexact : ∀ node ∈ forest.nodes, nodeTotalNs node = nodeSpan node)
    (hlt : forest.total nodeSpan < SizeT.modulus) :
    selfTotalNs (records forest) = forest.selfSum nodeSpan := by
  induction forest with
  | nil => rfl
  | node node children siblings ihc ihs =>
    rw [Forest.total_node] at hlt
    simp only [Forest.nodes, cons_append, mem_cons, mem_append] at hname hexact
    have hchildren := childrenTotalNs_eq children (fun n hn ↦ hexact n (.inr (.inl hn))) (by omega)
    rw [records, if_neg (hname node (.inl rfl)), selfTotalNs_append, selfTotalNs_append,
      ihc (fun n hn ↦ hname n (.inr (.inl hn))) (fun n hn ↦ hexact n (.inr (.inl hn))) (by omega),
      ihs (fun n hn ↦ hname n (.inr (.inr hn))) (fun n hn ↦ hexact n (.inr (.inr hn))) (by omega),
      Forest.selfSum, ← hchildren, ← hexact node (.inl rfl)]
    simp [selfTotalNs, selfNs]

end Records

/-! ### The rows of a space -/

section Space

variable {space : XSpace}

/-- The events of the host lines of a space. -/
def spaceEvents (space : XSpace) : List FlatEvent :=
  (hostLines space).flatMap fun l ↦ lineEvents l.1 l.2

theorem nodes_lineForest_perm (l : XPlane × XLine) :
    ((lineForest l).nodes.map ScopeData.event).Perm (lineEvents l.1 l.2) := by
  have h := nodes_lineForest l
  rw [← Forest.map_fst_edges (lineForest l) none, map_map]
  exact (List.Perm.of_eq h).trans (sortBy_perm ..)

/-- The nodes of the tree are the events. -/
theorem nodes_spaceForest_perm (space : XSpace) :
    ((spaceForest space).nodes.map ScopeData.event).Perm (spaceEvents space) := by
  rw [spaceForest, spaceEvents]
  induction hostLines space with
  | nil => exact .nil
  | cons l lines ih =>
    rw [foldr_cons, Forest.nodes_append, map_append]
    exact (nodes_lineForest_perm l).append ih

theorem selfSum_spaceForest (space : XSpace) : (spaceForest space).selfSum nodeSpan =
    ((hostLines space).map fun l ↦ (lineForest l).selfSum nodeSpan).sum := by
  rw [spaceForest]
  induction hostLines space with
  | nil => rfl
  | cons l lines ih => rw [foldr_cons, Forest.selfSum_append, ih, map_cons, sum_cons]

/-- The rows of the report are those of the records of the tree. -/
theorem hotspots_perm (space : XSpace) : (hotspots (buildScopeTree space)).Perm
    ((records (spaceForest space)).foldl addRecord []) := by
  rw [buildScopeTree_eq]
  split
  next =>
    refine (mergeSort_perm ..).trans ?_
    rw [accumulate_hotspots, records_root rfl]
  next hnone =>
    have hempty : spaceEvents space = [] := by
      refine flatMap_eq_nil_iff.mpr fun l hl ↦ ?_
      by_contra hne
      exact hnone (any_eq_true.mpr ⟨l, hl, decide_eq_true hne⟩)
    have hnodes := nodes_spaceForest_perm space
    rw [hempty] at hnodes
    have hnil := map_eq_nil_iff.mp (perm_nil.mp hnodes)
    have hrecords := records_nodes (spaceForest space)
    rw [hnil] at hrecords
    rw [map_eq_nil_iff.mp hrecords]
    exact .nil

/-- The rows account for all recorded time. -/
structure HotspotsAccounted (space : XSpace) (rows : List HotspotEntry) : Prop where
  selfTimes : (rows.map HotspotEntry.selfTimeNs).sum = ((hostLines space).map fun l ↦
    unionLength FlatEvent.startNs FlatEvent.endNs (lineEvents l.1 l.2)).sum
  callCounts : (rows.map HotspotEntry.callCount).sum = (spaceEvents space).length
  totals : ∀ row ∈ rows, row.totalTimeNs = (((spaceEvents space).filter fun e ↦
    decide (e.name = row.name)).map (span FlatEvent.startNs FlatEvent.endNs)).sum
  self_le : ∀ row ∈ rows, row.selfTimeNs ≤ row.totalTimeNs

theorem HotspotsAccounted.of_perm {rows rows' : List HotspotEntry} (hperm : rows.Perm rows')
    (h : HotspotsAccounted space rows) : HotspotsAccounted space rows' where
  selfTimes := (hperm.map _).sum_eq.symm.trans h.selfTimes
  callCounts := (hperm.map _).sum_eq.symm.trans h.callCounts
  totals row hrow := h.totals row (hperm.mem_iff.mpr hrow)
  self_le row hrow := h.self_le row (hperm.mem_iff.mpr hrow)

/-- Sums with terms that are at least those of another are equal if all terms are. -/
theorem sum_map_eq_iff {α : Type} {f g : α → Nat} (l : List α) (h : ∀ a ∈ l, f a ≤ g a) :
    (l.map f).sum = (l.map g).sum ↔ ∀ a ∈ l, f a = g a := by
  induction l with
  | nil => simp
  | cons a l ih =>
    have hsum : (l.map f).sum ≤ (l.map g).sum := sum_le_sum fun b hb ↦ h b (.tail _ hb)
    have ha := h a (.head _)
    rw [map_cons, map_cons, sum_cons, sum_cons, forall_mem_cons, ← ih fun b hb ↦ h b (.tail _ hb)]
    omega

section Exact

variable (hexact : ∀ e ∈ spaceEvents space,
    Double.roundInt (e.endNs - e.startNs) = e.endNs - e.startNs)
  (hlt : ((spaceEvents space).map (span FlatEvent.startNs FlatEvent.endNs)).sum < SizeT.modulus)

include hexact in
theorem nodeTotalNs_eq {node : ScopeData} (hnode : node ∈ (spaceForest space).nodes) :
    nodeTotalNs node = nodeSpan node := by
  have hevent := (nodes_spaceForest_perm space).mem_iff.mp (mem_map_of_mem hnode)
  rw [nodeTotalNs, hexact node.event hevent]
  rfl

theorem total_spaceForest : (spaceForest space).total nodeSpan =
    ((spaceEvents space).map (span FlatEvent.startNs FlatEvent.endNs)).sum := by
  have h := ((nodes_spaceForest_perm space).map (span startNs endNs)).sum_eq
  rw [map_map] at h
  exact h

/-- Every call is counted unless a scope bears the name of the synthetic root. -/
theorem callCounts_iff : (((records (spaceForest space)).foldl addRecord []).map
      HotspotEntry.callCount).sum = (spaceEvents space).length ↔
    ∀ e ∈ spaceEvents space, e.name ≠ syntheticRootName := by
  have hnodes := nodes_spaceForest_perm space
  have hlength := congrArg length (records_nodes (spaceForest space))
  rw [length_map] at hlength
  rw [callCounts_foldl, hlength, ← hnodes.length_eq, length_map]
  simp only [map_nil, sum_nil, Nat.zero_add, length_filter_eq_length_iff, decide_eq_true_eq]
  constructor
  · intro h e he
    obtain ⟨node, hnode, rfl⟩ := mem_map.mp (hnodes.mem_iff.mpr he)
    exact h node hnode
  · exact fun h node hnode ↦ h _ (hnodes.mem_iff.mp (mem_map_of_mem hnode))

variable (hname : ∀ e ∈ spaceEvents space, e.name ≠ syntheticRootName)

include hname in
theorem node_name_ne {node : ScopeData} (hnode : node ∈ (spaceForest space).nodes) :
    node.event.name ≠ syntheticRootName :=
  hname _ ((nodes_spaceForest_perm space).mem_iff.mp (mem_map_of_mem hnode))

include hname in
theorem records_fst : (records (spaceForest space)).map Prod.fst = (spaceForest space).nodes := by
  rw [records_nodes, filter_eq_self]
  exact fun node hnode ↦ decide_eq_true (node_name_ne hname hnode)

include hexact hname in
theorem totalNs_named (name : List Char) : totalNs (named name (records (spaceForest space))) =
    (((spaceEvents space).filter fun e ↦ decide (e.name = name)).map
      (span FlatEvent.startNs FlatEvent.endNs)).sum := by
  have hnodes : (named name (records (spaceForest space))).map Prod.fst =
      (spaceForest space).nodes.filter fun node ↦ decide (node.event.name = name) := by
    rw [named, ← records_fst hname, filter_map]
    rfl
  have hperm := ((nodes_spaceForest_perm space).filter fun e ↦ decide (e.name = name)).map
    (span startNs endNs)
  rw [filter_map, map_map] at hperm
  rw [totalNs_eq, ← hperm.sum_eq, hnodes]
  refine congrArg sum (map_congr_left fun node hnode ↦ ?_)
  exact nodeTotalNs_eq hexact (mem_of_mem_filter hnode)

include hexact hlt hname in
theorem totalNs_records_lt : totalNs (records (spaceForest space)) < SizeT.modulus := by
  have hmap : (spaceForest space).nodes.map nodeTotalNs = (spaceForest space).nodes.map nodeSpan :=
    map_congr_left fun node hnode ↦ nodeTotalNs_eq hexact hnode
  rw [totalNs_eq, records_fst hname, hmap]
  exact total_spaceForest.trans_lt hlt

include hexact hlt hname in
theorem accounted_iff (hnested : ∀ l ∈ hostLines space, ∀ a ∈ lineEvents l.1 l.2,
      ∀ b ∈ lineEvents l.1 l.2, NestedOrDisjoint FlatEvent.startNs FlatEvent.endNs a b) :
    HotspotsAccounted space ((records (spaceForest space)).foldl addRecord []) ↔
      ∀ l ∈ hostLines space,
        NoInversion FlatEvent.startNs FlatEvent.endNs [] (collectLineEvents l.1 l.2) := by
  have hsummary := summary_foldl (fun r hr ↦ records_le hr) (totalNs_records_lt hexact hlt hname)
  have hself : (((records (spaceForest space)).foldl addRecord []).map
      HotspotEntry.selfTimeNs).sum =
        ((hostLines space).map fun l ↦ (lineForest l).selfSum nodeSpan).sum := by
    rw [hsummary.selfTimes, selfTotalNs_records (fun node ↦ node_name_ne hname)
      (fun node ↦ nodeTotalNs_eq hexact) (total_spaceForest.trans_lt hlt), selfSum_spaceForest]
  have hsum := sum_map_eq_iff (hostLines space) (fun l hl ↦ (selfSum_lineForest (hnested l hl)).1)
  have hline : (∀ l ∈ hostLines space, NoInversion startNs endNs []
      (collectLineEvents l.1 l.2)) ↔ ∀ l ∈ hostLines space, unionLength startNs
        endNs (lineEvents l.1 l.2) = (lineForest l).selfSum nodeSpan :=
    forall₂_congr fun l hl ↦ (selfSum_lineForest (hnested l hl)).2.symm
  rw [hline, ← hsum]
  refine ⟨fun h ↦ h.selfTimes.symm.trans hself, fun heq ↦ ⟨hself.trans heq.symm,
    callCounts_iff.mpr hname, fun row hrow ↦ ?_, fun row hrow ↦ ?_⟩⟩
  · rw [hsummary.totals row hrow, totalNs_named hexact hname]
  · rw [hsummary.totals row hrow, hsummary.selfs row hrow]
    exact selfTotalNs_named_le _ fun r hr ↦ records_le hr

end Exact

/-- While durations are exact as doubles and no sum exceeds 64 bits, the report accounts for all
recorded time if and only if no scope bears the name of the synthetic root and no event that
comes before two events of one start, the shorter one first, ends after the shorter one. -/
theorem hotspots_accounted_iff (space : XSpace)
    (hnested : ∀ l ∈ hostLines space, ∀ a ∈ lineEvents l.1 l.2, ∀ b ∈ lineEvents l.1 l.2,
      NestedOrDisjoint FlatEvent.startNs FlatEvent.endNs a b)
    (hexact : ∀ e ∈ spaceEvents space, Double.roundInt (e.endNs - e.startNs) = e.endNs - e.startNs)
    (hlt : ((spaceEvents space).map (span FlatEvent.startNs FlatEvent.endNs)).sum < SizeT.modulus) :
    HotspotsAccounted space (hotspots (buildScopeTree space)) ↔
      (∀ e ∈ spaceEvents space, e.name ≠ syntheticRootName) ∧
        ∀ l ∈ hostLines space, ∀ p i j, [p, i, j].Sublist (collectLineEvents l.1 l.2) →
          i.startNs = j.startNs → i.startNs < i.endNs → i.endNs < j.endNs → p.endNs ≤ i.endNs := by
  have hinv : (∀ l ∈ hostLines space, NoInversion startNs endNs []
      (collectLineEvents l.1 l.2)) ↔ ∀ l ∈ hostLines space, ∀ p i j,
        [p, i, j].Sublist (collectLineEvents l.1 l.2) → i.startNs = j.startNs →
          i.startNs < i.endNs → i.endNs < j.endNs → p.endNs ≤ i.endNs :=
    forall₂_congr fun l _ ↦ noInversion_iff (pairwise_sortBy ..)
  rw [← hinv]
  constructor
  · intro h
    have h := h.of_perm (hotspots_perm space)
    have hname := callCounts_iff.mp h.callCounts
    exact ⟨hname, (accounted_iff hexact hlt hname hnested).mp h⟩
  · rintro ⟨hname, hinversion⟩
    exact ((accounted_iff hexact hlt hname hnested).mpr hinversion).of_perm
      (hotspots_perm space).symm

end Space

/-- Two nested scopes with names of their own. -/
theorem nested_scopes_accounted : HotspotsAccounted { planes := [(twoScopes (-1000)).1] }
    (hotspots (buildScopeTree { planes := [(twoScopes (-1000)).1] })) := by
  refine (hotspots_accounted_iff _ ?_ ?_ ?_).mpr ⟨?_, ?_⟩
  · intro l hl
    obtain rfl := mem_singleton.mp hl
    exact (recordedScopes_pair (-1) (by decide)).nested
  · decide
  · decide
  · decide
  · intro l hl p i j hsub
    obtain rfl := mem_singleton.mp hl
    have hlength := hsub.length_le
    rw [collectLineEvents, (sortBy_perm ..).length_eq] at hlength
    exact absurd hlength (show ¬ 3 ≤ 2 by decide)

/-- A host plane with one line of one scope that bears the name of the synthetic root. -/
def rootScope : XPlane × XLine :=
  let line : XLine := { events := [{ metadataId := 1, durationPs := 5000 }] }
  ({ name := hostThreadsPlaneName
     lines := [line]
     eventMetadata := [(1, { name := syntheticRootName })] }, line)

/-- A scope that bears the name of the synthetic root is not accounted for. -/
theorem root_scope_not_accounted : ∃ space : XSpace,
    (∀ l ∈ hostLines space, ∀ a ∈ lineEvents l.1 l.2, ∀ b ∈ lineEvents l.1 l.2,
      NestedOrDisjoint FlatEvent.startNs FlatEvent.endNs a b) ∧
    ¬ HotspotsAccounted space (hotspots (buildScopeTree space)) := by
  refine ⟨{ planes := [rootScope.1] }, ?_, fun h ↦ ?_⟩
  · intro l hl a ha b hb
    obtain rfl := mem_singleton.mp hl
    rw [mem_singleton.mp ha, mem_singleton.mp hb]
    exact .inr (.inr (.inl ⟨le_rfl, le_rfl⟩))
  · have hcounts := (h.of_perm (hotspots_perm _)).callCounts
    refine callCounts_iff.mp hcounts ⟨0, 5, syntheticRootName, 0⟩ ?_ rfl
    exact .head _

end Hisab.Profiler
