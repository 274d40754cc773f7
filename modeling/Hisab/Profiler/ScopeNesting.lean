import Hisab.Base.LastOpen
import Hisab.Profiler.ScopeTree

/-!
# The nesting of a scope tree

What the tree of a line says about its events: each of them is a node once, under the last one
before it in start order that is still open. That is the scope around it as long as no two
scopes start at the same time.
-/

namespace Hisab.Profiler

open Base List Spine FlatEvent

/-! ### The edges of a line -/

/-- The events of an edge. -/
def edgeEvents (edge : ScopeData × Option ScopeData) : FlatEvent × Option FlatEvent :=
  (edge.1.event, edge.2.map ScopeData.event)

/-- What a line adds to the tree. -/
def lineForest (hostLine : XPlane × XLine) : Forest ScopeData :=
  nestLineEvents (collectLineEvents hostLine.1 hostLine.2) (lineThreadLabel hostLine.2) .nil

section NestLine

variable {threadLabel : List Char} {s : Spine ScopeData} {event : FlatEvent}
  {events earlier : List FlatEvent}

theorem elements_nestLineEvent : (nestLineEvent threadLabel s event).elements.map ScopeData.event =
    event :: dropEnded FlatEvent.endNs event.startNs (s.elements.map ScopeData.event) := by
  rw [nestLineEvent, elements_push, elements_closeWhile, dropEnded, dropWhile_map]
  rfl

theorem edges_nestLineEvent (t : Int) (ht : t ≤ event.startNs)
    (h : ShowsOpen FlatEvent.endNs (s.elements.map ScopeData.event) earlier t) :
    (nestLineEvent threadLabel s event).edges.map edgeEvents = s.edges.map edgeEvents ++
      [(event, lastOpen FlatEvent.endNs earlier event.startNs)] := by
  rw [nestLineEvent, edges_push, edges_closeWhile, map_append]
  rw [top_eq, elements_closeWhile, ← (h.mono ht).head?, dropEnded, dropWhile_map, head?_map]
  rfl

/-- Each event is put under the last one that is open at its start. -/
theorem edges_foldl_nestLineEvent (t : Int)
    (hsorted : (t :: events.map FlatEvent.startNs).Pairwise (· ≤ ·))
    (h : ShowsOpen FlatEvent.endNs (s.elements.map ScopeData.event) earlier t) :
    (events.foldl (nestLineEvent threadLabel) s).edges.map edgeEvents = s.edges.map edgeEvents ++
      openParents FlatEvent.startNs FlatEvent.endNs earlier events := by
  induction events generalizing s earlier t with
  | nil => simp [openParents]
  | cons event events ih =>
    obtain ⟨ht, hsorted⟩ := pairwise_cons.mp hsorted
    have ht : t ≤ event.startNs := ht _ (.head _)
    rw [foldl_cons, ih event.startNs hsorted ?_, edges_nestLineEvent t ht h, append_assoc]
    · rfl
    · rw [elements_nestLineEvent]
      exact (h.mono ht).push event

/-- A node is one level below its parent. -/
def DepthsOk (edges : List (ScopeData × Option ScopeData)) : Prop :=
  ∀ edge ∈ edges, edge.1.depthLevel = (edge.2.map ScopeData.depthLevel).getD 0 + 1

theorem depthsOk_foldl (events : List FlatEvent) (h : DepthsOk s.edges) :
    DepthsOk (events.foldl (nestLineEvent threadLabel) s).edges := by
  induction events generalizing s with
  | nil => exact h
  | cons event events ih =>
    refine ih ?_
    rw [nestLineEvent, edges_push, edges_closeWhile]
    intro edge hedge
    obtain hedge | hedge := mem_append.mp hedge
    · exact h edge hedge
    · obtain rfl := mem_singleton.mp hedge
      rfl

theorem nestLineEvent_append (front : Forest ScopeData) :
    nestLineEvent threadLabel { s with roots := front.append s.roots } event =
      { nestLineEvent threadLabel s event with
        roots := front.append (nestLineEvent threadLabel s event).roots } := by
  simp only [nestLineEvent, closeWhile, closeOf_append]
  rfl

/-- What the root has already stays in front. -/
theorem nestLineEvents_append (events : List FlatEvent) (children : Forest ScopeData) :
    nestLineEvents events threadLabel children =
      children.append (nestLineEvents events threadLabel .nil) := by
  have hfold : ∀ s : Spine ScopeData,
      events.foldl (nestLineEvent threadLabel) { s with roots := children.append s.roots } =
        { events.foldl (nestLineEvent threadLabel) s with
          roots := children.append (events.foldl (nestLineEvent threadLabel) s).roots } := by
    induction events with
    | nil => exact fun _ ↦ rfl
    | cons event events ih =>
      intro s
      rw [foldl_cons, nestLineEvent_append]
      exact ih _
  have h := hfold {}
  rw [Forest.append_nil] at h
  rw [nestLineEvents, h, toForest, closeWhile, closeOf_append]
  rfl

end NestLine

/-! ### The events around an event -/

namespace FlatEvent

/-- The first scope is around the second one: of two scopes with one interval the one recorded
later is around the other. -/
def Encloses (q e : FlatEvent) : Prop :=
  q.startNs ≤ e.startNs ∧ e.endNs ≤ q.endNs ∧
    (q.startNs = e.startNs → q.endNs = e.endNs → e.recorded < q.recorded)

/-- The innermost scope around an event, if there is any. -/
def Innermost (events : List FlatEvent) (e : FlatEvent) : Option FlatEvent → Prop
  | none => ∀ q ∈ events, ¬ q.Encloses e
  | some p => p ∈ events ∧ p.Encloses e ∧ ∀ q ∈ events, q.Encloses e → q = p ∨ q.Encloses p

theorem Encloses.ne {q e : FlatEvent} (h : q.Encloses e) : q ≠ e := by
  rintro rfl
  exact absurd (h.2.2 rfl rfl) (lt_irrefl _)

end FlatEvent

/-- The events of a line as scopes record them: nested or disjoint, of positive length, by their
end and an inner scope before the one around it. -/
structure RecordedScopes (events : List FlatEvent) : Prop where
  positive : ∀ e ∈ events, e.startNs < e.endNs
  nested : ∀ a ∈ events, ∀ b ∈ events, NestedOrDisjoint FlatEvent.startNs FlatEvent.endNs a b
  byEnd : events.Pairwise fun a b ↦ a.endNs < b.endNs ∨ a.endNs = b.endNs ∧ b.startNs ≤ a.startNs

/-- The tree of a line is the nesting of its events. -/
structure ScopeNesting (events : List FlatEvent) (forest : Forest ScopeData) : Prop where
  nodes : ((forest.edges none).map fun edge ↦ edge.1.event).Perm events
  parent : ∀ edge ∈ forest.edges none,
    FlatEvent.Innermost events edge.1.event (edge.2.map ScopeData.event)
  top : ∀ e ∈ events, e ∈ forest.tops.map ScopeData.event ↔ ∀ q ∈ events, ¬ q.Encloses e
  depth : ∀ edge ∈ forest.edges none,
    edge.1.depthLevel = (edge.2.map ScopeData.depthLevel).getD 0 + 1
  siblings : forest.Siblings fun a b ↦ a.event.startNs ≤ b.event.startNs

/-- No two events of a line start at the same time. -/
def DistinctStarts (events : List FlatEvent) : Prop :=
  events.Pairwise fun a b ↦ a.startNs ≠ b.startNs

section Nesting

variable {events sorted before after : List FlatEvent} {x p q : FlatEvent}

/-- What two events of a list have in one order or the other. -/
theorem pairwise_or {r : FlatEvent → FlatEvent → Prop} (h : events.Pairwise r) (hp : p ∈ events)
    (hq : q ∈ events) : p = q ∨ r p q ∨ r q p := by
  by_cases heq : p = q
  · exact .inl heq
  · have hsymm : Std.Symm fun a b ↦ r a b ∨ r b a := ⟨fun _ _ hab ↦ hab.symm⟩
    have h : events.Pairwise fun a b ↦ r a b ∨ r b a := h.imp .inl
    exact .inr (h.forall hp hq heq)

theorem start_ne (hdistinct : DistinctStarts events) (hp : p ∈ events) (hq : q ∈ events)
    (hne : p ≠ q) : p.startNs ≠ q.startNs := by
  obtain heq | hr | hr := pairwise_or hdistinct hp hq
  · exact absurd heq hne
  · exact hr
  · exact hr.symm

/-- With distinct starts what is open at the start of an event encloses it. -/
theorem encloses_of_open (h : RecordedScopes events) (hdistinct : DistinctStarts events)
    (hp : p ∈ events) (hx : x ∈ events) (hne : p ≠ x) (hle : p.startNs ≤ x.startNs)
    (hopen : x.startNs < p.endNs) : p.Encloses x := by
  have hstart := start_ne hdistinct hp hx hne
  have hlt := lt_of_le_of_ne hle hstart
  exact ⟨hle, (h.nested p hp x hx).stop_le hlt hopen (h.positive x hx).le,
    fun heq ↦ absurd heq hstart⟩

/-- With distinct starts the last open event is the innermost one around an event. -/
theorem innermost_lastOpen (hrecorded : events.Pairwise fun a b ↦ a.recorded < b.recorded)
    (h : RecordedScopes events) (hdistinct : DistinctStarts events)
    (hperm : sorted.Perm events) (hsorted : sorted.Pairwise fun a b ↦ a.startNs ≤ b.startNs)
    (hsplit : sorted = before ++ x :: after) :
    FlatEvent.Innermost events x (lastOpen FlatEvent.endNs before.reverse x.startNs) := by
  subst hsplit
  obtain ⟨hbefore, hafter, hcross⟩ := pairwise_append.mp hsorted
  have hmem : ∀ {y}, y ∈ before ++ x :: after → y ∈ events := fun hy ↦ hperm.mem_iff.mp hy
  have hx : x ∈ events := hmem (by simp)
  have hnodup : (before ++ x :: after).Nodup :=
    hperm.nodup_iff.mpr (hrecorded.imp fun hlt heq ↦ absurd (heq ▸ hlt) (lt_irrefl _))
  have hne : ∀ y ∈ before, y ≠ x := by
    rintro y hy rfl
    exact (nodup_append.mp hnodup).2.2 y hy y (.head _) rfl
  have hencloser : ∀ q ∈ events, q.Encloses x → q ∈ before ∧ x.startNs < q.endNs := by
    intro q hq henc
    refine ⟨?_, (h.positive x hx).trans_le henc.2.1⟩
    have hlt := lt_of_le_of_ne henc.1 (start_ne hdistinct hq hx henc.ne)
    obtain hq | hq := mem_append.mp (hperm.mem_iff.mpr hq)
    · exact hq
    · obtain rfl | hq := mem_cons.mp hq
      · exact absurd hlt (lt_irrefl _)
      · exact absurd ((pairwise_cons.mp hafter).1 q hq) (not_le.mpr hlt)
  cases hlast : lastOpen endNs before.reverse x.startNs with
  | none =>
    intro q hq henc
    obtain ⟨hq, hopen⟩ := hencloser q hq henc
    exact absurd (lastOpen_eq_none hlast q (mem_reverse.mpr hq)) (not_le.mpr hopen)
  | some p =>
    obtain ⟨hopen, later, earlier, hrev, hlater⟩ := lastOpen_eq_some hlast
    have hbeforeEq : before = earlier.reverse ++ p :: later.reverse := by
      rw [← reverse_reverse before, hrev]
      simp
    have hpb : p ∈ before := by
      rw [hbeforeEq]
      simp
    have hp : p ∈ events := hmem (mem_append_left _ hpb)
    refine ⟨hp, encloses_of_open h hdistinct hp hx (hne p hpb) (hcross p hpb x (.head _)) hopen,
      fun q hq henc ↦ ?_⟩
    obtain ⟨hqb, hqopen⟩ := hencloser q hq henc
    rw [hbeforeEq, mem_append, mem_cons] at hqb
    obtain hqe | rfl | hql := hqb
    · by_cases hqp : q = p
      · exact .inl hqp
      · rw [hbeforeEq] at hbefore
        have hle := (pairwise_append.mp hbefore).2.2 q hqe p (.head _)
        exact .inr (encloses_of_open h hdistinct hq hp hqp hle
          ((hcross p hpb x (.head _)).trans_lt hqopen))
    · exact .inl rfl
    · exact absurd (hlater q (mem_reverse.mp hql)) (not_le.mpr hqopen)

/-- Of two events that start together the first in the sorted order is around the second one in
the tree, and so it is not the tree of the scopes. -/
theorem not_innermost_lastOpen (hpos : events.Pairwise fun a b ↦ a.recorded < b.recorded)
    (h : RecordedScopes events) (hperm : sorted.Perm events)
    (hsorted : sorted.Pairwise fun a b ↦ a.startNs < b.startNs ∨
      a.startNs = b.startNs ∧ a.recorded < b.recorded)
    (hsplit : sorted = before ++ x :: after) (hq : q ∈ before) (hstart : q.startNs = x.startNs) :
    ¬ FlatEvent.Innermost events x (lastOpen FlatEvent.endNs before.reverse x.startNs) := by
  subst hsplit
  obtain ⟨hbefore, -, hcross⟩ := pairwise_append.mp hsorted
  have hmem : ∀ {y}, y ∈ before ++ x :: after → y ∈ events := fun hy ↦ hperm.mem_iff.mp hy
  have hx : x ∈ events := hmem (by simp)
  have hqopen : x.startNs < q.endNs := by
    rw [← hstart]
    exact h.positive q (hmem (mem_append_left _ hq))
  intro hinner
  cases hlast : lastOpen endNs before.reverse x.startNs with
  | none => exact absurd (lastOpen_eq_none hlast q (mem_reverse.mpr hq)) (not_le.mpr hqopen)
  | some p =>
    rw [hlast] at hinner
    obtain ⟨hp, henc, -⟩ := hinner
    obtain ⟨hopen, later, earlier, hrev, hlater⟩ := lastOpen_eq_some hlast
    have hbeforeEq : before = earlier.reverse ++ p :: later.reverse := by
      rw [← reverse_reverse before, hrev]
      simp
    have hpb : p ∈ before := by
      rw [hbeforeEq]
      simp
    -- `q` is not behind `p`, since it is open
    have hqp : q.startNs ≤ p.startNs := by
      rw [hbeforeEq] at hq hbefore
      obtain hqe | hq := mem_append.mp hq
      · exact ((pairwise_append.mp hbefore).2.2 q hqe p (.head _)).elim le_of_lt fun heq ↦ heq.1.le
      · obtain rfl | hql := mem_cons.mp hq
        · exact le_rfl
        · exact absurd (hlater q (mem_reverse.mp hql)) (not_le.mpr hqopen)
    obtain hlt | ⟨heq, hrecorded⟩ := hcross p hpb x (.head _)
    · exact absurd (hqp.trans_lt hlt) (by rw [hstart]; exact lt_irrefl _)
    · have hend : x.endNs = p.endNs := by
        refine le_antisymm henc.2.1 ?_
        obtain hpx | ⟨-, hle⟩ | ⟨hrec, -⟩ := pairwise_or (hpos.and h.byEnd) hp hx
        · rw [hpx]
        · exact hle.elim le_of_lt fun hle ↦ hle.1.le
        · exact absurd hrec (not_lt.mpr hrecorded.le)
      exact absurd (henc.2.2 heq hend.symm) (not_lt.mpr hrecorded.le)

end Nesting

/-! ### The tree of a line -/

section LineForest

variable {hostLine : XPlane × XLine}

theorem lineEvents_recorded (plane : XPlane) (line : XLine) :
    (lineEvents plane line).Pairwise fun a b ↦ a.recorded < b.recorded := by
  have hidx : line.events.zipIdx.Pairwise fun a b ↦ a.2 < b.2 := by
    refine pairwise_map.mp ?_
    rw [zipIdx_map_snd]
    exact pairwise_lt_range'
  refine hidx.filterMap _ fun a b hab c hc d hd ↦ ?_
  dsimp only at hc hd
  split at hc <;> cases hc
  split at hd <;> cases hd
  exact hab

/-- The events of the nodes of a line and of their parents. -/
theorem edges_lineForest (hostLine : XPlane × XLine) :
    ((lineForest hostLine).edges none).map edgeEvents =
      openParents FlatEvent.startNs FlatEvent.endNs []
        (collectLineEvents hostLine.1 hostLine.2) := by
  rw [lineForest, nestLineEvents, edges_toForest]
  have hsorted := pairwise_map.mpr (pairwise_sortBy startNs (lineEvents hostLine.1 hostLine.2))
  rw [collectLineEvents]
  cases hevents : sortBy startNs (lineEvents hostLine.1 hostLine.2) with
  | nil => rfl
  | cons event events =>
    rw [hevents] at hsorted
    refine edges_foldl_nestLineEvent event.startNs (pairwise_cons.mpr ⟨?_, hsorted⟩) (.nil _)
    intro t ht
    obtain rfl | ht := mem_cons.mp ht
    · exact le_rfl
    · exact (pairwise_cons.mp hsorted).1 t ht

theorem edge_iff {x : FlatEvent} {p : Option FlatEvent} :
    (x, p) ∈ ((lineForest hostLine).edges none).map edgeEvents ↔ ∃ before after,
      collectLineEvents hostLine.1 hostLine.2 = before ++ x :: after ∧
        p = lastOpen FlatEvent.endNs before.reverse x.startNs := by
  rw [edges_lineForest, mem_openParents]
  simp only [append_nil]

/-- The nodes in preorder are the events in start order. -/
theorem nodes_lineForest (hostLine : XPlane × XLine) :
    (((lineForest hostLine).edges none).map fun edge ↦ edge.1.event) =
      collectLineEvents hostLine.1 hostLine.2 := by
  have h := congrArg (map Prod.fst) (edges_lineForest hostLine)
  rw [openParents_fst, map_map] at h
  exact h

theorem depthsOk_lineForest (hostLine : XPlane × XLine) :
    DepthsOk ((lineForest hostLine).edges none) := by
  rw [lineForest, nestLineEvents, edges_toForest]
  exact depthsOk_foldl _ nofun

theorem siblings_lineForest (hostLine : XPlane × XLine) :
    (lineForest hostLine).Siblings fun a b ↦ a.event.startNs ≤ b.event.startNs := by
  have hsorted : (((lineForest hostLine).edges none).map fun edge ↦ edge.1.event).Pairwise
      fun a b ↦ a.startNs ≤ b.startNs := by
    rw [nodes_lineForest]
    exact pairwise_sortBy startNs _
  have hsorted := pairwise_map.mp hsorted
  exact Forest.siblings_of_pairwise hsorted

theorem edgeEvents_mem {edge : ScopeData × Option ScopeData}
    (hedge : edge ∈ (lineForest hostLine).edges none) :
    (edge.1.event, edge.2.map ScopeData.event) ∈
      ((lineForest hostLine).edges none).map edgeEvents := mem_map_of_mem hedge

/-- The nodes at the top are those without a scope around them, if the parents are right. -/
theorem top_iff {events : List FlatEvent}
    (hnodes : (((lineForest hostLine).edges none).map fun edge ↦ edge.1.event).Perm events)
    (hparent : ∀ edge ∈ (lineForest hostLine).edges none,
      FlatEvent.Innermost events edge.1.event (edge.2.map ScopeData.event))
    (e : FlatEvent) (he : e ∈ events) :
    e ∈ (lineForest hostLine).tops.map ScopeData.event ↔ ∀ q ∈ events, ¬ q.Encloses e := by
  rw [Forest.tops_eq, map_map]
  constructor
  · intro htop
    obtain ⟨⟨node, parent⟩, hedge, rfl⟩ := mem_map.mp htop
    obtain ⟨hedge, hnone⟩ := mem_filter.mp hedge
    cases parent with
    | none => exact hparent _ hedge
    | some parent => cases hnone
  · intro hnone
    obtain ⟨⟨node, parent⟩, hedge, rfl⟩ := mem_map.mp (hnodes.mem_iff.mpr he)
    cases parent with
    | none => exact mem_map.mpr ⟨_, mem_filter.mpr ⟨hedge, rfl⟩, rfl⟩
    | some parent =>
      obtain ⟨hmem, henc, -⟩ := hparent _ hedge
      exact absurd henc (hnone _ hmem)

/-- The tree of a line of scopes is their nesting if and only if no two start together. -/
theorem scopeNesting_iff (h : RecordedScopes (lineEvents hostLine.1 hostLine.2)) :
    ScopeNesting (lineEvents hostLine.1 hostLine.2) (lineForest hostLine) ↔
      DistinctStarts (lineEvents hostLine.1 hostLine.2) := by
  have hperm : (collectLineEvents hostLine.1 hostLine.2).Perm (lineEvents hostLine.1 hostLine.2) :=
    sortBy_perm ..
  have hrecorded := lineEvents_recorded hostLine.1 hostLine.2
  constructor
  · intro hnesting
    have hstable := pairwise_sortBy_of_pairwise startNs hrecorded
    have hsorted : (collectLineEvents hostLine.1 hostLine.2).Pairwise
        fun a b ↦ a.startNs ≠ b.startNs := by
      rw [pairwise_iff_forall_sublist]
      intro q x hsub heq
      obtain ⟨front, back, hsplit, hq, hx⟩ := cons_sublist_iff.mp hsub
      obtain ⟨between, after, rfl⟩ := append_of_mem (singleton_sublist.mp hx)
      rw [← append_assoc] at hsplit
      obtain ⟨edge, hedge, hevents⟩ := mem_map.mp (edge_iff.mpr ⟨_, _, hsplit, rfl⟩)
      have hinner := hnesting.parent edge hedge
      obtain ⟨hx, hp⟩ := Prod.mk.inj hevents
      rw [hx, hp] at hinner
      exact not_innermost_lastOpen hrecorded h hperm hstable hsplit (mem_append_left _ hq) heq hinner
    exact (hperm.pairwise_iff fun hne ↦ hne.symm).mp hsorted
  · intro hdistinct
    have hnodes : (((lineForest hostLine).edges none).map fun edge ↦ edge.1.event).Perm
        (lineEvents hostLine.1 hostLine.2) := by
      rw [nodes_lineForest]
      exact hperm
    have hparent : ∀ edge ∈ (lineForest hostLine).edges none, FlatEvent.Innermost
        (lineEvents hostLine.1 hostLine.2) edge.1.event (edge.2.map ScopeData.event) := by
      intro edge hedge
      obtain ⟨before, after, hsplit, hp⟩ := edge_iff.mp (edgeEvents_mem hedge)
      rw [hp]
      exact innermost_lastOpen hrecorded h hdistinct hperm (pairwise_sortBy startNs _) hsplit
    exact ⟨hnodes, hparent, top_iff hnodes hparent, depthsOk_lineForest hostLine,
      siblings_lineForest hostLine⟩

end LineForest

/-! ### The tree of a space -/

theorem collectLineEvents_eq_nil {plane : XPlane} {line : XLine} :
    collectLineEvents plane line = [] ↔ lineEvents plane line = [] := by
  rw [← length_eq_zero_iff, ← length_eq_zero_iff, collectLineEvents, (sortBy_perm ..).length_eq]

/-- The root has what the lines add, one line after another. -/
theorem foldl_nestLine (hostLines : List (XPlane × XLine)) (found : Bool × Forest ScopeData) :
    hostLines.foldl nestLine found =
      (found.1 || hostLines.any fun l ↦ decide (lineEvents l.1 l.2 ≠ []),
        found.2.append (hostLines.foldr (fun l forest ↦ (lineForest l).append forest) .nil)) := by
  induction hostLines generalizing found with
  | nil => simp
  | cons l hostLines ih =>
    rw [foldl_cons, ih, any_cons, foldr_cons, nestLine]
    by_cases hnil : collectLineEvents l.1 l.2 = []
    · rw [lineForest, hnil, decide_eq_false (not_not.mpr (collectLineEvents_eq_nil.mp hnil))]
      rfl
    · rw [if_neg hnil, nestLineEvents_append, Forest.append_assoc, decide_eq_true
        (mt collectLineEvents_eq_nil.mpr hnil)]
      simp only [Bool.true_or, Bool.or_true]
      rfl

/-- What all lines add to the root. -/
def spaceForest (space : XSpace) : Forest ScopeData :=
  (hostLines space).foldr (fun l forest ↦ (lineForest l).append forest) .nil

theorem buildScopeTree_eq (space : XSpace) : buildScopeTree space =
    if (hostLines space).any fun l ↦ decide (lineEvents l.1 l.2 ≠ []) then
      some
        { root := { event := { startNs := 0, endNs := 0, name := "ROOT".toList, recorded := 0 } }
          children := spaceForest space }
    else none := by
  simp only [buildScopeTree, foldl_nestLine, Bool.false_or, Forest.nil_append, spaceForest]

/-- The tree of a space is a root with the trees of the lines of the host threads, each of which
is the nesting of its scopes if and only if no two of them start together; without any event
there is no tree. -/
theorem buildScopeTree_nesting (space : XSpace) :
    (∀ tree, buildScopeTree space = some tree → tree.root.event.name = "ROOT".toList ∧
      tree.root.depthLevel = 0 ∧ tree.children = spaceForest space) ∧
    (buildScopeTree space = none ↔ ∀ l ∈ hostLines space, lineEvents l.1 l.2 = []) ∧
    ∀ l ∈ hostLines space, RecordedScopes (lineEvents l.1 l.2) →
      (ScopeNesting (lineEvents l.1 l.2) (lineForest l) ↔ DistinctStarts (lineEvents l.1 l.2)) := by
  rw [buildScopeTree_eq]
  refine ⟨fun tree htree ↦ ?_, ?_, fun l _ h ↦ scopeNesting_iff h⟩
  · split at htree <;> cases htree
    exact ⟨rfl, rfl, rfl⟩
  · split
    next hany =>
      obtain ⟨l, hl, hne⟩ := any_eq_true.mp hany
      exact iff_of_false nofun fun hall ↦ of_decide_eq_true hne (hall l hl)
    next hany =>
      refine iff_of_true rfl fun l hl ↦ ?_
      by_contra hne
      exact hany (any_eq_true.mpr ⟨l, hl, decide_eq_true hne⟩)

/-- A host plane with one line: a scope from nanosecond 0 to 5, and around it one that starts at
`startPs` and ends at nanosecond 10. -/
def twoScopes (startPs : Int) : XPlane × XLine :=
  let line : XLine :=
    { events :=
        [{ metadataId := 1, data := .offset 0, durationPs := 5000 },
          { metadataId := 2, data := .offset startPs, durationPs := 10000 - startPs }] }
  ({ name := hostThreadsPlaneName
     lines := [line]
     eventMetadata := [(1, { name := ['i'] }), (2, { name := ['o'] })] }, line)

theorem recordedScopes_pair (start : Int) (h : start ≤ 0) :
    RecordedScopes [⟨0, 5, ['i'], 0⟩, ⟨start, 10, ['o'], 1⟩] where
  positive e he := by
    simp only [mem_cons, not_mem_nil, or_false] at he
    obtain rfl | rfl := he
    · decide
    · exact h.trans_lt (show (0 : Int) < 10 by decide)
  nested a ha b hb := by
    simp only [mem_cons, not_mem_nil, or_false] at ha hb
    obtain rfl | rfl := ha <;> obtain rfl | rfl := hb <;> simp [NestedOrDisjoint, h]
  byEnd := by simp

/-- A scope that starts before the one it is around. -/
theorem earlier_scope_nests : ∃ l ∈ hostLines { planes := [(twoScopes (-1000)).1] },
    RecordedScopes (lineEvents l.1 l.2) ∧ ScopeNesting (lineEvents l.1 l.2) (lineForest l) := by
  have hmem : twoScopes (-1000) ∈ hostLines { planes := [(twoScopes (-1000)).1] } := .head _
  have hevents : lineEvents (twoScopes (-1000)).1 (twoScopes (-1000)).2 =
      [⟨0, 5, ['i'], 0⟩, ⟨-1, 10, ['o'], 1⟩] := by decide
  have h := hevents ▸ recordedScopes_pair (-1) (by decide)
  refine ⟨_, hmem, h, ((buildScopeTree_nesting _).2.2 _ hmem h).mpr ?_⟩
  exact .cons (by decide) (.cons nofun .nil)

/-- A scope that starts together with the one it is around becomes its child. -/
theorem equal_start_not_nested : ∃ l ∈ hostLines { planes := [(twoScopes 0).1] },
    RecordedScopes (lineEvents l.1 l.2) ∧ ¬ ScopeNesting (lineEvents l.1 l.2) (lineForest l) := by
  have hevents : lineEvents (twoScopes 0).1 (twoScopes 0).2 =
      [⟨0, 5, ['i'], 0⟩, ⟨0, 10, ['o'], 1⟩] := by decide
  have h := hevents ▸ recordedScopes_pair 0 le_rfl
  refine ⟨twoScopes 0, .head _, h, fun hnesting ↦ ?_⟩
  have hdistinct := (scopeNesting_iff h).mp hnesting
  exact (pairwise_cons.mp hdistinct).1 _ (.head _) rfl

end Hisab.Profiler
