import Hisab.Base.LastOpen
import Hisab.Profiler.TreeReplay

/-!
# Call trees of nested intervals

On threads whose intervals nest, the call tree puts each event under the innermost interval that
encloses it if and only if no event starts exactly when an earlier one of its thread ends: ends at
the very start of an event are not retired before it.
-/

namespace Hisab.Profiler.Collection

open Base List

variable {initial results : Results} {events before after : List Nat} {x y z t : Nat}
  {queue : MinQueue Nat Int}

/-- One event comes before another one in the list. -/
def Before (events : List Nat) (y x : Nat) : Prop := [y, x].Sublist events

/-- An earlier event of the thread that is open as another one starts and ends with it or later. An
interval does not contain its end, so that intervals that touch are disjoint. -/
structure Encloses (initial : Results) (events : List Nat) (y x : Nat) : Prop where
  before : Before events y x
  tid : (initial y).startTid = (initial x).startTid
  positive : startOf initial y < endOf initial y
  opened : startOf initial x < endOf initial y
  inside : endOf initial x ≤ endOf initial y

/-- All other events that enclose `x` enclose `y` too. -/
structure Innermost (initial : Results) (events : List Nat) (y x : Nat) : Prop where
  encloses : Encloses initial events y x
  inner : ∀ z, Encloses initial events z x → z = y ∨ Encloses initial events z y

/-- The tree of the intervals. -/
structure IntervalNesting (initial results : Results) (events : List Nat) : Prop where
  parent : ∀ x ∈ events, ∀ y, (results x).parent = some y ↔ Innermost initial events y x
  root : ∀ x ∈ events, (results x).parent = none ↔ ∀ y, ¬ Encloses initial events y x
  children : ∀ y ∈ events, (results y).children =
    events.filter fun x ↦ decide ((results x).parent = some y)
  finished : ∀ x ∈ events, (results x).finished = true

/-- Events in the order of their starts, what encloses before what is enclosed, and on each thread
those that are not empty nested or disjoint. -/
structure Nested (initial : Results) (events : List Nat) : Prop extends Sorted initial events where
  ties : events.Pairwise fun y x ↦ (initial y).startTid = (initial x).startTid →
    startOf initial y = startOf initial x → endOf initial x ≤ endOf initial y
  nested : events.Pairwise fun y x ↦ (initial y).startTid = (initial x).startTid →
    startOf initial y < endOf initial y → startOf initial x < endOf initial x →
      NestedOrDisjoint (startOf initial) (endOf initial) y x

/-- An event starts exactly when an earlier one of its thread, that is not empty, ends. -/
structure Touches (initial : Results) (events : List Nat) (y x : Nat) : Prop where
  before : Before events y x
  tid : (initial y).startTid = (initial x).startTid
  positive : startOf initial y < endOf initial y
  touch : endOf initial y = startOf initial x

/-! ### Before -/

theorem Before.start_le (h : Sorted initial events) (hyx : Before events y x) :
    startOf initial y ≤ startOf initial x :=
  pairwise_iff_forall_sublist.mp h.sorted hyx

theorem Before.left_mem (h : Before events y x) : y ∈ events := h.subset mem_cons_self

theorem Before.right_mem (h : Before events y x) : x ∈ events :=
  h.subset (mem_cons_of_mem _ mem_cons_self)

theorem mem_of_before (hnodup : (before ++ x :: after).Nodup)
    (h : Before (before ++ x :: after) y x) : y ∈ before := by
  have hx : x ∉ after := (nodup_cons.mp (nodup_append.mp hnodup).2.1).1
  obtain ⟨l₁, l₂, heq, h₁, h₂⟩ := sublist_append_iff.mp h
  cases l₁ with
  | nil =>
    subst heq
    cases h₂ with
    | cons _ h₂ => exact absurd (h₂.subset (mem_cons_of_mem _ mem_cons_self)) hx
    | cons_cons _ h₂ => exact absurd (h₂.subset mem_cons_self) hx
  | cons w l₁ =>
    obtain rfl : y = w := (cons.inj heq).1
    exact h₁.subset mem_cons_self

theorem not_before_of_before (hnodup : events.Nodup) (h : Before events y x) :
    ¬ Before events x y := by
  obtain ⟨l₁, l₂, rfl⟩ := append_of_mem h.right_mem
  intro h'
  have hy := mem_of_before hnodup h
  obtain ⟨l₃, l₄, rfl⟩ := append_of_mem hy
  have hsplit : l₃ ++ y :: l₄ ++ x :: l₂ = l₃ ++ y :: (l₄ ++ x :: l₂) := by simp
  rw [hsplit] at hnodup h'
  have hx := mem_of_before hnodup h'
  have hnodup' := (nodup_append.mp hnodup).2.2 x hx
  exact hnodup' x (by simp) rfl

theorem before_sublist (h : onThread initial t events = before ++ x :: after) :
    before.Sublist events := by
  have hsub : (onThread initial t events).Sublist events := filter_sublist
  rw [h] at hsub
  exact (sublist_append_left ..).trans hsub

/-- The earlier events of a thread. -/
theorem mem_before_iff (hnodup : events.Nodup)
    (hsplit : onThread initial (initial x).startTid events = before ++ x :: after) :
    y ∈ before ↔ Before events y x ∧ (initial y).startTid = (initial x).startTid := by
  constructor
  · intro hy
    have hsub : [y, x].Sublist (before ++ x :: after) :=
      (singleton_sublist.mpr hy).append (singleton_sublist.mpr mem_cons_self)
    have hmem : y ∈ onThread initial (initial x).startTid events := hsplit ▸ mem_append_left _ hy
    exact ⟨(hsplit ▸ hsub).trans filter_sublist, of_decide_eq_true (mem_filter.mp hmem).2⟩
  · rintro ⟨hbefore, htid⟩
    have hfilter := hbefore.filter fun z ↦ decide ((initial z).startTid = (initial x).startTid)
    rw [filter_eq_self.mpr (by simp [htid])] at hfilter
    have hthread : (onThread initial (initial x).startTid events).Nodup := hnodup.filter _
    rw [hsplit] at hthread
    exact mem_of_before hthread (hsplit ▸ hfilter)

/-- The last one that meets a condition. -/
theorem head?_filter_reverse {p : Nat → Bool} {l : List Nat}
    (h : (l.reverse.filter p).head? = some y) :
    (y ∈ l ∧ p y = true) ∧ ∀ z ∈ l, p z = true → z = y ∨ Before l z y := by
  rw [head?_filter] at h
  obtain ⟨hy, later, earlier, hsplit, hlater⟩ := find?_eq_some_iff_append.mp h
  have hl : l = earlier.reverse ++ y :: later.reverse := by
    rw [← reverse_reverse l, hsplit]
    simp
  refine ⟨⟨?_, hy⟩, fun z hz hpz ↦ ?_⟩
  · rw [hl]
    simp
  · rw [hl, mem_append, mem_cons] at hz
    rw [hl]
    obtain hz | rfl | hz := hz
    · exact .inr ((singleton_sublist.mpr hz).append (singleton_sublist.mpr mem_cons_self))
    · exact .inl rfl
    · have hfalse := hlater z (mem_reverse.mp hz)
      simp [hpz] at hfalse

/-! ### The frame on top -/

/-- Of two events that do not touch, the later one is inside the earlier one if that is open. -/
theorem Nested.end_le (h : Nested initial events) (hyx : Before events y x)
    (htid : (initial y).startTid = (initial x).startTid)
    (hy : startOf initial y < endOf initial y) (hx : startOf initial x < endOf initial x)
    (hopen : startOf initial x ≤ endOf initial y) (htouch : ¬ Touches initial events y x) :
    endOf initial x ≤ endOf initial y := by
  have hle := hyx.start_le h.toSorted
  have hties := pairwise_iff_forall_sublist.mp h.ties hyx htid
  obtain hcase | hcase | hcase | hcase := pairwise_iff_forall_sublist.mp h.nested hyx htid hy hx
  · exact absurd ⟨hyx, htid, hy, le_antisymm hcase hopen⟩ htouch
  · omega
  · exact hcase.2
  · exact hties (le_antisymm hle hcase.1)

/-- The parent of an event before whose start no events touch: the last one of its thread that has
not ended before its start. -/
theorem parent_eq (h : Nested initial events) (htree : CallTree initial results events)
    (hx : x ∈ events) (htouch : ∀ z, Before events z x → ∀ y, ¬ Touches initial events y z) :
    ∃ before after, onThread initial (initial x).startTid events = before ++ x :: after ∧
      (results x).parent = (before.reverse.filter fun y ↦
        decide (startOf initial y < endOf initial y ∧ startOf initial x ≤ endOf initial y)).head? := by
  have hmem : (x, (results x).parent) ∈ frameParents (startOf initial) (endOf initial) []
      (onThread initial (initial x).startTid events) := by
    rw [← htree.parents]
    exact mem_map.mpr ⟨x, mem_filter.mpr ⟨hx, by simp⟩, rfl⟩
  obtain ⟨before, after, hsplit, hparent⟩ := mem_frameParents.mp hmem
  have hbefore : ∀ y ∈ before, Before events y x ∧ (initial y).startTid = (initial x).startTid :=
    fun y hy ↦ (mem_before_iff h.nodup hsplit).mp hy
  have hsub := before_sublist hsplit
  refine ⟨before, after, hsplit, ?_⟩
  rw [hparent, openPart_framesAfter]
  · exact h.sorted.sublist hsub
  · rw [pairwise_iff_forall_sublist]
    intro a b hab ha hb hopen
    have hamem : a ∈ before := hab.subset mem_cons_self
    have hbmem : b ∈ before := hab.subset (mem_cons_of_mem _ mem_cons_self)
    have htid := (hbefore a hamem).2.trans (hbefore b hbmem).2.symm
    exact h.end_le (hab.trans hsub) htid ha hb hopen (htouch b (hbefore b hbmem).1 a)
  · exact fun y hy ↦ (hbefore y hy).1.start_le h.toSorted

/-- An event that is open encloses what starts. -/
theorem Nested.encloses (h : Nested initial events) (hyx : Before events y x)
    (htid : (initial y).startTid = (initial x).startTid)
    (hy : startOf initial y < endOf initial y) (hopen : startOf initial x ≤ endOf initial y)
    (htouch : ¬ Touches initial events y x) : Encloses initial events y x := by
  have hlt : startOf initial x < endOf initial y :=
    lt_of_le_of_ne hopen fun heq ↦ htouch ⟨hyx, htid, hy, heq.symm⟩
  refine ⟨hyx, htid, hy, hlt, ?_⟩
  by_cases hx : startOf initial x < endOf initial x
  · exact h.end_le hyx htid hy hx hopen htouch
  · exact (not_lt.mp hx).trans hopen

/-- Where no events touch, the parent is the innermost event that encloses. -/
theorem parent_iff_innermost (h : Nested initial events) (htree : CallTree initial results events)
    (htouch : ∀ y x, ¬ Touches initial events y x) (hx : x ∈ events) :
    (∀ y, (results x).parent = some y ↔ Innermost initial events y x) ∧
      ((results x).parent = none ↔ ∀ y, ¬ Encloses initial events y x) := by
  obtain ⟨before, after, hsplit, hparent⟩ := parent_eq h htree hx fun z _ y ↦ htouch y z
  have hmem := fun y ↦ mem_before_iff (y := y) h.nodup hsplit
  have hencloses : ∀ y, Encloses initial events y x ↔ y ∈ before ∧
      decide (startOf initial y < endOf initial y ∧ startOf initial x ≤ endOf initial y) = true := by
    intro y
    constructor
    · intro hy
      exact ⟨(hmem y).mpr ⟨hy.before, hy.tid⟩, decide_eq_true ⟨hy.positive, hy.opened.le⟩⟩
    · rintro ⟨hy, hcond⟩
      obtain ⟨hyx, htid⟩ := (hmem y).mp hy
      obtain ⟨hpos, hopen⟩ := of_decide_eq_true hcond
      exact h.encloses hyx htid hpos hopen (htouch y x)
  have hsome : ∀ y, (results x).parent = some y → Innermost initial events y x := by
    intro y hy
    rw [hparent] at hy
    obtain ⟨hfound, hlast⟩ := head?_filter_reverse hy
    refine ⟨(hencloses y).mpr hfound, fun z hz ↦ ?_⟩
    obtain ⟨hzmem, hzcond⟩ := (hencloses z).mp hz
    cases hlast z hzmem hzcond with
    | inl heq => exact .inl heq
    | inr hzy =>
      right
      have hyx := (hencloses y).mpr hfound
      have hsub := before_sublist hsplit
      apply h.encloses (hzy.trans hsub) (hz.tid.trans hyx.tid.symm) hz.positive _ (htouch z y)
      exact (hyx.before.start_le h.toSorted).trans hz.opened.le
  have hnone : (results x).parent = none ↔ ∀ y, ¬ Encloses initial events y x := by
    rw [hparent, head?_eq_none_iff, filter_eq_nil_iff]
    constructor
    · intro hall y hy
      obtain ⟨hymem, hcond⟩ := (hencloses y).mp hy
      exact hall y (mem_reverse.mpr hymem) hcond
    · intro hall y hy hcond
      exact hall y ((hencloses y).mpr ⟨mem_reverse.mp hy, hcond⟩)
  refine ⟨fun y ↦ ⟨hsome y, fun hy ↦ ?_⟩, hnone⟩
  cases hw : (results x).parent with
  | none => exact absurd hy.encloses (hnone.mp hw y)
  | some w =>
    cases hy.inner w (hsome w hw).encloses with
    | inl heq => rw [heq]
    | inr hwy =>
      cases (hsome w hw).inner y hy.encloses with
      | inl heq => rw [heq]
      | inr hyw => exact absurd hyw.before (not_before_of_before h.nodup hwy.before)

/-- In a tree of nested intervals no event starts when an earlier one ends. -/
theorem not_touches (h : Nested initial events) (htree : CallTree initial results events)
    (hnesting : IntervalNesting initial results events) :
    ∀ y x, ¬ Touches initial events y x := by
  have hprefix : ∀ pre x post, events = pre ++ x :: post → ∀ y, ¬ Touches initial events y x := by
    intro pre
    induction hlen : pre.length using Nat.strong_induction_on generalizing pre with
    | _ len ih =>
      intro x post hevents y hy
      have hx : x ∈ events := hy.before.right_mem
      have hbefore : ∀ z, Before events z x → ∀ w, ¬ Touches initial events w z := by
        intro z hz
        have hzpre : z ∈ pre := by
          have hnodup := h.nodup
          rw [hevents] at hnodup hz
          exact mem_of_before hnodup hz
        obtain ⟨pre', post', rfl⟩ := append_of_mem hzpre
        apply ih pre'.length _ pre' rfl z (post' ++ x :: post)
        · rw [hevents]
          simp
        · rw [← hlen]
          simp
      obtain ⟨before, after, hsplit, hparent⟩ := parent_eq h htree hx hbefore
      have hmem := fun y ↦ mem_before_iff (y := y) h.nodup hsplit
      have hfound : y ∈ before ∧ decide (startOf initial y < endOf initial y ∧
          startOf initial x ≤ endOf initial y) = true :=
        ⟨(hmem y).mpr ⟨hy.before, hy.tid⟩, decide_eq_true ⟨hy.positive, hy.touch.ge⟩⟩
      cases hw : (results x).parent with
      | none =>
        rw [hparent, head?_eq_none_iff, filter_eq_nil_iff] at hw
        exact hw y (mem_reverse.mpr hfound.1) hfound.2
      | some w =>
        have hinner := (hnesting.parent x hx w).mp hw
        rw [hparent] at hw
        obtain ⟨-, hlast⟩ := head?_filter_reverse hw
        have hopen := hinner.encloses.opened
        cases hlast y hfound.1 hfound.2 with
        | inl heq =>
          rw [← heq, hy.touch] at hopen
          exact lt_irrefl _ hopen
        | inr hyw =>
          have hsub := before_sublist hsplit
          have hyw := hyw.trans hsub
          have hwx := hinner.encloses.before
          have hle : endOf initial w ≤ endOf initial y := by
            apply h.end_le hyw (hy.tid.trans hinner.encloses.tid.symm) hy.positive
              hinner.encloses.positive _ (hbefore w hwx y)
            rw [hy.touch]
            exact hwx.start_le h.toSorted
          rw [hy.touch] at hle
          exact absurd hopen (not_lt.mpr hle)
  intro y x hy
  obtain ⟨pre, post, hevents⟩ := append_of_mem hy.before.right_mem
  exact hprefix pre x post hevents y hy

/-- The call tree of nested intervals is their nesting if and only if no event starts exactly when an
earlier one of its thread ends. -/
theorem buildTree_nesting_iff (queue : MinQueue Nat Int) (h : Nested initial events) :
    (∃ results, buildTree queue initial events = some results ∧
      IntervalNesting initial results events) ↔ ∀ y x, ¬ Touches initial events y x := by
  obtain ⟨results, hbuild, htree⟩ := buildTree_eq queue h.toSorted
  constructor
  · rintro ⟨results', hbuild', hnesting⟩
    rw [hbuild] at hbuild'
    cases hbuild'
    exact not_touches h htree hnesting
  · intro htouch
    refine ⟨results, hbuild, ?_, ?_, htree.children, htree.finished⟩
    · exact fun x hx ↦ (parent_iff_innermost h htree htouch hx).1
    · exact fun x hx ↦ (parent_iff_innermost h htree htouch hx).2

/-! ### Two runs -/

/-- Function ops on one thread, given by start and end. -/
def opsOf (times : List (Int × Int)) : Results := fun x ↦
  match times[x]? with
  | some (startTime, endTime) =>
    { startTimeNs := startTime, startTid := 1, extraFields := .functionOp endTime 0 }
  | none => { startTimeNs := 0, startTid := 1, extraFields := .allocation }

theorem fresh_opsOf (times : List (Int × Int)) (x : Nat) : Fresh (opsOf times x) := by
  unfold opsOf
  split
  · exact ⟨rfl, rfl, rfl⟩
  · exact ⟨rfl, rfl, rfl⟩

theorem timed_opsOf {times : List (Int × Int)} {startTime endTime : Int}
    (h : times[x]? = some (startTime, endTime)) (hle : startTime ≤ endTime)
    (hreal : minTime < endTime) : Timed (opsOf times x) := by
  rw [opsOf, h]
  refine ⟨hle, hreal, fun e f hf ↦ ?_⟩
  exact (ExtraFields.functionOp.inj hf).2.symm

/-- An op with two ops in it, with a gap between them. -/
theorem buildTree_nesting_iff_gap : ∃ results,
    buildTree .first (opsOf [(0, 10), (1, 4), (5, 10)]) [0, 1, 2] = some results ∧
      IntervalNesting (opsOf [(0, 10), (1, 4), (5, 10)]) results [0, 1, 2] := by
  have htimed : ∀ x ∈ [0, 1, 2], Timed (opsOf [(0, 10), (1, 4), (5, 10)] x) := by
    simp only [forall_mem_cons]
    exact ⟨timed_opsOf rfl (by decide) (by decide), timed_opsOf rfl (by decide) (by decide),
      timed_opsOf rfl (by decide) (by decide), nofun⟩
  have h : Nested (opsOf [(0, 10), (1, 4), (5, 10)]) [0, 1, 2] := by
    refine ⟨⟨by decide, fun x _ ↦ fresh_opsOf _ x, htimed, by decide⟩, by decide, ?_⟩
    simp [opsOf, startOf, endOf, Result.end_, NestedOrDisjoint]
  apply (buildTree_nesting_iff .first h).mpr
  intro y x hyx
  have hne : ∀ y ∈ [0, 1, 2], ∀ x ∈ [0, 1, 2], endOf (opsOf [(0, 10), (1, 4), (5, 10)]) y ≠
      startOf (opsOf [(0, 10), (1, 4), (5, 10)]) x := by decide
  exact hne y hyx.before.left_mem x hyx.before.right_mem hyx.touch

/-- The second of two ops starts as the first one ends, and is put under it. -/
theorem buildTree_touching : Nested (opsOf [(0, 10), (10, 20)]) [0, 1] ∧ ∃ results,
    buildTree .first (opsOf [(0, 10), (10, 20)]) [0, 1] = some results ∧
      (results 1).parent = some 0 ∧ ¬ Encloses (opsOf [(0, 10), (10, 20)]) [0, 1] 0 1 ∧
          ¬ IntervalNesting (opsOf [(0, 10), (10, 20)]) results [0, 1] := by
  have hnot : ¬ Encloses (opsOf [(0, 10), (10, 20)]) [0, 1] 0 1 := by
    intro h
    have hopen := h.opened
    revert hopen
    decide
  have htimed : ∀ x ∈ [0, 1], Timed (opsOf [(0, 10), (10, 20)] x) := by
    simp only [forall_mem_cons]
    exact ⟨timed_opsOf rfl (by decide) (by decide), timed_opsOf rfl (by decide) (by decide), nofun⟩
  refine ⟨⟨⟨by decide, fun x _ ↦ fresh_opsOf _ x, htimed, by decide⟩, by decide, ?_⟩,
    _, rfl, rfl, hnot, fun h ↦ ?_⟩
  · simp [opsOf, startOf, endOf, Result.end_, NestedOrDisjoint]
  · exact hnot ((h.parent 1 (by decide) 0).mp rfl).encloses

end Hisab.Profiler.Collection
