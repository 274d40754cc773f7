import Hisab.Profiler.SplitPointers

/-!
# Split activities across threads

When the vector copies no element that holds an end popped before its start, `consume`
returns every kept event of every queue in order, each end with its start, wherever that was
recorded; and when it copies one, `HandleCrossThreadEvents` uses an event that is gone.
-/

namespace Hisab.Profiler

open Function List SplitEventTracker

variable {h : EventHeap} {ps : List Nat} {cs : List EventCell} {tracker : SplitEventTracker}
  {growth : Nat → Relocation} {before recorders : List EventList} {result : List ThreadEvents}

/-! ### `HandleCrossThreadEvents` -/

/-- Another activity does not see that a start has been taken. -/
theorem settle_update {M : Int → Option Event} {i : Int} {c : EventCell}
    (hne : c.2 = true → c.1.activityId ≠ i) :
    settle (update M i none) c = settle M c := by
  unfold settle
  by_cases hc : c.2 = true
  · rw [if_pos hc, if_pos hc, update_of_ne (hne hc)]
  · rw [if_neg hc, if_neg hc]

variable (tracker) in
/-- The marked cells are merged with the starts that are left. -/
theorem mergeAll_holds (hholds : Holds h ps (cs.map Prod.fst)) (hnodup : ps.Nodup)
    (hids : ((cs.filter Prod.snd).map fun c ↦ c.1.activityId).Nodup) :
    ∃ h', SplitEventTracker.mergeAll tracker h (marked ps cs) = .ok h' ∧
      Holds h' ps (cs.map (settle tracker.startEvents)) ∧
      ∀ q, q ∉ ps → h'.objects q = h.objects q := by
  induction cs generalizing ps h tracker with
  | nil =>
    cases hholds
    exact ⟨h, rfl, .nil, fun _ _ ↦ rfl⟩
  | cons c cs ih =>
    cases hholds with
    | @cons p _ ps _ hobj hholds =>
    obtain ⟨hp, hnodup⟩ := nodup_cons.mp hnodup
    rw [marked, map_cons]
    by_cases hc : c.2 = true
    · rw [if_pos hc, mergeAll]
      simp only [filter_cons, hc, if_true, map_cons, nodup_cons] at hids
      have hread : h.read p = .ok c.1 := by rw [EventHeap.read, hobj]
      cases hM : tracker.startEvents c.1.activityId with
      | none =>
        obtain ⟨h', hrun, hholds', hsame⟩ := ih tracker hholds hnodup hids.2
        refine ⟨h', ?_, .cons ?_ hholds', fun q hq ↦ hsame q fun hmem ↦ hq (mem_cons_of_mem _ hmem)⟩
        · simp only [findStartAndMerge, hread, hM, bind, Except.bind, pure, Except.pure]
          exact hrun
        · rw [hsame p hp, hobj, settle, if_pos hc, hM]
      | some start =>
        have hholds₁ : Holds (h.write p (start.merge c.1)) ps (cs.map Prod.fst) :=
          Holds.congr hholds fun q hq ↦ by
            have hne : q ≠ p := fun heq ↦ hp (by rwa [heq] at hq)
            exact update_of_ne hne ..
        obtain ⟨h', hrun, hholds', hsame⟩ := ih { tracker with
            startEvents := update tracker.startEvents c.1.activityId none }
          hholds₁ hnodup hids.2
        have hother : cs.map (settle (update tracker.startEvents c.1.activityId none)) =
            cs.map (settle tracker.startEvents) := map_congr_left fun c' hc' ↦
          settle_update fun hmark heq ↦ hids.1 (mem_map.mpr
            ⟨c', mem_filter.mpr ⟨hc', hmark⟩, heq⟩)
        rw [hother] at hholds'
        refine ⟨h', ?_, .cons ?_ hholds', fun q hq ↦ ?_⟩
        · simp only [findStartAndMerge, hread, hM, bind, Except.bind, pure, Except.pure]
          exact hrun
        · rw [hsame p hp, settle, if_pos hc, hM]
          exact update_self ..
        · rw [hsame q fun hmem ↦ hq (mem_cons_of_mem _ hmem)]
          have hne : q ≠ p := fun heq ↦ hq (by rw [heq]; exact mem_cons_self ..)
          exact update_of_ne hne ..
    · rw [if_neg hc]
      simp only [filter_cons, hc] at hids
      obtain ⟨h', hrun, hholds', hsame⟩ := ih tracker hholds hnodup hids
      refine ⟨h', hrun, .cons ?_ hholds', fun q hq ↦ hsame q fun hmem ↦ hq (mem_cons_of_mem _ hmem)⟩
      rw [hsame p hp, hobj, settle, if_neg hc]

/-- The returned vector has the events that its objects hold. -/
theorem readResult_eq {contents : List EventList} (hshape : SameShape result contents)
    (hholds : Holds h (result.flatMap ThreadEvents.events) (contents.flatMap Prod.snd)) :
    readResult h result = .ok contents := by
  induction hshape with
  | nil => rfl
  | @cons t c ts contents hhead _ ih =>
    obtain ⟨hthis, hrest⟩ := hholds.split hhead.2
    simp only [readResult, hthis.readAll, ih hrest, bind, Except.bind, pure, Except.pure, hhead.1]

/-! ### All recorders -/

/-- What `CopiesOnlySettled` says of the recorders that are left after `before`. -/
def SettledFrom (growth : Nat → Relocation) (before rest : List EventList) : Prop :=
  ∀ mid r after, rest = mid ++ r :: after → keptOf r.2 ≠ [] →
    growth ((before ++ mid).filter fun r ↦ keptOf r.2 ≠ []).length = .copies →
    ¬ EndBeforeStart (allEvents (before ++ mid))

theorem settledFrom_cons {r : EventList} {rest : List EventList} :
    SettledFrom growth before (r :: rest) ↔
      (keptOf r.2 ≠ [] → growth (before.filter fun r ↦ keptOf r.2 ≠ []).length = .copies →
        ¬ EndBeforeStart (allEvents before)) ∧ SettledFrom growth (before ++ [r]) rest := by
  constructor
  · intro hs
    refine ⟨fun hk hg ↦ ?_, fun mid r' after heq hk hg ↦ ?_⟩
    · have := hs [] r rest rfl hk
      rw [append_nil] at this
      exact this hg
    · have := hs (r :: mid) r' after (by rw [heq]; rfl) hk
      rw [append_cons before r mid] at this
      exact this hg
  · rintro ⟨hhead, htail⟩ mid r' after heq hk hg
    cases mid with
    | nil =>
      cases heq
      rw [append_nil] at hg ⊢
      exact hhead hk hg
    | cons r₁ mid =>
      cases heq
      rw [append_cons before r mid] at hg ⊢
      exact htail mid r' after rfl hk hg

theorem UniqueIds.of_recorders (hu : UniqueIds (allEvents (before ++ recorders))) :
    UniqueIds (allEvents before) := by
  rw [allEvents_append] at hu
  exact hu.prefix

/-- The loop over the recorders collects them all, if it copies no marked cell. -/
theorem Collected.consumeRecorders (hc : Collected before tracker h result)
    (hu : UniqueIds (allEvents (before ++ recorders)))
    (hs : SettledFrom growth before recorders) :
    ∃ tracker' h' result', consumeRecorders growth tracker h result recorders =
      .ok (tracker', h', result') ∧ Collected (before ++ recorders) tracker' h' result' := by
  induction recorders generalizing before tracker h result with
  | nil => exact ⟨tracker, h, result, rfl, by rwa [append_nil]⟩
  | cons r rest ih =>
    obtain ⟨hhead, htail⟩ := settledFrom_cons.mp hs
    obtain ⟨tracker₁, h₁, result₁, hrun, hc₁⟩ := hc.recorder growth r
      fun hk hg c hc' ↦ by
        rw [hc.length_eq] at hg
        by_contra hmark
        exact hhead hk hg (hu.of_recorders.marked_iff.mp ⟨c, hc', by simpa using hmark⟩)
    rw [append_cons] at hu ⊢
    obtain ⟨tracker', h', result', hrun', hc'⟩ := ih hc₁ hu htail
    refine ⟨tracker', h', result', ?_, hc'⟩
    simp only [Profiler.consumeRecorders, hrun]
    exact hrun'

theorem Dangling.consumeRecorders {h' : EventHeap} {tracker' : SplitEventTracker}
    {result' : List ThreadEvents} (hd : Dangling h tracker.endEvents)
    (hrun : consumeRecorders growth tracker h result recorders = .ok (tracker', h', result')) :
    Dangling h' tracker'.endEvents := by
  induction recorders generalizing tracker h result with
  | nil =>
    cases hrun
    exact hd
  | cons r rest ih =>
    rw [Profiler.consumeRecorders] at hrun
    cases hfirst : consumeRecorder growth tracker h result r with
    | error => simp only [hfirst, bind, Except.bind, reduceCtorEq] at hrun
    | ok first =>
      simp only [hfirst] at hrun
      exact ih (hd.later (.consumeRecorder hfirst)) hrun

/-- The loop leaves a pointer to an object that is gone, if it copies a marked cell. -/
theorem Collected.dangling {h' : EventHeap} {tracker' : SplitEventTracker}
    {result' : List ThreadEvents} (hc : Collected before tracker h result)
    (hu : UniqueIds (allEvents (before ++ recorders)))
    (hs : ¬ SettledFrom growth before recorders)
    (hrun : Profiler.consumeRecorders growth tracker h result recorders =
      .ok (tracker', h', result')) : Dangling h' tracker'.endEvents := by
  induction recorders generalizing before tracker h result with
  | nil => exact absurd (fun mid r after heq ↦ by simp at heq) hs
  | cons r rest ih =>
    rw [Profiler.consumeRecorders] at hrun
    by_cases hhead : keptOf r.2 ≠ [] ∧
        growth (before.filter fun r ↦ keptOf r.2 ≠ []).length = .copies ∧
        EndBeforeStart (allEvents before)
    · obtain ⟨tracker₁, h₁, result₁, hfirst, hd⟩ := hc.recorder_dangling
        hhead.1 (by rw [hc.length_eq]; exact hhead.2.1)
        (hu.of_recorders.marked_iff.mpr hhead.2.2)
      simp only [hfirst] at hrun
      exact hd.consumeRecorders hrun
    · have hhead' : keptOf r.2 ≠ [] →
          growth (before.filter fun r ↦ keptOf r.2 ≠ []).length = .copies →
          ¬ EndBeforeStart (allEvents before) := fun hk hg he ↦ hhead ⟨hk, hg, he⟩
      obtain ⟨tracker₁, h₁, result₁, hfirst, hc₁⟩ := hc.recorder growth r
        fun hk hg c hc' ↦ by
          rw [hc.length_eq] at hg
          by_contra hmark
          exact hhead' hk hg (hu.of_recorders.marked_iff.mp ⟨c, hc', by simpa using hmark⟩)
      simp only [hfirst] at hrun
      rw [append_cons] at hu
      exact ih hc₁ hu (fun htail ↦ hs (settledFrom_cons.mpr ⟨hhead', htail⟩)) hrun

/-- The cells of the recorders come out as the paired events. -/
theorem settle_threadCells (before recorders : List EventList)
    (hu : UniqueIds (allEvents (before ++ recorders))) :
    (threadCells (trackAll (fun _ ↦ none) (allEvents before)) recorders).map (fun c ↦
        (c.1, c.2.map (settle (trackAll (fun _ ↦ none) (allEvents (before ++ recorders)))))) =
      (recorders.filter fun r ↦ keptOf r.2 ≠ []).map fun r ↦
        (r.1, (keptOf r.2).map (pairedWith (startsOf (allEvents (before ++ recorders))))) := by
  induction recorders generalizing before with
  | nil => rfl
  | cons r rest ih =>
    have hu' := hu
    rw [append_cons] at hu'
    have ih := ih (before ++ [r]) hu'
    rw [← append_cons, allEvents_snoc, trackAll_append] at ih
    have hsplit : allEvents (before ++ r :: rest) = allEvents before ++ r.2 ++ allEvents rest := by
      rw [allEvents_append, allEvents_cons, append_assoc]
    rw [threadCells]
    by_cases hk : keptOf r.2 = []
    · rw [if_pos hk, ih]
      simp [hk]
    · have hthis := UniqueIds.settle_cellsFor (allEvents before) r.2 (allEvents rest) (hsplit ▸ hu)
      rw [← hsplit] at hthis
      rw [if_neg hk, map_cons, ih, hthis]
      simp [hk]

/-- `consume` on queues whose activities have one start and one end at most: it returns every
kept event, each end with its start, if and only if the vector, when it copies its elements,
has no end in them that was popped before its start. -/
theorem split_events_paired_iff (growth : Nat → Relocation) (recorders : List EventList)
    (hu : UniqueIds (allEvents recorders)) :
    consume growth recorders = .ok (pairedEvents recorders) ↔
      CopiesOnlySettled growth recorders := by
  have hstart : Collected [] {} {} [] := ⟨rfl, .nil, ⟨.nil, nodup_nil, by simp, rfl⟩⟩
  constructor
  · intro hok
    by_contra hcopies
    rw [consume] at hok
    cases hrun : consumeRecorders growth {} {} [] recorders with
    | error => simp only [hrun, bind, Except.bind, reduceCtorEq] at hok
    | ok collected =>
      obtain ⟨p, hp, hlt, hnone⟩ := hstart.dangling hu hcopies hrun
      simp only [hrun, handleCrossThreadEvents,
        mergeAll_dangling hp hnone hlt, bind, Except.bind, reduceCtorEq] at hok
  · intro hcopies
    obtain ⟨tracker, h, result, hrun, hc⟩ := hstart.consumeRecorders hu hcopies
    rw [nil_append] at hc
    have hids : (((cellsFor (fun _ ↦ none) (allEvents recorders)).filter Prod.snd).map
        fun c ↦ c.1.activityId).Nodup := by
      have := (marked_sublist (allEvents recorders) (fun _ ↦ none)).map Event.activityId
      rw [map_map] at this
      exact this.nodup hu.2
    obtain ⟨h', hmerge, hholds, -⟩ := mergeAll_holds tracker hc.live.holds
      hc.live.nodup hids
    have hpaired : (threadCells (fun _ ↦ none) recorders).map (fun c ↦
        (c.1, c.2.map (settle (trackAll (fun _ ↦ none) (allEvents recorders))))) =
        pairedEvents recorders := settle_threadCells [] recorders hu
    have hshape : SameShape result (pairedEvents recorders) := by
      rw [← hpaired, SameShape, forall₂_map_right_iff]
      refine hc.shape.imp fun t c hsame ↦ ⟨hsame.1, ?_⟩
      rw [length_map]
      exact hsame.2
    have hread : readResult h' result = .ok (pairedEvents recorders) := by
      refine readResult_eq hshape ?_
      have hflat : (pairedEvents recorders).flatMap Prod.snd =
          (cellsFor (fun _ ↦ none) (allEvents recorders)).map (settle tracker.startEvents) := by
        rw [← hpaired, flatMap_map, hc.starts, ← threadCells_flatMap, map_flatMap]
      rw [hflat]
      exact hholds
    simp only [consume, hrun, handleCrossThreadEvents, hc.live.ends, hmerge,
      hread, bind, Except.bind]

/-- An end, then its start and another event on a second thread. -/
def crossThread : List EventList :=
  [(⟨1, ""⟩, [⟨"", -5, 100⟩]), (⟨2, ""⟩, [⟨"load", 10, -5⟩, ⟨"work", 20, 30⟩])]

/-- The vector moves its elements when it grows. -/
theorem moved_vector_pairs : consume (fun _ ↦ .moves) crossThread = .ok (pairedEvents crossThread) ∧
      (pairedEvents crossThread).head? = some (⟨1, ""⟩, [⟨"load", 10, 100⟩]) := by
  have hu : UniqueIds (allEvents crossThread) := by
    unfold UniqueIds
    decide
  refine ⟨(split_events_paired_iff _ _ hu).mpr fun _ _ _ _ _ hg ↦ ?_, by decide⟩
  cases hg

/-- A vector that copies its only element to grow loses the event that a kept pointer is
for. -/
theorem copied_vector_dangles :
    ¬ ∀ (growth : Nat → Relocation) (recorders : List EventList), UniqueIds (allEvents recorders) →
        consume growth recorders = .ok (pairedEvents recorders) := by
  intro hall
  have hu : UniqueIds (allEvents crossThread) := by
    unfold UniqueIds
    decide
  have hok := hall (fun n ↦ if n = 1 then .copies else .inPlace) crossThread hu
  cases hok

end Hisab.Profiler
