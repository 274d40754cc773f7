import Hisab.Profiler.SplitEvents
import Mathlib.Data.List.Induction
import Mathlib.Data.List.Nodup

/-!
# Pairing without pointers

What `SplitEventTracker` does to the events when every end that is kept stays where it was:
each kept event is a cell, marked if it is an end whose start has not come, and at the end
the marked cells are merged with the starts that are left.
-/

namespace Hisab.Profiler

open Function List

variable {i : Int} {e start : Event} {es es₁ es₂ : List Event} {M : Int → Option Event}

/-- A kept event, and whether it waits for its start. -/
abbrev EventCell := Event × Bool

/-- The map of starts after an event. -/
def track (M : Int → Option Event) (e : Event) : Int → Option Event :=
  if e.isStart then
    match M e.activityId with
    | some _ => M
    | none => update M e.activityId (some e)
  else if e.isEnd then update M e.activityId none
  else M

/-- The map of starts after some events. -/
def trackAll (M : Int → Option Event) (es : List Event) : Int → Option Event := es.foldl track M

/-- The cell of a kept event. -/
def cellFor (M : Int → Option Event) (e : Event) : EventCell :=
  if e.isEnd then
    match M e.activityId with
    | some start => (start.merge e, false)
    | none => (e, true)
  else (e, false)

/-- The cells of a queue. -/
def cellsFor (M : Int → Option Event) : List Event → List EventCell
  | [] => []
  | e :: es =>
    if e.isStart then cellsFor (track M e) es
    else cellFor M e :: cellsFor (track M e) es

/-- A cell merged with the starts that are left. -/
def settle (M : Int → Option Event) (c : EventCell) : Event :=
  if c.2 then
    match M c.1.activityId with
    | some start => start.merge c.1
    | none => c.1
  else c.1

@[simp] theorem trackAll_nil : trackAll M [] = M := rfl

@[simp] theorem trackAll_cons : trackAll M (e :: es) = trackAll (track M e) es := rfl

theorem trackAll_append : trackAll M (es₁ ++ es₂) = trackAll (trackAll M es₁) es₂ := foldl_append ..

theorem cellsFor_append :
    cellsFor M (es₁ ++ es₂) = cellsFor M es₁ ++ cellsFor (trackAll M es₁) es₂ := by
  induction es₁ generalizing M with
  | nil => rfl
  | cons e es ih =>
    rw [cons_append, cellsFor, cellsFor]
    split <;> simp [ih]

theorem startsOf_cons :
    startsOf (e :: es) = if e.isStart then e :: startsOf es else startsOf es := filter_cons

theorem endsOf_cons :
    endsOf (e :: es) = if !e.isStart && e.isEnd then e :: endsOf es else endsOf es :=
  filter_cons

theorem keptOf_cons :
    keptOf (e :: es) = if !e.isStart then e :: keptOf es else keptOf es := filter_cons

theorem startsOf_append : startsOf (es₁ ++ es₂) = startsOf es₁ ++ startsOf es₂ := filter_append ..

theorem endsOf_append : endsOf (es₁ ++ es₂) = endsOf es₁ ++ endsOf es₂ := filter_append ..

theorem length_cellsFor : (cellsFor M es).length = (keptOf es).length := by
  induction es generalizing M with
  | nil => rfl
  | cons e es ih =>
    rw [cellsFor, keptOf_cons]
    split
    · next h => simpa [h] using ih
    · next h => simpa [h] using ih

theorem cellsFor_eq_nil : cellsFor M es = [] ↔ keptOf es = [] := by
  rw [← length_eq_zero_iff, length_cellsFor, length_eq_zero_iff]

theorem UniqueIds.prefix (h : UniqueIds (es₁ ++ es₂)) : UniqueIds es₁ := by
  rw [UniqueIds, startsOf_append, endsOf_append, map_append, map_append] at h
  exact ⟨h.1.of_append_left, h.2.of_append_left⟩

/-! ### What the map holds -/

/-- An event with another activity leaves the entry of `i`. -/
theorem track_of_ne (h : e.activityId ≠ i) : track M e i = M i := by
  unfold track
  by_cases hs : e.isStart
  · rw [if_pos hs]
    cases M e.activityId with
    | some _ => rfl
    | none => exact update_of_ne h.symm ..
  · rw [if_neg hs]
    split
    · exact update_of_ne h.symm ..
    · rfl

/-- Without an end of activity `i`, its entry is what it was, or else the first start. -/
theorem trackAll_of_no_end (h : ∀ e ∈ endsOf es, e.activityId ≠ i) :
    trackAll M es i = (M i).or ((startsOf es).find? fun start ↦ start.activityId = i) := by
  induction es generalizing M with
  | nil => simp [startsOf]
  | cons e es ih =>
    have hrest : ∀ e ∈ endsOf es, e.activityId ≠ i := fun e' he' ↦ h e' (by
      rw [endsOf_cons]
      split
      · exact mem_cons_of_mem _ he'
      · exact he')
    rw [trackAll_cons, ih hrest, startsOf_cons]
    by_cases hid : e.activityId = i
    · by_cases hs : e.isStart
      · rw [if_pos hs, find?_cons_of_pos (by simpa using hid)]
        have htrack : track M e i = (M i).or (some e) := by
          rw [track, if_pos hs, hid]
          cases hM : M i with
          | some s => simp [hM]
          | none => simp
        rw [htrack, Option.or_assoc, Option.some_or]
      · rw [if_neg hs]
        have he : e.isEnd = false := by
          by_contra hend
          have hend' : e.isEnd = true := by simpa using hend
          exact h e (by simp [endsOf_cons, hs, hend']) hid
        rw [track, if_neg hs, he]
        rfl
    · rw [track_of_ne hid]
      split
      · rw [find?_cons_of_neg (by simpa using hid)]
      · rfl

/-! ### The result -/

section Around

variable (hunique : UniqueIds (es₁ ++ e :: es₂)) (hs : e.isStart = false)
include hunique hs

/-- No other end has the activity of this one. -/
theorem UniqueIds.other_ends (he : e.isEnd = true) :
    (∀ e' ∈ endsOf es₁, e'.activityId ≠ e.activityId) ∧
      ∀ e' ∈ endsOf es₂, e'.activityId ≠ e.activityId := by
  have hends : endsOf (es₁ ++ e :: es₂) = endsOf es₁ ++ e :: endsOf es₂ := by simp [endsOf, hs, he]
  have hnodup := hunique.2
  rw [hends, map_append, nodup_append] at hnodup
  obtain ⟨-, htail, hdisj⟩ := hnodup
  refine ⟨fun e' he' ↦ ?_, fun e' he' heq ↦ ?_⟩
  · exact hdisj _ (mem_map_of_mem he') _ (mem_cons_self ..)
  · exact (nodup_cons.mp htail).1 (heq ▸ mem_map_of_mem he')

/-- The map has no start of the activity of an end exactly if none has come. -/
theorem UniqueIds.map_none_iff (he : e.isEnd = true) :
    trackAll (fun _ ↦ none) es₁ e.activityId = none ↔
      ∀ start ∈ startsOf es₁, start.activityId ≠ e.activityId := by
  rw [trackAll_of_no_end (hunique.other_ends hs he).1]
  simp

/-- The cell of an event comes out paired with its start. -/
theorem UniqueIds.settle_cellFor :
    settle (trackAll (fun _ ↦ none) (es₁ ++ e :: es₂)) (cellFor (trackAll (fun _ ↦ none) es₁) e) =
      pairedWith (startsOf (es₁ ++ e :: es₂)) e := by
  by_cases he : e.isEnd = true
  · rw [cellFor, pairedWith, if_pos he, if_pos he]
    obtain ⟨hends₁, hends₂⟩ := hunique.other_ends hs he
    have hstarts : startsOf (es₁ ++ e :: es₂) = startsOf es₁ ++ startsOf es₂ := by
      simp [startsOf, hs]
    cases hM : trackAll (fun _ ↦ none) es₁ e.activityId with
    | some start =>
      rw [trackAll_of_no_end hends₁, Option.none_or] at hM
      rw [hstarts, find?_append, hM]
      rfl
    | none =>
      have htrack : track (trackAll (fun _ ↦ none) es₁) e e.activityId = none := by
        rw [track, hs, he]
        exact update_self ..
      have hfinal : trackAll (fun _ ↦ none) (es₁ ++ e :: es₂) e.activityId =
          (startsOf es₂).find? fun start ↦ start.activityId = e.activityId := by
        rw [trackAll_append, trackAll_cons, trackAll_of_no_end hends₂, htrack, Option.none_or]
      rw [trackAll_of_no_end hends₁, Option.none_or] at hM
      cases hN : (startsOf es₂).find? fun start ↦ start.activityId = e.activityId <;>
        simp only [settle, if_true, hfinal, hstarts, find?_append, hM, Option.none_or, hN]
  · rw [cellFor, pairedWith, if_neg he, if_neg he]
    rfl

end Around

/-- The cells of a queue come out paired with the starts of all queues. -/
theorem UniqueIds.settle_cellsFor (es₁ queue es₂ : List Event)
    (hunique : UniqueIds (es₁ ++ queue ++ es₂)) :
    (cellsFor (trackAll (fun _ ↦ none) es₁) queue).map
        (settle (trackAll (fun _ ↦ none) (es₁ ++ queue ++ es₂))) =
      (keptOf queue).map (pairedWith (startsOf (es₁ ++ queue ++ es₂))) := by
  induction queue generalizing es₁ with
  | nil => rfl
  | cons e queue ih =>
    have hassoc : es₁ ++ (e :: queue) ++ es₂ = (es₁ ++ [e]) ++ queue ++ es₂ := by simp
    have htrack : track (trackAll (fun _ ↦ none) es₁) e = trackAll (fun _ ↦ none) (es₁ ++ [e]) := by
      rw [trackAll_append]
      rfl
    have ih := ih (es₁ ++ [e]) (hassoc ▸ hunique)
    rw [← hassoc, ← htrack] at ih
    rw [cellsFor, keptOf_cons]
    by_cases hs : e.isStart = true
    · rw [if_pos hs, ih]
      simp [hs]
    · have hs' : e.isStart = false := by simpa using hs
      have hcons : es₁ ++ (e :: queue) ++ es₂ = es₁ ++ e :: (queue ++ es₂) := by simp
      have hhead := UniqueIds.settle_cellFor (hcons ▸ hunique) hs'
      rw [← hcons] at hhead
      rw [if_neg hs, map_cons, ih, hhead]
      simp [hs']

variable (M es) in
/-- The marked cells are ends, in their order. -/
theorem marked_sublist : (((cellsFor M es).filter Prod.snd).map Prod.fst).Sublist (endsOf es) := by
  induction es generalizing M with
  | nil => exact .slnil
  | cons e es ih =>
    rw [cellsFor, endsOf_cons]
    by_cases hs : e.isStart = true
    · rw [if_pos hs]
      simpa [hs] using ih _
    · rw [if_neg hs, filter_cons, cellFor]
      by_cases he : e.isEnd = true
      · rw [if_pos he]
        cases M e.activityId with
        | some start => simpa [hs, he] using (ih _).cons e
        | none => simpa [hs, he] using (ih _).cons_cons e
      · rw [if_neg he]
        simpa [hs, he] using ih _

/-- Some cell is marked exactly if some end has no start before it. -/
theorem UniqueIds.marked_iff (hunique : UniqueIds es) :
    (∃ c ∈ cellsFor (fun _ ↦ none) es, c.2 = true) ↔ EndBeforeStart es := by
  induction es using reverseRecOn with
  | nil => simp [cellsFor, EndBeforeStart]
  | append_singleton es e ih =>
    have hlast : EndBeforeStart (es ++ [e]) ↔ EndBeforeStart es ∨ (e.isStart = false ∧
        e.isEnd = true ∧ ∀ start ∈ startsOf es, start.activityId ≠ e.activityId) := by
      constructor
      · rintro ⟨es₁, e', es₂, heq, hs, he, hno⟩
        rcases eq_nil_or_concat es₂ with rfl | ⟨es₂, e'', rfl⟩
        · obtain ⟨rfl, h⟩ := append_inj' heq rfl
          obtain rfl := (cons.inj h).1
          exact .inr ⟨hs, he, hno⟩
        · rw [concat_eq_append, ← cons_append, ← append_assoc] at heq
          obtain ⟨rfl, -⟩ := append_inj' heq rfl
          exact .inl ⟨es₁, e', es₂, rfl, hs, he, hno⟩
      · rintro (⟨es₁, e', es₂, rfl, hs, he, hno⟩ | ⟨hs, he, hno⟩)
        · exact ⟨es₁, e', es₂ ++ [e], by simp, hs, he, hno⟩
        · exact ⟨es, e, [], rfl, hs, he, hno⟩
    rw [hlast, ← ih hunique.prefix, cellsFor_append]
    rw [cellsFor]
    by_cases hs : e.isStart = true
    · simp [hs, cellsFor]
    · have hs' : e.isStart = false := by simpa using hs
      rw [cellsFor, cellFor]
      by_cases he : e.isEnd = true
      · rw [← UniqueIds.map_none_iff hunique hs' he]
        cases hM : trackAll (fun _ ↦ none) es e.activityId <;> simp [hs', he]
      · simp [he]

end Hisab.Profiler
