import Mathlib

/-!
# The last interval still open

Intervals are taken in the order of their starts; those that have ended are dropped from the top
of a stack, and the new one is put on it. Whatever the intervals are, the top of the stack before
an interval is put on it is the last one before it that is still open at its start.
-/

namespace Hisab.Base

universe u v

variable {α : Type u} {T : Type v} [LinearOrder T] {start stop : α → T} {x y : α} {t : T}
  {opened earlier : List α}

/-- The last of the earlier intervals, the latest first, that is open at a time. -/
def lastOpen (stop : α → T) (earlier : List α) (t : T) : Option α :=
  earlier.find? fun y ↦ decide (t < stop y)

/-- The intervals that have ended are dropped from the top. -/
def dropEnded (stop : α → T) (t : T) (opened : List α) : List α :=
  opened.dropWhile fun y ↦ decide (stop y ≤ t)

/-- From a time on the stack shows the same intervals as open as the earlier intervals do. -/
def ShowsOpen (stop : α → T) (opened earlier : List α) (t : T) : Prop :=
  ∀ t', t ≤ t' → lastOpen stop opened t' = lastOpen stop earlier t'

theorem head?_dropEnded : (dropEnded stop t opened).head? = lastOpen stop opened t := by
  induction opened with
  | nil => rfl
  | cons y opened ih =>
    rw [dropEnded, lastOpen, List.dropWhile_cons, List.find?_cons]
    by_cases h : stop y ≤ t
    · rw [if_pos (decide_eq_true h), decide_eq_false (not_lt.mpr h)]
      exact ih
    · rw [if_neg (by simpa using h), decide_eq_true (not_le.mp h)]
      rfl

/-- What has ended is not open later. -/
theorem lastOpen_dropEnded {t' : T} (h : t ≤ t') :
    lastOpen stop (dropEnded stop t opened) t' = lastOpen stop opened t' := by
  induction opened with
  | nil => rfl
  | cons y opened ih =>
    rw [dropEnded, List.dropWhile_cons]
    by_cases hy : stop y ≤ t
    · rw [if_pos (decide_eq_true hy), lastOpen, lastOpen, List.find?_cons,
        decide_eq_false (not_lt.mpr (hy.trans h))]
      exact ih
    · rw [if_neg (by simpa using hy)]

namespace ShowsOpen

theorem nil (t : T) : ShowsOpen stop [] [] t := fun _ _ ↦ rfl

theorem mono {t' : T} (h : ShowsOpen stop opened earlier t) (ht : t ≤ t') :
    ShowsOpen stop opened earlier t' := fun s hs ↦ h s (ht.trans hs)

/-- The top below the next interval. -/
theorem head? (h : ShowsOpen stop opened earlier t) :
    (dropEnded stop t opened).head? = lastOpen stop earlier t :=
  head?_dropEnded.trans (h t le_rfl)

/-- The next interval is put on the stack. -/
theorem push (h : ShowsOpen stop opened earlier t) (x : α) :
    ShowsOpen stop (x :: dropEnded stop t opened) (x :: earlier) t := by
  intro t' ht
  rw [lastOpen, lastOpen, List.find?_cons, List.find?_cons]
  split
  next => rfl
  next => exact (lastOpen_dropEnded ht).trans (h t' ht)

end ShowsOpen

/-- The parts of the list before and behind the last open interval. -/
theorem lastOpen_eq_some (h : lastOpen stop earlier t = some y) :
    t < stop y ∧ ∃ later before, earlier = later ++ y :: before ∧ ∀ z ∈ later, stop z ≤ t := by
  obtain ⟨hy, later, before, rfl, hlater⟩ := List.find?_eq_some_iff_append.mp h
  refine ⟨of_decide_eq_true hy, later, before, rfl, fun z hz ↦ ?_⟩
  simpa using hlater z hz

theorem lastOpen_eq_none (h : lastOpen stop earlier t = none) : ∀ y ∈ earlier, stop y ≤ t := by
  intro y hy
  simpa using List.find?_eq_none.mp h y hy

/-- Every interval with the last one before it that is open at its start. -/
def openParents (start stop : α → T) : List α → List α → List (α × Option α)
  | _, [] => []
  | earlier, x :: xs => (x, lastOpen stop earlier (start x)) :: openParents start stop (x :: earlier) xs

theorem openParents_fst (xs : List α) : (openParents start stop earlier xs).map Prod.fst = xs := by
  induction xs generalizing earlier with
  | nil => rfl
  | cons x xs ih => rw [openParents, List.map_cons, ih]

theorem mem_openParents {p : Option α} {xs : List α} : (x, p) ∈ openParents start stop earlier xs ↔
    ∃ before after, xs = before ++ x :: after ∧
      p = lastOpen stop (before.reverse ++ earlier) (start x) := by
  induction xs generalizing earlier with
  | nil => simp [openParents]
  | cons z xs ih =>
    rw [openParents, List.mem_cons, ih]
    constructor
    · rintro (heq | ⟨before, after, rfl, hp⟩)
      · cases heq
        exact ⟨[], xs, rfl, rfl⟩
      · exact ⟨z :: before, after, rfl, by simpa using hp⟩
    · rintro ⟨before, after, hsplit, hp⟩
      cases before with
      | nil =>
        cases hsplit
        exact .inl (by rw [hp]; rfl)
      | cons _ before =>
        cases hsplit
        exact .inr ⟨before, after, rfl, by simpa using hp⟩

/-- Two intervals are nested or disjoint. -/
def NestedOrDisjoint (start stop : α → T) (x y : α) : Prop :=
  stop x ≤ start y ∨ stop y ≤ start x ∨ (start x ≤ start y ∧ stop y ≤ stop x) ∨
    (start y ≤ start x ∧ stop x ≤ stop y)

/-- An interval that starts while an earlier one is open is inside it. -/
theorem NestedOrDisjoint.stop_le (h : NestedOrDisjoint start stop x y) (hstart : start x < start y)
    (hopen : start y < stop x) (hy : start y ≤ stop y) : stop y ≤ stop x := by
  obtain h | h | h | h := h
  · exact absurd h (not_le.mpr hopen)
  · exact absurd (hy.trans h) (not_le.mpr hstart)
  · exact h.2
  · exact absurd h.1 (not_le.mpr hstart)

end Hisab.Base
