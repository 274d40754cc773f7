import Mathlib.Data.List.Basic

/-!
# Vectors indexed by a dense range

A vector of fixed length whose entry at `i` is `f i`. Writing one entry updates `f`, so a
loop that fills or counts into a vector is followed on the function alone.
-/

namespace Hisab.Base

open Function

universe u v

/-- The vector `[f 0, …, f (count - 1)]`. -/
def tabulate {α : Type u} (count : Nat) (f : Nat → α) : List α := (List.range count).map f

section Tabulate

variable {α : Type u} {ε : Type v} {count i : Nat} {f g : Nat → α}

theorem getElem?_tabulate (h : i < count) : (tabulate count f)[i]? = some (f i) := by
  simp [tabulate, h]

theorem getElem?_tabulate_eq_none (h : count ≤ i) : (tabulate count f)[i]? = none := by
  simp [tabulate, h]

theorem tabulate_congr (h : ∀ i < count, f i = g i) : tabulate count f = tabulate count g :=
  List.map_congr_left fun i hi ↦ h i (List.mem_range.mp hi)

theorem replicate_eq_tabulate (a : α) : List.replicate count a = tabulate count fun _ ↦ a := by
  simp [tabulate]

/-- Writing the entry at `i` updates the function there. -/
theorem modify_tabulate (w : α → α) :
    (tabulate count f).modify i w = tabulate count (update f i (w (f i))) := by
  apply List.ext_getElem?
  intro j
  rw [List.getElem?_modify]
  by_cases hj : j < count
  · rw [getElem?_tabulate hj, getElem?_tabulate hj]
    by_cases hij : i = j
    · simp [hij]
    · simp [hij, update_of_ne (Ne.symm hij)]
  · rw [getElem?_tabulate_eq_none (by omega), getElem?_tabulate_eq_none (by omega)]
    rfl

/-- A loop that appends `val e` to the entry at `key e` sorts the values by their keys, each
entry in the order of the loop. -/
theorem foldl_append_tabulate (key : ε → Nat) (val : ε → α) (l : List ε) (s : Nat → List α) :
    l.foldl (fun t e ↦ t.modify (key e) (· ++ [val e])) (tabulate count s) =
      tabulate count fun i ↦ s i ++ (l.filter (key · = i)).map val := by
  induction l generalizing s with
  | nil => simp
  | cons e l ih =>
    rw [List.foldl_cons, modify_tabulate, ih]
    refine tabulate_congr fun i _ ↦ ?_
    by_cases h : key e = i
    · subst h
      simp
    · simp [h, update_of_ne (Ne.symm h)]

/-- A loop that counts `e` at the entry `key e`. -/
theorem foldl_count_tabulate (key : ε → Nat) (l : List ε) (s : Nat → Int) :
    l.foldl (fun t e ↦ t.modify (key e) (· + 1)) (tabulate count s) =
      tabulate count fun i ↦ s i + l.countP (key · = i) := by
  induction l generalizing s with
  | nil => simp
  | cons e l ih =>
    rw [List.foldl_cons, modify_tabulate, ih]
    refine tabulate_congr fun i _ ↦ ?_
    by_cases h : key e = i
    · subst h
      simp
      omega
    · simp [h, update_of_ne (Ne.symm h)]

end Tabulate
end Hisab.Base
