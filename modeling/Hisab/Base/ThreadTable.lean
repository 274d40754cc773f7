import Mathlib

/-!
# Tables of thread states

The threads of a concurrent system are a function from thread numbers to states, and a step
of one thread updates that function at one place. What the threads hold together then changes
by what that thread held before and holds after.
-/

namespace Hisab.Base

open Function List

universe u v

variable {I : Type u} {S : Type v} [DecidableEq I] {f : I → S} {i j : I} {a b : S}

/-- A thread in state `b` after thread `i` went to state `a`: it is `i`, or it was there
before. -/
theorem update_eq_cases (h : update f i a j = b) : (j = i ∧ a = b) ∨ (j ≠ i ∧ f j = b) := by
  by_cases hj : j = i
  · subst hj
    exact .inl ⟨rfl, by simpa using h⟩
  · exact .inr ⟨hj, by simpa [update_of_ne hj] using h⟩

/-- A thread in a state other than the one thread `i` went to was there before. -/
theorem eq_of_update_eq (h : update f i a j = b) (hne : a ≠ b) : f j = b := by
  rcases update_eq_cases h with ⟨_, rfl⟩ | ⟨_, h⟩
  · exact absurd rfl hne
  · exact h

section Held

variable {A : Type u} {S : Type v} (view : S → Option A) (n : Nat) (f : Nat → S) (i : Nat)

/-- What the first `n` threads hold, a thread in state `s` holding `view s`. -/
def heldBy : List A := (List.range n).filterMap fun j ↦ view (f j)

/-- What the first `n` threads but `i` hold. -/
def heldByOthers : List A := ((List.range n).erase i).filterMap fun j ↦ view (f j)

variable {n i}

theorem heldBy_perm (hi : i < n) :
    (heldBy view n f).Perm ((view (f i)).toList ++ heldByOthers view n f i) := by
  have hsplit := (perm_cons_erase (mem_range.mpr hi)).filterMap fun j ↦ view (f j)
  refine hsplit.trans (List.Perm.of_eq ?_)
  cases h : view (f i) <;> simp [heldByOthers, h]

/-- A step of thread `i` leaves what the others hold. -/
theorem heldByOthers_update (a : S) :
    heldByOthers view n (update f i a) i = heldByOthers view n f i := by
  refine filterMap_congr fun j hj ↦ ?_
  have hne : j ≠ i := ((nodup_range).mem_erase_iff.mp hj).1
  rw [update_of_ne hne]

/-- What the threads hold after thread `i` went to state `a`. -/
theorem heldBy_update_perm (hi : i < n) (a : S) :
    (heldBy view n (update f i a)).Perm ((view a).toList ++ heldByOthers view n f i) := by
  have h := heldBy_perm view (update f i a) hi
  rwa [update_self, heldByOthers_update] at h

/-- How often `a` is held before and after thread `i` went to state `b`. -/
theorem count_heldBy [DecidableEq A] (hi : i < n) (b : S) (a : A) :
    (heldBy view n (update f i b)).count a + (view (f i)).toList.count a =
      (heldBy view n f).count a + (view b).toList.count a := by
  have hbefore := (heldBy_perm view f hi).count_eq a
  have hafter := (heldBy_update_perm view f hi b).count_eq a
  rw [count_append] at hbefore hafter
  omega

theorem mem_heldBy {a : A} : a ∈ heldBy view n f ↔ ∃ j < n, view (f j) = some a := by simp [heldBy]

end Held

section HeldLists

variable {A : Type u} {S : Type v} (view : S → List A) (n : Nat) (f : Nat → S) (i : Nat)

/-- What the first `n` threads hold, a thread in state `s` holding the list `view s`. -/
def held : List A := (List.range n).flatMap fun j ↦ view (f j)

/-- What the first `n` threads but `i` hold. -/
def heldRest : List A := ((List.range n).erase i).flatMap fun j ↦ view (f j)

variable {view n f i}

theorem mem_held {a : A} : a ∈ held view n f ↔ ∃ j < n, a ∈ view (f j) := by simp [held]

theorem held_succ : held view (n + 1) f = held view n f ++ view (f n) := by simp [held, range_succ]

theorem held_congr {g : Nat → S} (h : ∀ j < n, view (f j) = view (g j)) :
    held view n f = held view n g :=
  flatMap_congr fun j hj ↦ h j (mem_range.mp hj)

theorem held_perm (hi : i < n) : (held view n f).Perm (view (f i) ++ heldRest view n f i) := by
  have hsplit := (perm_cons_erase (mem_range.mpr hi)).flatMap_right fun j ↦ view (f j)
  rwa [flatMap_cons] at hsplit

/-- A step of thread `i` leaves what the others hold. -/
theorem heldRest_update (a : S) : heldRest view n (update f i a) i = heldRest view n f i := by
  refine flatMap_congr fun j hj ↦ ?_
  have hne : j ≠ i := ((nodup_range).mem_erase_iff.mp hj).1
  rw [update_of_ne hne]

/-- What the threads hold after thread `i` went to state `a`. -/
theorem held_update_perm (hi : i < n) (a : S) :
    (held view n (update f i a)).Perm (view a ++ heldRest view n f i) := by
  have h : (held view n (update f i a)).Perm _ := held_perm hi
  rwa [update_self, heldRest_update] at h

/-- How often `a` is held before and after thread `i` went to state `b`. -/
theorem count_held_update [BEq A] (hi : i < n) (b : S) (a : A) :
    (held view n (update f i b)).count a + (view (f i)).count a =
      (held view n f).count a + (view b).count a := by
  have hbefore : (held view n f).count a = _ := (held_perm hi).count_eq a
  have hafter : (held view n (update f i b)).count a = _ := (held_update_perm hi b).count_eq a
  rw [count_append] at hbefore hafter
  omega

/-- What is held after thread `i` went to state `b` was held before or is held by it. -/
theorem mem_held_update {b : S} {a : A} (h : a ∈ held view n (update f i b)) :
    a ∈ view b ∨ a ∈ held view n f := by
  obtain ⟨j, hj, ha⟩ := mem_held.mp h
  by_cases hji : j = i
  · subst hji
    rw [update_self] at ha
    exact .inl ha
  · rw [update_of_ne hji] at ha
    exact .inr (mem_held.mpr ⟨j, hj, ha⟩)

/-- What is held once is held by one thread. -/
theorem eq_of_count_held_le_one [BEq A] [LawfulBEq A] {a : A} (h : (held view n f).count a ≤ 1)
    (hi : i < n) {j : Nat} (hj : j < n) (ha : a ∈ view (f i)) (hb : a ∈ view (f j)) : j = i := by
  by_contra hne
  have hcount : (held view n f).count a = _ := (held_perm hi).count_eq a
  rw [count_append] at hcount
  have hfirst : 0 < (view (f i)).count a := count_pos_iff.mpr ha
  have hsecond : 0 < (heldRest view n f i).count a := by
    apply count_pos_iff.mpr
    apply mem_flatMap.mpr
    exact ⟨j, (mem_erase_of_ne hne).mpr (mem_range.mpr hj), hb⟩
  omega

/-- Threads that hold nothing. -/
theorem held_eq_nil (h : ∀ j < n, view (f j) = []) : held view n f = [] :=
  flatMap_eq_nil_iff.mpr fun j hj ↦ h j (mem_range.mp hj)

end HeldLists

section HeldTotals

variable {S : Type v} (view : S → Nat) (n : Nat) (f : Nat → S)

/-- The sum of what the first `n` threads hold. -/
def heldTotal : Nat := (held (fun s ↦ [view s]) n f).sum

variable {view n f} {i : Nat}

/-- The sum before and after thread `i` went to state `a`. -/
theorem heldTotal_update (hi : i < n) (a : S) :
    heldTotal view n (update f i a) + view (f i) = heldTotal view n f + view a := by
  have hbefore : heldTotal view n f = _ := (held_perm hi).sum_eq
  have hafter : heldTotal view n (update f i a) = _ := (held_update_perm hi a).sum_eq
  rw [sum_append, sum_singleton] at hbefore hafter
  omega

theorem heldTotal_eq_zero (h : ∀ j < n, view (f j) = 0) : heldTotal view n f = 0 := by
  rw [heldTotal, sum_eq_zero]
  intro a ha
  obtain ⟨j, hj, ha⟩ := mem_held.mp ha
  rw [mem_singleton.mp ha, h j hj]

end HeldTotals

end Hisab.Base
