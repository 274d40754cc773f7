import Mathlib.Logic.Function.Basic

/-!
# Flags that one party at a time has

A flag that is set exactly if some party holds it, with at most one holder, and a name that is
the name of the one party it stands for, if there is any.
-/

namespace Hisab.Base

open Function

universe u

variable {K : Type u} {held : Bool} {holds named : K → Bool} {current : Option K} {k : K}

/-- The flag is set if some party holds it, and at most one does. -/
structure Exclusive (held : Bool) (holds : K → Bool) : Prop where
  iff : held = true ↔ ∃ k, holds k = true
  unique : ∀ k j, holds k = true → holds j = true → k = j

/-- The name of the only party it stands for. -/
def Named (current : Option K) (named : K → Bool) : Prop := ∀ k, current = some k ↔ named k = true

namespace Exclusive

theorem nobody (h : Exclusive false holds) (k : K) : holds k = false := by
  rw [Bool.eq_false_iff]
  intro hk
  have := h.iff.mpr ⟨k, hk⟩
  cases this

theorem held_of_holds (h : Exclusive held holds) (hk : holds k = true) : held = true :=
  h.iff.mpr ⟨k, hk⟩

variable [DecidableEq K]

/-- A party takes the flag. -/
theorem acquire (h : Exclusive false holds) (k : K) :
    Exclusive true (Function.update holds k true) where
  iff := iff_of_true rfl ⟨k, update_self ..⟩
  unique := by
    have hk : ∀ j, update holds k true j = true → j = k := by
      intro j hj
      by_contra hne
      rw [update_of_ne hne, h.nobody] at hj
      cases hj
    exact fun i j hi hj ↦ (hk i hi).trans (hk j hj).symm

/-- The holder gives the flag back. -/
theorem release (h : Exclusive held holds) (hk : holds k = true) :
    Exclusive false (Function.update holds k false) := by
  have hnone : ∀ j, update holds k false j = false := by
    intro j
    by_cases hj : j = k
    · subst hj
      exact update_self ..
    · rw [update_of_ne hj, Bool.eq_false_iff]
      exact fun hold ↦ hj (h.unique j k hold hk)
  refine ⟨iff_of_false (by simp) ?_, fun i _ hi ↦ ?_⟩
  · rintro ⟨j, hj⟩
    rw [hnone] at hj
    cases hj
  · rw [hnone] at hi
    cases hi

end Exclusive

namespace Named

variable [DecidableEq K]

/-- The name stands for a party while there is no other. -/
theorem set (h : ∀ j, j ≠ k → named j = false) : Named (some k) (Function.update named k true) := by
  intro j
  by_cases hj : j = k
  · subst hj
    exact iff_of_true rfl (update_self ..)
  · rw [update_of_ne hj, h j hj]
    exact iff_of_false (fun heq ↦ hj (Option.some.inj heq).symm) (by simp)

/-- The name stands for nobody any more. -/
theorem clear (h : Named (some k) named) : Named none (Function.update named k false) := by
  intro j
  refine iff_of_false (by simp) fun hj ↦ ?_
  by_cases hjk : j = k
  · subst hjk
    rw [update_self] at hj
    cases hj
  · rw [update_of_ne hjk] at hj
    exact hjk (Option.some.inj ((h j).mpr hj)).symm

end Named

end Hisab.Base

/-!
## Unique ownership

Holders own resources, and every resource counts how often it was freed. Allocation, release
and transfer keep each allocated resource either with exactly one owner and not freed, or
freed exactly once and without an owner.
-/

namespace Hisab.Base

universe u v

variable {K : Type u} {R : Type v} {owner : K → Option R} {frees : R → Option Nat} {k j : K} {r : R}

/-- Every allocated resource has exactly one owner until it is freed once. -/
structure UniquelyOwned (owner : K → Option R) (frees : R → Option Nat) : Prop where
  allocated : ∀ k r, owner k = some r → frees r = some 0
  injective : ∀ k j r, owner k = some r → owner j = some r → k = j
  freed : ∀ r n, frees r = some n → n = 0 ∧ (∃ k, owner k = some r) ∨ n = 1 ∧ ∀ k, owner k ≠ some r

namespace UniquelyOwned

/-- A resource without an owner was freed. -/
theorem eq_one {n : Nat} (h : UniquelyOwned owner frees) (hr : frees r = some n)
    (howner : ∀ k, owner k ≠ some r) : n = 1 := by
  rcases h.freed r n hr with ⟨-, k, hk⟩ | ⟨hn, -⟩
  · exact absurd hk (howner k)
  · exact hn

theorem nothing (hfrees : ∀ r, frees r = none) (howner : ∀ k, owner k = none) :
    UniquelyOwned owner frees where
  allocated k r hk := by rw [howner] at hk; cases hk
  injective k j r hk := by rw [howner] at hk; cases hk
  freed r n hr := by rw [hfrees] at hr; cases hr

variable [DecidableEq K]

/-- The owner of a resource changes. -/
theorem transfer (h : UniquelyOwned owner frees) (hk : owner k = none) :
    UniquelyOwned (Function.update (Function.update owner k (owner j)) j none) frees := by
  -- who owns something now owned it before, except that `k` has it from `j`
  have hnow : ∀ z r, Function.update (Function.update owner k (owner j)) j none z = some r ↔
      z ≠ j ∧ owner (if z = k then j else z) = some r := by
    intro z r
    by_cases hz : z = j
    · simp [hz]
    · by_cases hzk : z = k
      · subst hzk
        simp [hz]
      · simp [hz, hzk]
  refine ⟨fun z r hz ↦ ?_, fun z z' r hz hz' ↦ ?_, fun r n hr ↦ ?_⟩
  · exact h.allocated _ r ((hnow z r).mp hz).2
  · obtain ⟨hne, hz⟩ := (hnow z r).mp hz
    obtain ⟨hne', hz'⟩ := (hnow z' r).mp hz'
    have heq := h.injective _ _ r hz hz'
    split at heq <;> split at heq
    next hzk hzj => exact hzk.trans hzj.symm
    next => exact absurd heq.symm hne'
    next => exact absurd heq hne
    next => exact heq
  · rcases h.freed r n hr with ⟨hn, z, hz⟩ | ⟨hn, hnone⟩
    · refine .inl ⟨hn, if z = j then k else z, (hnow _ r).mpr ?_⟩
      have hzk : z ≠ k := fun heq ↦ by rw [heq, hk] at hz; cases hz
      by_cases hzj : z = j
      · subst hzj
        rw [if_pos rfl, if_pos rfl]
        exact ⟨hzk.symm, hz⟩
      · rw [if_neg hzj, if_neg hzk]
        exact ⟨hzj, hz⟩
    · exact .inr ⟨hn, fun z hz ↦ hnone _ ((hnow z r).mp hz).2⟩

variable [DecidableEq R]

/-- A new resource gets an owner. -/
theorem fresh (h : UniquelyOwned owner frees) (hk : owner k = none) (hr : frees r = none) :
    UniquelyOwned (Function.update owner k (some r)) (Function.update frees r (some 0)) := by
  have hne : ∀ z r', owner z = some r' → r' ≠ r := fun z r' hz heq ↦ by
    have := h.allocated z r' hz
    rw [heq, hr] at this
    cases this
  have hnow : ∀ z r', Function.update owner k (some r) z = some r' ↔
      z = k ∧ r' = r ∨ owner z = some r' := by
    intro z r'
    by_cases hz : z = k
    · subst hz
      simp [hk, eq_comm]
    · simp [hz]
  refine ⟨fun z r' hz ↦ ?_, fun z z' r' hz hz' ↦ ?_, fun r' n hr' ↦ ?_⟩
  · rcases (hnow z r').mp hz with ⟨-, rfl⟩ | hz
    · exact Function.update_self ..
    · rw [Function.update_of_ne (hne z r' hz)]
      exact h.allocated z r' hz
  · rcases (hnow z r').mp hz with ⟨hzk, heq⟩ | hold
    · rcases (hnow z' r').mp hz' with ⟨hzj, -⟩ | hold'
      · exact hzk.trans hzj.symm
      · exact absurd heq (hne z' r' hold')
    · rcases (hnow z' r').mp hz' with ⟨-, heq⟩ | hold'
      · exact absurd heq (hne z r' hold)
      · exact h.injective z z' r' hold hold'
  · by_cases heq : r' = r
    · subst heq
      rw [Function.update_self] at hr'
      cases hr'
      exact .inl ⟨rfl, k, Function.update_self ..⟩
    · rw [Function.update_of_ne heq] at hr'
      rcases h.freed r' n hr' with ⟨hn, z, hz⟩ | ⟨hn, hnone⟩
      · exact .inl ⟨hn, z, (hnow z r').mpr (.inr hz)⟩
      · refine .inr ⟨hn, fun z hz ↦ ?_⟩
        rcases (hnow z r').mp hz with ⟨-, heq'⟩ | hz
        · exact heq heq'
        · exact hnone z hz

/-- An owner frees its resource. -/
theorem release (h : UniquelyOwned owner frees) (hk : owner k = some r) :
    UniquelyOwned (Function.update owner k none) (Function.update frees r (some 1)) := by
  have hnow : ∀ z r', Function.update owner k none z = some r' ↔ z ≠ k ∧ owner z = some r' := by
    intro z r'
    by_cases hz : z = k
    · simp [hz]
    · simp [hz]
  have hne : ∀ z r', z ≠ k → owner z = some r' → r' ≠ r := fun z r' hz hz' heq ↦
    hz (h.injective z k r (heq ▸ hz') hk)
  refine ⟨fun z r' hz ↦ ?_, fun z z' r' hz hz' ↦ ?_, fun r' n hr' ↦ ?_⟩
  · obtain ⟨hzk, hz⟩ := (hnow z r').mp hz
    rw [Function.update_of_ne (hne z r' hzk hz)]
    exact h.allocated z r' hz
  · exact h.injective z z' r' ((hnow z r').mp hz).2 ((hnow z' r').mp hz').2
  · by_cases heq : r' = r
    · subst heq
      rw [Function.update_self] at hr'
      cases hr'
      refine .inr ⟨rfl, fun z hz ↦ ?_⟩
      obtain ⟨hzk, hz⟩ := (hnow z r').mp hz
      exact hne z r' hzk hz rfl
    · rw [Function.update_of_ne heq] at hr'
      rcases h.freed r' n hr' with ⟨hn, z, hz⟩ | ⟨hn, hnone⟩
      · refine .inl ⟨hn, z, (hnow z r').mpr ⟨fun hzk ↦ ?_, hz⟩⟩
        rw [hzk, hk] at hz
        exact heq (Option.some.inj hz).symm
      · exact .inr ⟨hn, fun z hz ↦ hnone z ((hnow z r').mp hz).2⟩

end UniquelyOwned

end Hisab.Base
