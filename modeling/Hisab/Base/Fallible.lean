import Mathlib.Data.List.Forall2

/-!
# Computations that may fail

When a sequence of fallible steps has a result, so has each of them.
-/

namespace Hisab.Base

universe u v

variable {ε : Type u} {α β : Type v} {x : Except ε α} {f : α → Except ε β} {b : β} {l : List α}

@[simp] theorem ok_bind (a : α) : (Except.ok a >>= f) = f a := rfl

theorem bind_eq_ok : (x >>= f) = .ok b ↔ ∃ a, x = .ok a ∧ f a = .ok b := by
  constructor
  · intro h
    cases x with
    | error e => cases h
    | ok a => exact ⟨a, rfl, h⟩
  · rintro ⟨a, rfl, h⟩
    exact h

theorem exists_pure_eq_ok (a : α) : (∃ b, (pure a : Except ε α) = .ok b) ↔ True :=
  iff_of_true ⟨a, rfl⟩ trivial

/-- When the second step has a result whatever the first one gives, or never has one. -/
theorem exists_bind_eq_ok {P : Prop} (hf : ∀ a, (∃ b, f a = .ok b) ↔ P) :
    (∃ b, (x >>= f) = .ok b) ↔ (∃ a, x = .ok a) ∧ P := by
  constructor
  · rintro ⟨b, h⟩
    obtain ⟨a, ha, hb⟩ := bind_eq_ok.mp h
    exact ⟨⟨a, ha⟩, (hf a).mp ⟨b, hb⟩⟩
  · rintro ⟨⟨a, ha⟩, hP⟩
    obtain ⟨b, hb⟩ := (hf a).mpr hP
    exact ⟨b, bind_eq_ok.mpr ⟨a, ha, hb⟩⟩

theorem pure_eq_ok {a a' : α} : (pure a : Except ε α) = .ok a' ↔ a = a' := by
  constructor
  · intro h
    cases h
    rfl
  · rintro rfl
    rfl

/-- A map over a list has a result if it has one for each element. -/
theorem mapM_eq_ok {r : List β} : l.mapM f = .ok r ↔ List.Forall₂ (fun a b ↦ f a = .ok b) l r := by
  induction l generalizing r with
  | nil =>
    rw [List.mapM_nil, pure_eq_ok, List.forall₂_nil_left_iff]
    exact eq_comm
  | cons a l ih =>
    rw [List.mapM_cons, bind_eq_ok]
    constructor
    · rintro ⟨b, hb, h⟩
      obtain ⟨bs, hbs, h⟩ := bind_eq_ok.mp h
      rw [← pure_eq_ok.mp h]
      exact .cons hb (ih.mp hbs)
    · rintro (_ | ⟨hb, hbs⟩)
      exact ⟨_, hb, bind_eq_ok.mpr ⟨_, ih.mpr hbs, rfl⟩⟩

/-- What every step preserves, a fold of steps preserves. -/
theorem foldlM_invariant {g : β → α → Except ε β} {I : β → Prop}
    (hstep : ∀ b a b', I b → g b a = .ok b' → I b') {b b' : β} (hl : l.foldlM g b = .ok b')
    (hb : I b) : I b' := by
  induction l generalizing b with
  | nil =>
    cases pure_eq_ok.mp hl
    exact hb
  | cons a l ih =>
    rw [List.foldlM_cons, bind_eq_ok] at hl
    obtain ⟨b₁, hb₁, hl⟩ := hl
    exact ih hl (hstep b a b₁ hb hb₁)

/-! ### Counted loops -/

/-- `for (; i < stop; i += step)`, with the counter it leaves. -/
def forLoop {σ : Type v} (stop step : Nat) (hstep : 0 < step) (body : Nat → σ → Except ε σ) (i : Nat)
    (s : σ) : Except ε (Nat × σ) :=
  if i < stop then body i s >>= fun s ↦ forLoop stop step hstep body (i + step) s
  else .ok (i, s)
termination_by stop - i

/-- A loop over whole steps ends at its bound, with what each turn preserves. -/
theorem forLoop_ok {σ : Type v} {step : Nat} (hstep : 0 < step) (body : Nat → σ → Except ε σ)
    (I : Nat → σ → Prop) {i : Nat} {s : σ} (k : Nat)
    (hbody : ∀ m < k, ∀ s, I (i + m * step) s →
      ∃ s', body (i + m * step) s = .ok s' ∧ I (i + (m + 1) * step) s') (hi : I i s) :
    ∃ s', forLoop (i + k * step) step hstep body i s = .ok (i + k * step, s') ∧
      I (i + k * step) s' := by
  induction k generalizing i s with
  | zero =>
    rw [Nat.zero_mul, Nat.add_zero, forLoop, if_neg (Nat.lt_irrefl i)]
    exact ⟨s, rfl, hi⟩
  | succ k ih =>
    have hlt : i < i + (k + 1) * step := by
      rw [Nat.succ_mul]
      omega
    have hfirst := hbody 0 (Nat.succ_pos k) s
    rw [Nat.zero_mul, Nat.add_zero, Nat.one_mul] at hfirst
    obtain ⟨s₁, hs₁, hI⟩ := hfirst hi
    have hshift (m : Nat) : i + step + m * step = i + (m + 1) * step := by
      rw [Nat.succ_mul]
      omega
    obtain ⟨s', hs', hI'⟩ := ih (fun m hm s hs ↦ by
      rw [hshift] at hs ⊢
      have hnext := hbody (m + 1) (by omega) s hs
      rwa [← hshift (m + 1)] at hnext) hI
    rw [hshift] at hs' hI'
    refine ⟨s', ?_, hI'⟩
    rw [forLoop, if_pos hlt, hs₁]
    exact hs'

end Hisab.Base
