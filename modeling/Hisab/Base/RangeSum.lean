import Mathlib.Algebra.BigOperators.Intervals
import Mathlib.Algebra.Order.BigOperators.Group.Finset

/-!
# Weighing a map over identities

The total weight of a partial map on the identities below `n`, and how the total changes
when all entries but one or two weigh the same.
-/

namespace Hisab.Base.RangeSum

open Finset

universe u

variable {β : Type u} {H : Nat → Option β} {f g : Nat → β → Nat} {n x : Nat} {X : β}

/-- Weight of one entry; an absent entry weighs nothing. -/
def weight (H : Nat → Option β) (f : Nat → β → Nat) (b : Nat) : Nat := ((H b).map (f b)).getD 0

/-- Total weight of the entries below `n`. -/
def total (H : Nat → Option β) (f : Nat → β → Nat) (n : Nat) : Nat :=
  ∑ b ∈ Finset.range n, weight H f b

theorem weight_of (h : H x = some X) : weight H f x = f x X := by
  rw [weight, h, Option.map_some, Option.getD_some]

theorem weight_none (h : H x = none) : weight H f x = 0 := by
  rw [weight, h, Option.map_none, Option.getD_none]

theorem total_succ : total H f (n + 1) = total H f n + weight H f n := sum_range_succ ..

/-- Everything but the entry `x` weighs the same. -/
theorem total_off {H' : Nat → Option β} (hx : x < n)
    (h : ∀ b, b ≠ x → weight H' g b = weight H f b) :
    total H' g n + weight H f x = total H f n + weight H' g x := by
  have hm : x ∈ range n := mem_range.mpr hx
  rw [total, total, ← sum_erase_add _ (weight H' g) hm, ← sum_erase_add _ (weight H f) hm]
  have he : ∑ b ∈ (range n).erase x, weight H' g b = ∑ b ∈ (range n).erase x, weight H f b :=
    sum_congr rfl (fun b hb ↦ h b (ne_of_mem_erase hb))
  omega

/-- Everything but the entries `x` and `y` weighs the same. -/
theorem total_off_two {H' : Nat → Option β} {y : Nat} (hx : x < n) (hy : y < n) (hxy : x ≠ y)
    (h : ∀ b, b ≠ x → b ≠ y → weight H' g b = weight H f b) :
    total H' g n + (weight H f x + weight H f y) =
      total H f n + (weight H' g x + weight H' g y) := by
  have hmx : x ∈ range n := mem_range.mpr hx
  have hmy : y ∈ (range n).erase x := mem_erase.mpr ⟨hxy.symm, mem_range.mpr hy⟩
  rw [total, total, ← sum_erase_add _ (weight H' g) hmx,
    ← sum_erase_add _ (weight H f) hmx, ← sum_erase_add _ (weight H' g) hmy,
    ← sum_erase_add _ (weight H f) hmy]
  have he : ∑ b ∈ ((range n).erase x).erase y, weight H' g b =
      ∑ b ∈ ((range n).erase x).erase y, weight H f b :=
    sum_congr rfl (fun b hb ↦ h b (ne_of_mem_erase (mem_of_mem_erase hb)) (ne_of_mem_erase hb))
  omega

theorem total_le (hfg : ∀ b B, H b = some B → g b B ≤ f b B) : total H g n ≤ total H f n := by
  apply sum_le_sum
  intro b _
  cases hB : H b with
  | none => rw [weight_none hB, weight_none hB]
  | some B =>
    rw [weight_of hB, weight_of hB]
    exact hfg b B hB

theorem total_congr (hfg : ∀ b B, H b = some B → f b B = g b B) : total H f n = total H g n :=
  Nat.le_antisymm (total_le (fun b B hB ↦ Nat.le_of_eq (hfg b B hB)))
    (total_le (fun b B hB ↦ Nat.le_of_eq (hfg b B hB).symm))

theorem total_add : total H (fun b B ↦ f b B + g b B) n = total H f n + total H g n := by
  rw [total, total, total, ← sum_add_distrib]
  refine sum_congr rfl (fun b _ ↦ ?_)
  cases hB : H b with
  | none => simp only [weight_none hB]
  | some B => simp only [weight_of hB]

/-- A gap at one entry is a gap between the totals. -/
theorem total_add_le {k : Nat} (hx : x < n) (h : H x = some X) (hk : f x X + k ≤ g x X)
    (hfg : ∀ b B, H b = some B → f b B ≤ g b B) : total H f n + k ≤ total H g n := by
  have hoff : total H (fun b B ↦ if b = x then f x B else g b B) n + weight H g x =
      total H g n + weight H (fun b B ↦ if b = x then f x B else g b B) x :=
    total_off hx (by
      intro b hb
      simp only [weight, if_neg hb])
  have hle : total H f n ≤ total H (fun b B ↦ if b = x then f x B else g b B) n := by
    apply total_le
    intro b B hB
    split
    · next hb => rw [hb]
    · exact hfg b B hB
  rw [weight_of h, weight_of h, if_pos rfl] at hoff
  omega

/-- The weight of one entry is part of the total. -/
theorem le_total (hx : x < n) (h : H x = some X) : f x X ≤ total H f n := by
  rw [← weight_of (f := f) h]
  exact single_le_sum (fun _ _ ↦ Nat.zero_le _) (mem_range.mpr hx)

/-- The total over a list without repetitions of all entries with a weight. -/
theorem sum_list {l : List Nat} (hnd : l.Nodup) (hlt : ∀ b ∈ l, b < n)
    (hzero : ∀ b B, H b = some B → b ∉ l → f b B = 0) :
    (l.map (weight H f)).sum = total H f n := by
  rw [← List.sum_toFinset _ hnd]
  apply sum_subset
  · intro b hb
    exact mem_range.mpr (hlt b (List.mem_toFinset.mp hb))
  · intro b _ hn
    cases hB : H b with
    | none => exact weight_none hB
    | some B =>
      rw [weight_of hB]
      exact hzero b B hB (fun hm ↦ hn (List.mem_toFinset.mpr hm))

end Hisab.Base.RangeSum
