import Mathlib.Data.List.Infix

/-!
# Lists joined by a doubled mark

Lists without a doubled mark inside, joined with one between each two and split again at the
first doubled marks from the left. A list that ends with the mark is cut one element early.
-/

namespace Hisab.Base

open List

universe u

variable {α : Type u} [DecidableEq α] {m : α} {xs ys zs : List α} {xss : List (List α)}

/-- The parts of a list between the doubled marks found from the left. -/
def splitDouble (m : α) : List α → List (List α)
  | [] => [[]]
  | [x] => [[x]]
  | x :: y :: xs =>
    if x = m ∧ y = m then [] :: splitDouble m xs
    else
      match splitDouble m (y :: xs) with
      | part :: parts => (x :: part) :: parts
      | [] => [[x]]

/-- The nonempty parts. -/
def splitDoubleNonempty (m : α) (xs : List α) : List (List α) := (splitDouble m xs).filter (· ≠ [])

omit [DecidableEq α] in
/-- What is inside the tail of a list is inside the list. -/
theorem not_infix_of_cons {x : α} (h : ¬ [m, m] <:+: x :: xs) : ¬ [m, m] <:+: xs :=
  fun hxs ↦ h (hxs.trans (suffix_cons x xs).isInfix)

omit [DecidableEq α] in
theorem not_double_of_cons {x y : α} (h : ¬ [m, m] <:+: x :: y :: xs) : ¬ (x = m ∧ y = m) := by
  rintro ⟨hx, hy⟩
  exact h ⟨[], xs, by rw [hx, hy]; rfl⟩

/-- A list without a doubled mark is one part. -/
theorem splitDouble_of_not_infix (h : ¬ [m, m] <:+: xs) : splitDouble m xs = [xs] := by
  induction xs with
  | nil => rfl
  | cons x xs ih =>
    cases xs with
    | nil => rfl
    | cons y xs => rw [splitDouble, if_neg (not_double_of_cons h), ih (not_infix_of_cons h)]

/-- The first doubled mark behind a list that does not end with the mark. -/
theorem splitDouble_append (h : ¬ [m, m] <:+: xs) (hlast : xs.getLast? ≠ some m) (ys : List α) :
    splitDouble m (xs ++ m :: m :: ys) = xs :: splitDouble m ys := by
  induction xs with
  | nil => rw [nil_append, splitDouble, if_pos ⟨rfl, rfl⟩]
  | cons x xs ih =>
    cases xs with
    | nil =>
      have hx : x ≠ m := fun hx ↦ hlast (by rw [hx]; rfl)
      rw [cons_append, nil_append, splitDouble, if_neg (fun h ↦ hx h.1), splitDouble,
        if_pos ⟨rfl, rfl⟩]
    | cons y xs =>
      have ih := ih (not_infix_of_cons h) hlast
      rw [cons_append] at ih ⊢
      rw [cons_append, splitDouble, if_neg (not_double_of_cons h), ih]

/-- Behind a list that ends with the mark the first doubled mark begins one element early. -/
theorem splitDouble_append_mark (h : ¬ [m, m] <:+: xs ++ [m]) (ys : List α) :
    splitDouble m (xs ++ [m] ++ m :: m :: ys) = xs :: splitDouble m (m :: ys) := by
  have hlast : xs.getLast? ≠ some m := fun hlast ↦ by
    obtain ⟨zs, rfl⟩ := getLast?_eq_some_iff.mp hlast
    exact h ⟨zs, [], by simp⟩
  have hxs : ¬ [m, m] <:+: xs := fun hxs ↦ h (hxs.trans (prefix_append xs [m]).isInfix)
  rw [append_assoc]
  exact splitDouble_append hxs hlast (m :: ys)

/-! ### Joined lists -/

/-- A joined list is split back if none but the last one ends with the mark. -/
theorem splitDouble_join (hne : xss ≠ []) (hdouble : ∀ xs ∈ xss, ¬ [m, m] <:+: xs)
    (hlast : ∀ xs ∈ xss.dropLast, xs.getLast? ≠ some m) :
    splitDouble m ([m, m].intercalate xss) = xss := by
  induction xss with
  | nil => exact absurd rfl hne
  | cons xs xss ih =>
    have hxs := hdouble xs (by simp)
    cases xss with
    | nil => rw [intercalate_singleton, splitDouble_of_not_infix hxs]
    | cons ys xss =>
      have hsplit := splitDouble_append hxs (hlast xs (by simp)) ([m, m].intercalate (ys :: xss))
      have ih := ih (by simp) (fun zs hzs ↦ hdouble zs (by simp [hzs]))
        fun zs hzs ↦ hlast zs (by simp [hzs])
      rw [ih] at hsplit
      exact hsplit

theorem splitDoubleNonempty_join (hnonempty : ∀ xs ∈ xss, xs ≠ [])
    (hdouble : ∀ xs ∈ xss, ¬ [m, m] <:+: xs)
    (hlast : ∀ xs ∈ xss.dropLast, xs.getLast? ≠ some m) :
    splitDoubleNonempty m ([m, m].intercalate xss) = xss := by
  by_cases hne : xss = []
  · subst hne
    rfl
  · rw [splitDoubleNonempty, splitDouble_join hne hdouble hlast]
    exact filter_eq_self.mpr fun xs hxs ↦ by simpa using hnonempty xs hxs

omit [DecidableEq α] in
/-- One more list at the end. -/
theorem intercalate_concat (sep : List α) (hne : xss ≠ []) (xs : List α) :
    sep.intercalate (xss ++ [xs]) = sep.intercalate xss ++ (sep ++ xs) := by
  induction xss with
  | nil => exact absurd rfl hne
  | cons ys xss ih =>
    cases xss with
    | nil => simp
    | cons zs xss =>
      rw [cons_append, intercalate_cons_of_ne_nil (by simp), ih (by simp),
        intercalate_cons_cons, append_assoc, append_assoc, append_assoc]

omit [DecidableEq α] in
theorem intercalate_ne_nil {sep : List α} (hne : xss ≠ []) (hnonempty : ∀ xs ∈ xss, xs ≠ []) :
    sep.intercalate xss ≠ [] := by
  cases xss with
  | nil => exact absurd rfl hne
  | cons xs xss =>
    intro h
    refine hnonempty xs (by simp) ?_
    cases xss with
    | nil => rwa [intercalate_singleton] at h
    | cons ys xss =>
      rw [intercalate_cons_cons, append_assoc] at h
      exact (append_eq_nil_iff.mp h).1

/-! ### The number of parts -/

theorem splitDoubleNonempty_double (xs : List α) :
    splitDoubleNonempty m (m :: m :: xs) = splitDoubleNonempty m xs := by
  rw [splitDoubleNonempty, splitDouble, if_pos ⟨rfl, rfl⟩]
  rfl

/-- A list before a doubled mark adds at most one part. -/
theorem length_splitDoubleNonempty_append (h : ¬ [m, m] <:+: xs) {n : Nat}
    (hys : (splitDoubleNonempty m ys).length ≤ n)
    (hmys : (splitDoubleNonempty m (m :: ys)).length ≤ n) :
    (splitDoubleNonempty m (xs ++ m :: m :: ys)).length ≤ n + 1 := by
  have hcons : ∀ (part : List α) (zs : List α), (splitDoubleNonempty m zs).length ≤ n →
      ((part :: splitDouble m zs).filter (· ≠ [])).length ≤ n + 1 := by
    intro part zs hzs
    rw [splitDoubleNonempty] at hzs
    rw [filter_cons]
    split
    · rw [length_cons]
      omega
    · omega
  by_cases hlast : xs.getLast? = some m
  · obtain ⟨zs, rfl⟩ := getLast?_eq_some_iff.mp hlast
    rw [splitDoubleNonempty, splitDouble_append_mark h]
    exact hcons zs _ hmys
  · rw [splitDoubleNonempty, splitDouble_append h hlast]
    exact hcons xs _ hys

/-- A joined list, also behind a mark, has at most as many parts as there are lists. -/
theorem length_splitDoubleNonempty_join (hdouble : ∀ xs ∈ xss, ¬ [m, m] <:+: xs) (hne : xss ≠ []) :
    (splitDoubleNonempty m ([m, m].intercalate xss)).length ≤ xss.length ∧
      (splitDoubleNonempty m (m :: [m, m].intercalate xss)).length ≤ xss.length := by
  have hone : ∀ xs : List α, ¬ [m, m] <:+: xs → (splitDoubleNonempty m xs).length ≤ 1 := by
    intro xs hxs
    rw [splitDoubleNonempty, splitDouble_of_not_infix hxs]
    exact length_filter_le ..
  -- behind a mark a list either begins with the mark, or it still has no doubled mark
  have hmark : ∀ xs : List α, ¬ [m, m] <:+: xs →
      (∃ ys, xs = m :: ys ∧ ¬ [m, m] <:+: ys) ∨ ¬ [m, m] <:+: m :: xs := by
    intro xs hxs
    by_cases hm : [m, m] <:+: m :: xs
    · rw [infix_cons_iff, prefix_cons_iff] at hm
      rcases hm with (hm | ⟨ys, hys, hpre⟩) | hm
      · cases hm
      · obtain rfl := (cons.inj hys).2
        obtain ⟨ys, rfl⟩ := hpre
        exact .inl ⟨ys, rfl, not_infix_of_cons hxs⟩
      · exact absurd hm hxs
    · exact .inr hm
  induction xss with
  | nil => exact absurd rfl hne
  | cons xs xss ih =>
    have hxs := hdouble xs (by simp)
    cases xss with
    | nil =>
      rw [intercalate_singleton]
      refine ⟨hone xs hxs, ?_⟩
      rcases hmark xs hxs with ⟨ys, rfl, hys⟩ | hm
      · rw [splitDoubleNonempty_double]
        exact hone ys hys
      · exact hone _ hm
    | cons ys xss =>
      obtain ⟨ih₁, ih₂⟩ := ih (fun zs hzs ↦ hdouble zs (by simp [hzs])) (by simp)
      rw [intercalate_cons_cons, append_assoc]
      refine ⟨length_splitDoubleNonempty_append hxs ih₁ ih₂, ?_⟩
      rcases hmark xs hxs with ⟨zs, rfl, hzs⟩ | hm
      · rw [cons_append, splitDoubleNonempty_double]
        exact length_splitDoubleNonempty_append hzs ih₁ ih₂
      · exact length_splitDoubleNonempty_append hm ih₁ ih₂

end Hisab.Base
