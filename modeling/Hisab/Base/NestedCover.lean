import Hisab.Base.Forest
import Hisab.Base.LastOpen
import Mathlib

/-!
# The length of a union of intervals

Intervals of integers, each with what it adds to the union of those before it when they are
taken in the order of their starts.
-/

namespace Hisab.Base

open Finset

universe u

variable {α : Type u} {start stop : α → Int} {x y p : α} {earlier : List α}

/-- The union of half-open intervals. -/
noncomputable def covered (start stop : α → Int) (events : List α) : Finset Int :=
  events.foldr (fun x points ↦ Finset.Ico (start x) (stop x) ∪ points) ∅

/-- Its length. -/
noncomputable def unionLength (start stop : α → Int) (events : List α) : Nat :=
  (covered start stop events).card

theorem mem_covered {events : List α} {z : Int} :
    z ∈ covered start stop events ↔ ∃ x ∈ events, start x ≤ z ∧ z < stop x := by
  induction events with
  | nil => simp [covered]
  | cons x events ih =>
    rw [covered, List.foldr_cons, mem_union, mem_Ico]
    simp only [List.mem_cons, exists_eq_or_imp]
    exact or_congr Iff.rfl ih

/-- The order of the intervals does not matter. -/
theorem unionLength_perm {events events' : List α} (h : events.Perm events') :
    unionLength start stop events = unionLength start stop events' := by
  have hcovered : covered start stop events = covered start stop events' := by
    ext z
    simp only [mem_covered, h.mem_iff]
  rw [unionLength, hcovered, unionLength]

theorem unionLength_cons (x : α) (earlier : List α) :
    unionLength start stop (x :: earlier) = unionLength start stop earlier +
        (Finset.Ico (start x) (stop x) \ covered start stop earlier).card := by
  rw [unionLength, covered, List.foldr_cons, ← card_sdiff_add_card, Nat.add_comm]
  rfl

/-- An interval inside an earlier one adds nothing. -/
theorem unionLength_cons_of_inside (hy : y ∈ earlier) (hstart : start y ≤ start x)
    (hstop : stop x ≤ stop y) :
    unionLength start stop (x :: earlier) = unionLength start stop earlier := by
  have hsub : Finset.Ico (start x) (stop x) ⊆ covered start stop earlier := by
    intro z hz
    rw [mem_Ico] at hz
    exact mem_covered.mpr ⟨y, hy, hstart.trans hz.1, hz.2.trans_le hstop⟩
  rw [unionLength_cons, sdiff_eq_empty_iff_subset.mpr hsub, card_empty, Nat.add_zero]

variable (start) in
/-- An interval behind all earlier ones adds its length. -/
theorem unionLength_cons_of_ended (h : ∀ y ∈ earlier, stop y ≤ start x) :
    unionLength start stop (x :: earlier) =
      unionLength start stop earlier + (stop x - start x).toNat := by
  have hdisjoint : Disjoint (Finset.Ico (start x) (stop x)) (covered start stop earlier) := by
    rw [disjoint_left]
    intro z hz hcovered
    rw [mem_Ico] at hz
    obtain ⟨y, hy, -, hlt⟩ := mem_covered.mp hcovered
    have := h y hy
    omega
  rw [unionLength_cons, sdiff_eq_self_of_disjoint hdisjoint, Int.card_Ico]

/-- An interval adds what is behind the latest end, if an earlier interval around its start
ends last. -/
theorem unionLength_cons_of_last (hy : y ∈ earlier) (hstart : start y ≤ start x)
    (hopen : start x ≤ stop y) (hlast : ∀ z ∈ earlier, stop z ≤ stop y) :
    unionLength start stop (x :: earlier) =
      unionLength start stop earlier + (stop x - stop y).toNat := by
  have hsdiff : Finset.Ico (start x) (stop x) \ covered start stop earlier =
      Finset.Ico (stop y) (stop x) := by
    ext z
    rw [mem_sdiff, mem_Ico, mem_Ico, mem_covered]
    constructor
    · rintro ⟨⟨hz, hzx⟩, hnot⟩
      by_contra hzy
      exact hnot ⟨y, hy, by omega, by omega⟩
    · rintro ⟨hz, hzx⟩
      refine ⟨⟨by omega, hzx⟩, ?_⟩
      rintro ⟨w, hw, -, hlt⟩
      have := hlast w hw
      omega
  rw [unionLength_cons, hsdiff, Int.card_Ico]

variable (stop) in
/-- An interval adds at most what is behind an earlier one around its start. -/
theorem unionLength_cons_le (hp : p ∈ earlier) (hstart : start p ≤ start x) :
    unionLength start stop (x :: earlier) ≤
      unionLength start stop earlier + (stop x - stop p).toNat := by
  have hsub : Finset.Ico (start x) (stop x) \ covered start stop earlier ⊆
      Finset.Ico (stop p) (stop x) := by
    intro z hz
    rw [mem_sdiff, mem_Ico, mem_covered] at hz
    rw [mem_Ico]
    refine ⟨?_, hz.1.2⟩
    by_contra hlt
    exact hz.2 ⟨p, hp, by omega, by omega⟩
  have hcard := card_le_card hsub
  rw [Int.card_Ico] at hcard
  rw [unionLength_cons]
  omega

end Hisab.Base

/-!
## Own times and the union of nested intervals

Nested or disjoint intervals are put, in the order of their starts, under the last one that is
still open. The own parts of all nodes add up to at least the length of the union, and to the
length of the union unless an interval is put under a shorter one with the same start while
another one that ends behind the shorter one is around.
-/

namespace Hisab.Base

universe u v

variable {α : Type u} {β : Type v} {start stop : α → Int} {g : β → α} {x : α} {b : β}
  {earlier : List α} {s : Spine β} {t : Int}

/-- The length of an interval. -/
def span (start stop : α → Int) (x : α) : Nat := (stop x - start x).toNat

/-- The last open interval starts with the new one and ends before it, and it is not the one
that ends last. -/
def Inverted (start stop : α → Int) (earlier : List α) (x : α) : Prop :=
  ∃ y p, lastOpen stop earlier (start x) = some y ∧ start y = start x ∧ stop y < stop x ∧
    p ∈ earlier ∧ stop y < stop p

/-- A spine whose intervals have been taken in the order of their starts up to a time. -/
structure Nested (start stop : α → Int) (g : β → α) (s : Spine β) (earlier : List α) (t : Int) :
    Prop where
  fits : s.Fits (span start stop ∘ g) (start ∘ g) (stop ∘ g) t
  shows : ShowsOpen stop (s.elements.map g) earlier t
  before : ∀ y ∈ earlier, start y ≤ t

/-- The next interval. -/
def nest (start stop : α → Int) (g : β → α) (s : Spine β) (b : β) : Spine β :=
  (s.closeWhile fun node ↦ decide (stop (g node) ≤ start (g b))).push b

namespace Nested

theorem start_ : Nested start stop g ({} : Spine β) [] t := ⟨trivial, .nil t, nofun⟩

theorem span_eq (h : start x ≤ stop x) : (span start stop x : Int) = stop x - start x :=
  Int.toNat_of_nonneg (Int.sub_nonneg.mpr h)

theorem elements_nest : (nest start stop g s b).elements.map g =
    g b :: dropEnded stop (start (g b)) (s.elements.map g) := by
  rw [nest, Spine.elements_push, Spine.elements_closeWhile, dropEnded, List.dropWhile_map]
  rfl

theorem fits_close (h : Nested start stop g s earlier t) (ht : t ≤ start (g b)) :
    (s.closeWhile fun node ↦ decide (stop (g node) ≤ start (g b))).Fits
      (span start stop ∘ g) (start ∘ g) (stop ∘ g) (start (g b)) :=
  (h.fits.mono ht).closeWhile fun _ ↦ span_eq

theorem next (h : Nested start stop g s earlier t) (ht : t ≤ start (g b))
    (hle : start (g b) ≤ stop (g b)) :
    Nested start stop g (nest start stop g s b) (g b :: earlier) (start (g b)) where
  fits := (h.fits_close ht).push hle
  shows := by
    rw [elements_nest]
    exact (h.shows.mono ht).push (g b)
  before y hy := by
    obtain rfl | hy := List.mem_cons.mp hy
    · exact le_rfl
    · exact (h.before y hy).trans ht

/-- The node that the next interval is put under. -/
theorem top_close (h : Nested start stop g s earlier t) (ht : t ≤ start (g b)) :
    (s.closeWhile fun node ↦ decide (stop (g node) ≤ start (g b))).top.map g =
      lastOpen stop earlier (start (g b)) := by
  rw [Spine.top_eq, Spine.elements_closeWhile, ← (h.shows.mono ht).head?, dropEnded,
    List.dropWhile_map, List.head?_map]
  rfl

/-- What the next interval adds to the own parts and to the union. -/
theorem selfSum_nest (h : Nested start stop g s earlier t) (ht : t ≤ start (g b))
    (hle : start (g b) ≤ stop (g b))
    (hnested : ∀ y ∈ earlier, NestedOrDisjoint start stop y (g b)) :
    unionLength start stop (g b :: earlier) + s.selfSum (span start stop ∘ g) ≤
        (nest start stop g s b).selfSum (span start stop ∘ g) + unionLength start stop earlier ∧
      (unionLength start stop (g b :: earlier) + s.selfSum (span start stop ∘ g) =
        (nest start stop g s b).selfSum (span start stop ∘ g) + unionLength start stop earlier ↔
          ¬ Inverted start stop earlier (g b)) := by
  have htop := h.top_close ht
  have hfits := h.fits_close ht
  have hspan : (span start stop (g b) : Int) = stop (g b) - start (g b) := span_eq hle
  rw [nest]
  cases hopened : (s.closeWhile fun node ↦ decide (stop (g node) ≤ start (g b))).opened with
  | nil =>
    rw [Spine.top, hopened] at htop
    have hnone : lastOpen stop earlier (start (g b)) = none := htop.symm
    have hlength := unionLength_cons_of_ended start (lastOpen_eq_none hnone)
    rw [Spine.selfSum_push_nil hopened, Spine.selfSum_closeWhile]
    have hnot : ¬ Inverted start stop earlier (g b) := by
      rintro ⟨y, -, hy, -⟩
      cases hnone.symm.trans hy
    have hspan' : (span start stop ∘ g) b = (stop (g b) - start (g b)).toNat := rfl
    exact ⟨by omega, iff_of_true (by omega) hnot⟩
  | cons node rest =>
    obtain ⟨node, children⟩ := node
    rw [Spine.top, hopened] at htop
    have hlast : lastOpen stop earlier (start (g b)) = some (g node) := htop.symm
    rw [Spine.Fits, hopened] at hfits
    obtain ⟨hyle, hystart, hfit, -⟩ := hfits
    obtain ⟨hyopen, later, before, hsplit, -⟩ := lastOpen_eq_some hlast
    have hy : g node ∈ earlier := by
      rw [hsplit]
      simp
    have hyspan : (span start stop (g node) : Int) = stop (g node) - start (g node) := span_eq hyle
    rw [Spine.selfSum_push_cons hopened, Spine.selfSum_closeWhile]
    simp only [Function.comp_apply] at hystart hfit ⊢
    by_cases hinside : stop (g b) ≤ stop (g node)
    · -- the interval is inside, and the children so far have left its length
      have hlength := unionLength_cons_of_inside hy hystart hinside
      have hnot : ¬ Inverted start stop earlier (g b) := by
        rintro ⟨y, -, hy, -, hlt, -⟩
        cases hlast.symm.trans hy
        omega
      exact ⟨by omega, iff_of_true (by omega) hnot⟩
    · have hsame : start (g node) = start (g b) := by
        by_contra hne
        exact hinside ((hnested _ hy).stop_le (lt_of_le_of_ne hystart hne) hyopen hle)
      by_cases hmore : ∃ p ∈ earlier, stop (g node) < stop p
      · -- part of what the children leave negative is covered by another interval
        obtain ⟨p, hp, hlt⟩ := hmore
        have hlength := unionLength_cons_le stop hp ((h.before p hp).trans ht)
        have hinv : Inverted start stop earlier (g b) :=
          ⟨g node, p, hlast, hsame, by omega, hp, hlt⟩
        exact ⟨by omega, iff_of_false (by omega) (not_not.mpr hinv)⟩
      · have hle' : ∀ z ∈ earlier, stop z ≤ stop (g node) := by
          intro z hz
          by_contra hlt
          exact hmore ⟨z, hz, by omega⟩
        have hlength := unionLength_cons_of_last hy hystart hyopen.le hle'
        have hnot : ¬ Inverted start stop earlier (g b) := by
          rintro ⟨y, p, hy', -, -, hp, hlt⟩
          cases hlast.symm.trans hy'
          exact hmore ⟨p, hp, hlt⟩
        exact ⟨by omega, iff_of_true (by omega) hnot⟩

end Nested

/-! ### Lists without inversions -/

section Inversions

variable {xs before after : List α}

/-- No interval of the list is inverted. -/
def NoInversion (start stop : α → Int) : List α → List α → Prop
  | _, [] => True
  | earlier, x :: xs => ¬ Inverted start stop earlier x ∧ NoInversion start stop (x :: earlier) xs

theorem noInversion_iff_split : NoInversion start stop earlier xs ↔
    ∀ before x after, xs = before ++ x :: after →
      ¬ Inverted start stop (before.reverse ++ earlier) x := by
  induction xs generalizing earlier with
  | nil => exact iff_of_true trivial fun before x after h ↦ by simp at h
  | cons x xs ih =>
    rw [NoInversion, ih]
    constructor
    · rintro ⟨hx, hxs⟩ before z after hsplit
      cases before with
      | nil =>
        cases hsplit
        exact hx
      | cons _ before =>
        cases hsplit
        simpa using hxs before z after rfl
    · refine fun h ↦ ⟨h [] x xs rfl, fun before z after hsplit ↦ ?_⟩
      simpa using h (x :: before) z after (by rw [hsplit]; rfl)

/-- An interval, a shorter one and then a longer one with the start of the shorter one, where the
first one ends behind the shorter one. -/
theorem exists_inverted {l₁ l₂ l₃ l₄ : List α} {p i j : α}
    (hsorted : (l₁ ++ p :: (l₂ ++ i :: (l₃ ++ j :: l₄))).Pairwise fun a b ↦ start a ≤ start b)
    (hstart : start i = start j) (hpos : start i < stop i) (hij : stop i < stop j)
    (hip : stop i < stop p) : ∃ before x after,
      l₁ ++ p :: (l₂ ++ i :: (l₃ ++ j :: l₄)) = before ++ x :: after ∧
        Inverted start stop before.reverse x := by
  induction hn : l₃.length using Nat.strong_induction_on generalizing l₃ j l₄ with
  | _ n ih =>
    have hrest := (List.pairwise_append.mp hsorted).2.1
    have hrest := (List.pairwise_append.mp (List.pairwise_cons.mp hrest).2).2.1
    obtain ⟨hi, hrest⟩ := List.pairwise_cons.mp hrest
    have hall : l₁ ++ p :: (l₂ ++ i :: (l₃ ++ j :: l₄)) =
        (l₁ ++ p :: (l₂ ++ i :: l₃)) ++ j :: l₄ := by simp
    have hopened : lastOpen stop (l₁ ++ p :: (l₂ ++ i :: l₃)).reverse (start j) =
        (lastOpen stop l₃.reverse (start j)).or (some i) := by
      simp [hstart ▸ hpos, lastOpen]
    cases hlast : lastOpen stop l₃.reverse (start j) with
    | none =>
      rw [hlast] at hopened
      exact ⟨_, j, l₄, hall, i, p, hopened, hstart, hij, by simp, hip⟩
    | some y =>
      rw [hlast] at hopened
      obtain ⟨hyopen, later, front, hsplit, -⟩ := lastOpen_eq_some hlast
      have hl₃ : l₃ = front.reverse ++ y :: later.reverse := by
        rw [← List.reverse_reverse l₃, hsplit]
        simp
      have hy : start y = start j := by
        refine le_antisymm ?_ (hstart ▸ hi y (by rw [hl₃]; simp))
        exact (List.pairwise_append.mp hrest).2.2 y (by rw [hl₃]; simp) j (.head _)
      by_cases hyi : stop y ≤ stop i
      · exact ⟨_, j, l₄, hall, y, p, hopened, hy, hyi.trans_lt hij, by simp, hyi.trans_lt hip⟩
      · have hlist : l₁ ++ p :: (l₂ ++ i :: (l₃ ++ j :: l₄)) = l₁ ++ p :: (l₂ ++ i ::
            (front.reverse ++ y :: (later.reverse ++ j :: l₄))) := by
          rw [hl₃]
          simp
        rw [hlist] at hsorted ⊢
        refine ih front.reverse.length ?_ hsorted (hstart.trans hy.symm) (not_le.mp hyi) rfl
        rw [← hn, hl₃]
        simp

/-- The first element of a sublist splits the list. -/
theorem exists_split_of_cons_sublist {ys : List α} (h : (x :: ys).Sublist xs) :
    ∃ front back, xs = front ++ x :: back ∧ ys.Sublist back := by
  obtain ⟨r₁, r₂, rfl, hx, hys⟩ := List.cons_sublist_iff.mp h
  obtain ⟨front, back, rfl⟩ := List.append_of_mem hx
  exact ⟨front, back ++ r₂, by simp, hys.trans (List.sublist_append_right ..)⟩

/-- The inversions of a sorted list. -/
theorem noInversion_iff (hsorted : xs.Pairwise fun a b ↦ start a ≤ start b) :
    NoInversion start stop [] xs ↔ ∀ p i j, [p, i, j].Sublist xs → start i = start j →
      start i < stop i → stop i < stop j → stop p ≤ stop i := by
  rw [noInversion_iff_split]
  constructor
  · intro h p i j hsub hstart hpos hij
    by_contra hip
    obtain ⟨l₁, rest, rfl, hrest⟩ := exists_split_of_cons_sublist hsub
    obtain ⟨l₂, back, rfl, hback⟩ := exists_split_of_cons_sublist hrest
    obtain ⟨l₃, l₄, rfl, -⟩ := exists_split_of_cons_sublist hback
    obtain ⟨before, x, after, hsplit, hinv⟩ :=
      exists_inverted hsorted hstart hpos hij (not_le.mp hip)
    exact h before x after hsplit (by rw [List.append_nil]; exact hinv)
  · rintro h before x after rfl ⟨y, p, hlast, hstart, hyx, hp, hyp⟩
    rw [List.append_nil] at hlast hp
    obtain ⟨hyopen, later, front, hsplit, hlater⟩ := lastOpen_eq_some hlast
    have hbefore : before = front.reverse ++ y :: later.reverse := by
      rw [← List.reverse_reverse before, hsplit]
      simp
    have hpfront : p ∈ front := by
      rw [hsplit] at hp
      obtain hp | hp := List.mem_append.mp hp
      · have := hlater p hp
        omega
      · obtain rfl | hp := List.mem_cons.mp hp
        · omega
        · exact hp
    have hsub : [p, y, x].Sublist (before ++ x :: after) := by
      rw [hbefore, List.append_assoc]
      refine (List.singleton_sublist.mpr (List.mem_reverse.mpr hpfront)).append ?_
      exact .cons_cons y (.trans (List.singleton_sublist.mpr (by simp)) (List.Sublist.refl _))
    have := h p y x hsub hstart (by omega) hyx
    omega

end Inversions

end Hisab.Base
