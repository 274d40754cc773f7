import Hisab.Base.FrameForest
import Mathlib

/-!
# Laying out a forest in time

Every node is widened to the sum of what is below it, and the children of a node are put back to
back so that the last one ends with the node; a root starts no earlier than the root before it ends.
-/

namespace Hisab.Base.Forest

open List

universe u

variable {α : Type u} {D₀ D S S₀ : α → Int} {forest : Forest α} {t m : Int} {a : α}

/-- The sum of the trees at the top. -/
def weight (D : α → Int) (forest : Forest α) : Int := (forest.tops.map D).sum

@[simp] theorem weight_nil : nil.weight D = 0 := rfl

@[simp] theorem weight_node (a : α) (children siblings : Forest α) :
    (node a children siblings).weight D = D a + siblings.weight D := by
  simp [weight, tops]

/-- A node is as wide as it was, or as its children are together. -/
def Widened (D₀ D : α → Int) : Forest α → Prop
  | nil => True
  | node a children siblings => D a = max (D₀ a) (children.weight D) ∧
      children.Widened D₀ D ∧ siblings.Widened D₀ D

/-- The trees stand back to back from a time on, and so do the children of each node up to its
end. -/
def Placed (S D : α → Int) : Int → Forest α → Prop
  | _, nil => True
  | t, node a children siblings => S a = t ∧ children.Placed S D (t + D a - children.weight D) ∧
      siblings.Placed S D (t + D a)

/-- A root starts where it did, or where the one before it ends. -/
def RootsPlaced (S₀ S D : α → Int) : Int → Forest α → Prop
  | _, nil => True
  | m, node a children siblings => S a = max (S₀ a) m ∧
      children.Placed S D (S a + D a - children.weight D) ∧ siblings.RootsPlaced S₀ S D (S a + D a)

/-- A root starts no earlier than the one before it ends. -/
def RootsApart (S D : α → Int) : Int → Forest α → Prop
  | _, nil => True
  | m, node a children siblings => m ≤ S a ∧
      children.Placed S D (S a + D a - children.weight D) ∧ siblings.RootsApart S D (S a + D a)

/-- What holds of each node and its children. -/
def All (r : α → List α → Prop) : Forest α → Prop
  | nil => True
  | node a children siblings => r a children.tops ∧ children.All r ∧ siblings.All r

/-- What holds at the first root, below it and beside it. -/
theorem forall_nodes {P : α → Prop} {children siblings : Forest α} :
    (∀ x ∈ (node a children siblings).nodes, P x) ↔
      P a ∧ (∀ x ∈ children.nodes, P x) ∧ ∀ x ∈ siblings.nodes, P x := by
  rw [nodes, cons_append, forall_mem_cons, forall_mem_append]

theorem all_iff_of_mem {f : α → List α} {r : α → List α → Prop}
    (h : forest.All fun a l ↦ f a = l) : forest.All r ↔ ∀ a ∈ forest.nodes, r a (f a) := by
  induction forest with
  | nil => exact ⟨fun _ ↦ nofun, fun _ ↦ trivial⟩
  | node a children siblings ihc ihs => rw [All, forall_nodes, ihc h.2.1, ihs h.2.2, h.1]

theorem tops_subset_nodes : forest.tops ⊆ forest.nodes := by
  induction forest with
  | nil => exact List.Subset.refl _
  | node a children siblings _ ih =>
    intro x hx
    rw [nodes, cons_append, mem_cons, mem_append]
    exact (mem_cons.mp hx).imp_right fun h ↦ .inr (ih h)

/-! ### Values at the nodes -/

section Congr

variable {D₀' D' S' S₀' : α → Int}

theorem weight_congr (h : ∀ x ∈ forest.tops, D' x = D x) : forest.weight D' = forest.weight D := by
  rw [weight, weight, map_congr_left h]

theorem Widened.congr (h : forest.Widened D₀ D) (h₀ : ∀ x ∈ forest.nodes, D₀' x = D₀ x)
    (hD : ∀ x ∈ forest.nodes, D' x = D x) : forest.Widened D₀' D' := by
  induction forest with
  | nil => trivial
  | node a children siblings ihc ihs =>
    obtain ⟨h₀a, h₀c, h₀s⟩ := forall_nodes.mp h₀
    obtain ⟨hDa, hDc, hDs⟩ := forall_nodes.mp hD
    refine ⟨?_, ihc h.2.1 h₀c hDc, ihs h.2.2 h₀s hDs⟩
    rw [hDa, h₀a, weight_congr fun x hx ↦ hDc x (tops_subset_nodes hx)]
    exact h.1

theorem Placed.congr (h : forest.Placed S D t) (hS : ∀ x ∈ forest.nodes, S' x = S x)
    (hD : ∀ x ∈ forest.nodes, D' x = D x) : forest.Placed S' D' t := by
  induction forest generalizing t with
  | nil => trivial
  | node a children siblings ihc ihs =>
    obtain ⟨hSa, hSc, hSs⟩ := forall_nodes.mp hS
    obtain ⟨hDa, hDc, hDs⟩ := forall_nodes.mp hD
    refine ⟨hSa.trans h.1, ?_, ?_⟩
    · rw [hDa, weight_congr fun x hx ↦ hDc x (tops_subset_nodes hx)]
      exact ihc h.2.1 hSc hDc
    · rw [hDa]
      exact ihs h.2.2 hSs hDs

theorem RootsPlaced.congr (h : forest.RootsPlaced S₀ S D m) (hS : ∀ x ∈ forest.nodes, S₀' x = S₀ x) :
    forest.RootsPlaced S₀' S D m := by
  induction forest generalizing m with
  | nil => trivial
  | node a children siblings _ ih =>
    refine ⟨?_, h.2.1, ih h.2.2 fun x hx ↦ hS x (mem_append_right _ hx)⟩
    rw [hS a mem_cons_self]
    exact h.1

theorem All.congr {r r' : α → List α → Prop} (h : forest.All r)
    (hr : ∀ a ∈ forest.nodes, ∀ l, r a l → r' a l) : forest.All r' := by
  induction forest with
  | nil => trivial
  | node a children siblings ihc ihs =>
    obtain ⟨hra, hrc, hrs⟩ := forall_nodes.mp hr
    exact ⟨hra _ h.1, ihc h.2.1 hrc, ihs h.2.2 hrs⟩

end Congr

/-- Each node has room for its children. -/
def Roomy (D : α → Int) : Forest α → Prop
  | nil => True
  | node a children siblings => children.weight D ≤ D a ∧ children.Roomy D ∧ siblings.Roomy D

theorem Widened.roomy (h : forest.Widened D₀ D) : forest.Roomy D := by
  induction forest with
  | nil => trivial
  | node a children siblings ihc ihs =>
    refine ⟨?_, ihc h.2.1, ihs h.2.2⟩
    rw [h.1]
    exact le_max_right ..

/-! ### Widths -/

theorem Widened.nonneg (h : forest.Widened D₀ D) (h₀ : ∀ x ∈ forest.nodes, 0 ≤ D₀ x) :
    ∀ x ∈ forest.nodes, 0 ≤ D x := by
  induction forest with
  | nil => exact nofun
  | node a children siblings ihc ihs =>
    obtain ⟨ha, hc, hs⟩ := forall_nodes.mp h₀
    refine forall_nodes.mpr ⟨?_, ihc h.2.1 hc, ihs h.2.2 hs⟩
    rw [h.1]
    exact ha.trans (le_max_left ..)

theorem Widened.le (h : forest.Widened D₀ D) : ∀ x ∈ forest.nodes, D₀ x ≤ D x := by
  induction forest with
  | nil => exact nofun
  | node a children siblings ihc ihs =>
    refine forall_nodes.mpr ⟨?_, ihc h.2.1, ihs h.2.2⟩
    rw [h.1]
    exact le_max_left ..

theorem weight_nonneg (h : ∀ x ∈ forest.nodes, 0 ≤ D x) : 0 ≤ forest.weight D := by
  apply sum_nonneg
  intro d hd
  obtain ⟨x, hx, rfl⟩ := mem_map.mp hd
  exact h x (tops_subset_nodes hx)

/-- A node that is not empty was not empty before. -/
theorem Widened.pos_iff {start stop : α → Int} (h : forest.Widened (fun x ↦ stop x - start x) D)
    (hinner : forest.InnerPositive start stop) (h₀ : ∀ x ∈ forest.nodes, start x ≤ stop x) :
    ∀ x ∈ forest.nodes, 0 < D x ↔ start x < stop x := by
  induction forest with
  | nil => exact nofun
  | node a children siblings ihc ihs =>
    obtain ⟨hle, hc, hs⟩ := forall_nodes.mp h₀
    refine forall_nodes.mpr ⟨?_, ihc h.2.1 hinner.2.1 hc, ihs h.2.2 hinner.2.2 hs⟩
    have hd : D a = max (stop a - start a) (children.weight D) := h.1
    rw [hd]
    cases children with
    | nil =>
      rw [weight_nil]
      omega
    | node b bs cs =>
      have hpos := hinner.1 (by simp)
      have hmax := le_max_left (stop a - start a) ((node b bs cs).weight D)
      constructor
      · exact fun _ ↦ hpos
      · exact fun _ ↦ (Int.sub_pos_of_lt hpos).trans_le hmax

/-! ### Places -/

/-- Each node holds its children, which stand one behind the other. -/
def Holds (S D : α → Int) (a : α) (children : List α) : Prop :=
  (∀ c ∈ children, S a ≤ S c ∧ S c + D c ≤ S a + D a) ∧ children.Pairwise fun b c ↦ S b + D b ≤ S c

theorem Placed.apart (hp : forest.Placed S D t) : forest.RootsApart S D t := by
  induction forest generalizing t with
  | nil => trivial
  | node a children siblings _ ih =>
    obtain ⟨rfl, hc, hs⟩ := hp
    exact ⟨le_rfl, hc, ih hs⟩

/-- A forest with widths that are not negative. -/
structure Wide (D₀ D : α → Int) (forest : Forest α) : Prop where
  widened : forest.Widened D₀ D
  nonneg : ∀ x ∈ forest.nodes, 0 ≤ D₀ x

namespace Wide

variable {children siblings : Forest α}

theorem of_children (h : (node a children siblings).Wide D₀ D) : children.Wide D₀ D :=
  ⟨h.widened.2.1, (forall_nodes.mp h.nonneg).2.1⟩

theorem of_siblings (h : (node a children siblings).Wide D₀ D) : siblings.Wide D₀ D :=
  ⟨h.widened.2.2, (forall_nodes.mp h.nonneg).2.2⟩

theorem weight_nonneg (h : forest.Wide D₀ D) : 0 ≤ forest.weight D :=
  Forest.weight_nonneg (h.widened.nonneg h.nonneg)

theorem weight_le (h : (node a children siblings).Wide D₀ D) : children.weight D ≤ D a := by
  rw [h.widened.1]
  exact le_max_right ..

theorem head_nonneg (h : (node a children siblings).Wide D₀ D) : 0 ≤ D a :=
  h.widened.nonneg h.nonneg a mem_cons_self

/-- Everything stands between the start of the first tree and the end of the last one. -/
theorem bounds (h : forest.Wide D₀ D) (hp : forest.Placed S D t) :
    ∀ x ∈ forest.nodes, t ≤ S x ∧ S x + D x ≤ t + forest.weight D := by
  induction forest generalizing t with
  | nil => exact nofun
  | node a children siblings ihc ihs =>
    have hweight := h.of_siblings.weight_nonneg
    have hle := h.weight_le
    have ha := h.head_nonneg
    rw [weight_node]
    refine forall_nodes.mpr ⟨?_, fun x hx ↦ ?_, fun x hx ↦ ?_⟩
    · rw [hp.1]
      omega
    · obtain ⟨hlow, hhigh⟩ := ihc h.of_children hp.2.1 x hx
      omega
    · obtain ⟨hlow, hhigh⟩ := ihs h.of_siblings hp.2.2 x hx
      omega

/-- What is below a node stands in it. -/
theorem below (h : (node a children siblings).Wide D₀ D)
    (hc : children.Placed S D (S a + D a - children.weight D)) :
    ∀ x ∈ children.nodes, S a ≤ S x ∧ S x + D x ≤ S a + D a := by
  intro x hx
  have hle := h.weight_le
  obtain ⟨hlow, hhigh⟩ := h.of_children.bounds hc x hx
  omega

theorem bounds_roots (h : forest.Wide D₀ D) (hp : forest.RootsApart S D m) :
    ∀ x ∈ forest.nodes, m ≤ S x := by
  induction forest generalizing m with
  | nil => exact nofun
  | node a children siblings _ ihs =>
    have ha := h.head_nonneg
    have hm := hp.1
    refine forall_nodes.mpr ⟨hm, fun x hx ↦ hm.trans (h.below hp.2.1 x hx).1, fun x hx ↦ ?_⟩
    have hx := ihs h.of_siblings hp.2.2 x hx
    omega

theorem roots_apart (h : forest.Wide D₀ D) (hp : forest.RootsApart S D m) :
    forest.tops.Pairwise fun b c ↦ S b + D b ≤ S c := by
  induction forest generalizing m with
  | nil => exact List.Pairwise.nil
  | node a children siblings _ ih =>
    refine pairwise_cons.mpr ⟨fun c hc ↦ ?_, ih h.of_siblings hp.2.2⟩
    exact h.of_siblings.bounds_roots hp.2.2 c (tops_subset_nodes hc)

theorem starts_roots (h : forest.Wide D₀ D) (hp : forest.RootsApart S D m) :
    forest.nodes.Pairwise fun b c ↦ S b ≤ S c := by
  induction forest generalizing m with
  | nil => exact List.Pairwise.nil
  | node a children siblings ihc ihs =>
    have ha := h.head_nonneg
    have hbelow := h.below hp.2.1
    have hlater := h.of_siblings.bounds_roots hp.2.2
    rw [nodes, cons_append, pairwise_cons, pairwise_append]
    refine ⟨fun y hy ↦ ?_, ihc h.of_children hp.2.1.apart, ihs h.of_siblings hp.2.2, fun x hx y hy ↦ ?_⟩
    · cases mem_append.mp hy with
      | inl hy => exact (hbelow y hy).1
      | inr hy =>
        have hy := hlater y hy
        omega
    · have hpos := (h.widened.nonneg h.nonneg) x (mem_cons_of_mem _ (mem_append_left _ hx))
      have hy := hlater y hy
      have hx := hbelow x hx
      omega

theorem all_holds_roots (h : forest.Wide D₀ D) (hp : forest.RootsApart S D m) :
    forest.All (Holds S D) := by
  induction forest generalizing m with
  | nil => trivial
  | node a children siblings ihc ihs =>
    exact ⟨⟨fun c hmem ↦ h.below hp.2.1 c (tops_subset_nodes hmem),
      h.of_children.roots_apart hp.2.1.apart⟩, ihc h.of_children hp.2.1.apart, ihs h.of_siblings hp.2.2⟩

theorem startsInside_roots (h : forest.Wide D₀ D) (hp : forest.RootsApart S D m) :
    forest.StartsInside S fun x ↦ S x + D x := by
  induction forest generalizing m with
  | nil => trivial
  | node a children siblings ihc ihs =>
    refine ⟨fun x hx ↦ ?_, ihc h.of_children hp.2.1.apart, ihs h.of_siblings hp.2.2⟩
    show S x ≤ S a + D a
    have hbelow := h.below hp.2.1 x hx
    have hpos := (h.widened.nonneg h.nonneg) x (mem_cons_of_mem _ (mem_append_left _ hx))
    omega

/-- Trees that stand back to back are separate if only the last one of them, and of the children of
each node, is not empty. -/
theorem separate_iff (h : forest.Wide D₀ D) (hp : forest.Placed S D t) :
    forest.Separate S (fun x ↦ S x + D x) ↔ (forest.tops.Pairwise fun b _ ↦ D b ≤ 0) ∧
      forest.All fun _ l ↦ l.Pairwise fun b _ ↦ D b ≤ 0 := by
  induction forest generalizing t with
  | nil => exact ⟨fun _ ↦ ⟨List.Pairwise.nil, trivial⟩, fun _ ↦ trivial⟩
  | node a children siblings ihc ihs =>
    have hc : children.Placed S D (S a + D a - children.weight D) := hp.1 ▸ hp.2.1
    have hsiblings := ihs h.of_siblings hp.2.2
    have hchildren := ihc h.of_children hc
    have hnext : (S a < S a + D a → ∀ b ∈ siblings.tops.head?, S a + D a < S b) ↔
        ∀ b ∈ siblings.tops, D a ≤ 0 := by
      cases siblings with
      | nil => simp [tops]
      | node b bs cs =>
        have hb : S b = S a + D a := by rw [hp.2.2.1, hp.1]
        simp only [tops, head?_cons, Option.mem_def, Option.some.injEq, forall_eq']
        constructor
        · omega
        · intro hle hpos
          have hzero := hle b mem_cons_self
          omega
    rw [Separate, tops, pairwise_cons, hnext, hchildren, hsiblings]
    constructor
    · rintro ⟨ha, ⟨hct, hca⟩, hst, hsa⟩
      exact ⟨⟨ha, hst⟩, hct, hca, hsa⟩
    · rintro ⟨⟨ha, hst⟩, hct, hca, hsa⟩
      exact ⟨ha, ⟨hct, hca⟩, hst, hsa⟩

/-- Roots that stand apart are separate if none that is not empty ends as a later one starts, and
only the last child of each node is not empty. -/
theorem separate_roots_iff (h : forest.Wide D₀ D) (hp : forest.RootsApart S D m) :
    forest.Separate S (fun x ↦ S x + D x) ↔
      (forest.tops.Pairwise fun b c ↦ 0 < D b → S b + D b ≠ S c) ∧
        forest.All fun _ l ↦ l.Pairwise fun b _ ↦ D b ≤ 0 := by
  induction forest generalizing m with
  | nil => exact ⟨fun _ ↦ ⟨List.Pairwise.nil, trivial⟩, fun _ ↦ trivial⟩
  | node a children siblings _ ihs =>
    have hsiblings := ihs h.of_siblings hp.2.2
    have hchildren := h.of_children.separate_iff hp.2.1
    have hnext : (S a < S a + D a → ∀ b ∈ siblings.tops.head?, S a + D a < S b) ↔
        ∀ b ∈ siblings.tops, 0 < D a → S a + D a ≠ S b := by
      have hlater := h.of_siblings.bounds_roots hp.2.2
      have hapart := h.of_siblings.roots_apart hp.2.2
      have hs := h.of_siblings
      cases siblings with
      | nil => simp [tops]
      | node b bs cs =>
        have hb := hlater b mem_cons_self
        have hbpos := hs.head_nonneg
        simp only [tops, head?_cons, Option.mem_def, Option.some.injEq, forall_eq']
        constructor
        · intro hlt c hc hpos
          cases mem_cons.mp hc with
          | inl heq =>
            rw [heq]
            omega
          | inr hc =>
            have hbc := (pairwise_cons.mp hapart).1 c hc
            omega
        · intro hne hpos
          have hne := hne b mem_cons_self (by omega)
          omega
    rw [Separate, tops, pairwise_cons, hnext, hchildren, hsiblings]
    constructor
    · rintro ⟨ha, ⟨hct, hca⟩, hst, hsa⟩
      exact ⟨⟨ha, hst⟩, hct, hca, hsa⟩
    · rintro ⟨⟨ha, hst⟩, hct, hca, hsa⟩
      exact ⟨ha, ⟨hct, hca⟩, hst, hsa⟩

end Wide

/-! ### Runs -/

theorem RootsPlaced.apart (h : forest.RootsPlaced S₀ S D m) : forest.RootsApart S D m := by
  induction forest generalizing m with
  | nil => trivial
  | node a children siblings _ ih =>
    refine ⟨?_, h.2.1, ih h.2.2⟩
    rw [h.1]
    exact le_max_right ..

theorem RootsApart.mono {m' : Int} (h : forest.RootsApart S D m) (hm : m' ≤ m) :
    forest.RootsApart S D m' := by
  cases forest with
  | nil => trivial
  | node a children siblings => exact ⟨hm.trans h.1, h.2⟩

theorem RootsPlaced.of_le {m' : Int} (h : forest.RootsPlaced S₀ S D m)
    (hm : ∀ r ∈ forest.tops.head?, m ≤ S₀ r) (hm' : m' ≤ m) : forest.RootsPlaced S₀ S D m' := by
  cases forest with
  | nil => trivial
  | node a children siblings =>
    have ha : m ≤ S₀ a := hm a rfl
    refine ⟨?_, h.2⟩
    rw [h.1, max_eq_left ha, max_eq_left (hm'.trans ha)]

/-- One after the other, each from its start or from the end of the one before. -/
def runs (start width : α → Int) : Int → List α → List (α × Int × Int)
  | _, [] => []
  | m, r :: roots => (r, max (start r) m, max (start r) m + width r) ::
      runs start width (max (start r) m + width r) roots

theorem runs_congr {width : α → Int} {roots : List α} (h : ∀ r ∈ roots, width r = D r) :
    runs S₀ width m roots = runs S₀ D m roots := by
  induction roots generalizing m with
  | nil => rfl
  | cons r roots ih =>
    obtain ⟨hr, h⟩ := forall_mem_cons.mp h
    rw [runs, runs, hr, ih h]

theorem RootsPlaced.runs_eq (h : forest.RootsPlaced S₀ S D m) :
    runs S₀ D m forest.tops = forest.tops.map fun r ↦ (r, S r, S r + D r) := by
  induction forest generalizing m with
  | nil => rfl
  | node a children siblings _ ih => rw [tops, runs, map_cons, ← h.1, ih h.2.2]

/-- The longest of some times. -/
def longest (D : α → Int) (l : List α) : Int := (l.map D).foldr max 0

theorem longest_nonneg (D : α → Int) (l : List α) : 0 ≤ longest D l := by
  induction l with
  | nil => exact le_rfl
  | cons a l ih => exact ih.trans (le_max_right ..)

theorem longest_cons (D : α → Int) (a : α) (l : List α) :
    longest D (a :: l) = max (D a) (longest D l) := rfl

theorem longest_append (D : α → Int) (l l' : List α) :
    longest D (l ++ l') = max (longest D l) (longest D l') := by
  induction l with
  | nil => exact (max_eq_right (longest_nonneg D l')).symm
  | cons a l ih => rw [cons_append, longest_cons, longest_cons, ih, max_assoc]

/-- Where only the last node beside others is not empty, the longest one is as wide as all. -/
theorem Wide.weight_eq_longest (h : forest.Wide D₀ D)
    (htops : forest.tops.Pairwise fun b _ ↦ D b ≤ 0)
    (hall : forest.All fun _ l ↦ l.Pairwise fun b _ ↦ D b ≤ 0) :
    forest.weight D = longest D₀ forest.nodes := by
  induction forest with
  | nil => rfl
  | node a children siblings ihc ihs =>
    obtain ⟨ha, htops⟩ := pairwise_cons.mp htops
    have hc := ihc h.of_children hall.1 hall.2.1
    have hs := ihs h.of_siblings htops hall.2.2
    have hwidened := h.widened.1
    have hlonger := longest_nonneg D₀ siblings.nodes
    rw [weight_node, nodes, cons_append, longest_cons, longest_append]
    cases siblings with
    | nil =>
      have hnil : longest D₀ (nil : Forest α).nodes = 0 := rfl
      have hchildren := longest_nonneg D₀ children.nodes
      omega
    | node b bs cs =>
      have hzero := ha b mem_cons_self
      have hchildren := longest_nonneg D₀ children.nodes
      omega

/-- A root is as wide as the longest node of its tree. -/
theorem Wide.eq_longest {children siblings : Forest α} (h : (node a children siblings).Wide D₀ D)
    (hall : (node a children siblings).All fun _ l ↦ l.Pairwise fun b _ ↦ D b ≤ 0) :
    D a = longest D₀ (a :: children.nodes) := by
  rw [h.widened.1, h.of_children.weight_eq_longest hall.1 hall.2.1, longest_cons]

end Hisab.Base.Forest
