import Hisab.Base.ForestLayout

/-!
# The trees of a forest

A forest as the list of its trees, the trees whose roots meet a condition, and the children of a
node as the elements whose edge leads to it.
-/

namespace Hisab.Base.Forest

open List

universe u v

variable {α : Type u} {forest forest' : Forest α} {a b : α} {parent : Option α} {p : α → Bool}
  {trees : List (α × Forest α)}

/-- The roots with the trees below them. -/
def toTrees : Forest α → List (α × Forest α)
  | nil => []
  | node a children siblings => (a, children) :: siblings.toTrees

def ofTrees : List (α × Forest α) → Forest α
  | [] => nil
  | (a, children) :: trees => node a children (ofTrees trees)

@[simp] theorem ofTrees_toTrees (forest : Forest α) : ofTrees forest.toTrees = forest := by
  induction forest with
  | nil => rfl
  | node a children siblings _ ih => rw [toTrees, ofTrees, ih]

@[simp] theorem toTrees_ofTrees (trees : List (α × Forest α)) :
    (ofTrees trees).toTrees = trees := by
  induction trees with
  | nil => rfl
  | cons tree trees ih => rw [ofTrees, toTrees, ih]

theorem map_fst_toTrees (forest : Forest α) : forest.toTrees.map Prod.fst = forest.tops := by
  induction forest with
  | nil => rfl
  | node a children siblings _ ih => rw [toTrees, map_cons, ih, tops]

theorem nodes_eq (forest : Forest α) :
    forest.nodes = forest.toTrees.flatMap fun tree ↦ tree.1 :: tree.2.nodes := by
  induction forest with
  | nil => rfl
  | node a children siblings _ ih => rw [nodes, toTrees, flatMap_cons, ih]

theorem all_iff {r : α → List α → Prop} :
    forest.All r ↔ ∀ tree ∈ forest.toTrees, r tree.1 tree.2.tops ∧ tree.2.All r := by
  induction forest with
  | nil => simp [All, toTrees]
  | node a children siblings _ ih => rw [All, toTrees, forall_mem_cons, ih, and_assoc]

/-- The trees whose roots meet a condition. -/
def select (p : α → Bool) (forest : Forest α) : Forest α :=
  ofTrees (forest.toTrees.filter fun tree ↦ p tree.1)

/-- A forest is told by its roots and the trees below them. -/
theorem map_lookup_toTrees [DecidableEq α] (h : forest.tops.Nodup) :
    (forest.tops.map fun r ↦ (r, (forest.toTrees.lookup r).getD nil)) = forest.toTrees := by
  induction forest with
  | nil => rfl
  | node a children siblings _ ih =>
    obtain ⟨ha, h⟩ := nodup_cons.mp h
    rw [tops, toTrees, map_cons]
    congr 1
    · simp
    · rw [← ih h]
      apply map_congr_left
      intro r hr
      have hne : (r == a) = false := by
        rw [beq_eq_false_iff_ne]
        exact fun heq ↦ ha (heq ▸ hr)
      rw [lookup_cons, hne, ih h]

@[simp] theorem toTrees_select : (forest.select p).toTrees = forest.toTrees.filter fun tree ↦ p tree.1 :=
  toTrees_ofTrees _

theorem tops_select : (forest.select p).tops = forest.tops.filter p := by
  rw [← map_fst_toTrees, toTrees_select, ← map_fst_toTrees, filter_map]
  rfl

/-- The trees below roots that meet a condition are of elements that meet it. -/
def Uniform (p : α → Bool) (forest : Forest α) : Prop :=
  ∀ tree ∈ forest.toTrees, ∀ x ∈ tree.2.nodes, p x = p tree.1

theorem nodes_select (h : forest.Uniform p) : (forest.select p).nodes = forest.nodes.filter p := by
  induction forest with
  | nil => rfl
  | node a children siblings _ ih =>
    obtain ⟨ha, h⟩ := forall_mem_cons.mp h
    have hsiblings := ih h
    rw [select] at hsiblings ⊢
    rw [nodes, cons_append, toTrees, filter_cons, filter_cons, filter_append]
    by_cases hp : p a = true
    · have hall : children.nodes.filter p = children.nodes :=
        filter_eq_self.mpr fun x hx ↦ (ha x hx).trans hp
      rw [if_pos hp, if_pos hp, ofTrees, nodes, hall, hsiblings, cons_append]
    · have hnone : children.nodes.filter p = [] := by
        rw [filter_eq_nil_iff]
        intro x hx
        rw [ha x hx]
        exact hp
      rw [if_neg hp, if_neg hp, hnone, hsiblings, List.nil_append]

/-- Forests of elements with one key each stand as one forest in any order of their roots that is
theirs on each key. -/
theorem exists_merged {β : Type v} [DecidableEq α] [DecidableEq β] (key : α → β) {F : β → Forest α}
    {roots : List α} (hkey : ∀ t, ∀ x ∈ (F t).nodes, key x = t) (hnodup : ∀ t, (F t).tops.Nodup)
    (htops : ∀ t, (F t).tops = roots.filter fun r ↦ decide (key r = t)) :
    ∃ forest : Forest α, forest.tops = roots ∧
      ∀ t, (forest.select fun r ↦ decide (key r = t)) = F t ∧
        forest.Uniform fun r ↦ decide (key r = t) := by
  have hselect : ∀ t, ((ofTrees (roots.map fun r ↦ (r, ((F (key r)).toTrees.lookup r).getD nil))).select
      fun r ↦ decide (key r = t)) = F t := by
    intro t
    have hmap : ((roots.filter fun r ↦ decide (key r = t)).map fun r ↦
        (r, ((F (key r)).toTrees.lookup r).getD nil)) = (F t).toTrees := by
      rw [← map_lookup_toTrees (hnodup t), htops]
      apply map_congr_left
      intro r hr
      rw [of_decide_eq_true (mem_filter.mp hr).2]
    rw [select, toTrees_ofTrees, filter_map]
    show ofTrees ((roots.filter fun r ↦ decide (key r = t)).map _) = F t
    rw [hmap, ofTrees_toTrees]
  refine ⟨_, ?_, fun t ↦ ⟨hselect t, fun tree htree x hx ↦ ?_⟩⟩
  · rw [← map_fst_toTrees, toTrees_ofTrees, map_map]
    exact map_id' roots
  · have hmem : tree ∈ (F (key tree.1)).toTrees := by
      rw [← hselect, toTrees_select]
      exact mem_filter.mpr ⟨htree, decide_eq_true rfl⟩
    have hnode : x ∈ (F (key tree.1)).nodes := by
      rw [nodes_eq]
      exact mem_flatMap.mpr ⟨tree, hmem, mem_cons_of_mem _ hx⟩
    show decide (key x = t) = decide (key tree.1 = t)
    rw [hkey _ x hnode]

/-- What holds on each key holds. -/
theorem all_of_select {β : Type v} [DecidableEq β] (key : α → β) {r : α → List α → Prop} :
    forest.All r ↔ ∀ t, (forest.select fun x ↦ decide (key x = t)).All r := by
  constructor
  · intro h t
    rw [all_iff, toTrees_select]
    exact fun tree htree ↦ all_iff.mp h tree (mem_filter.mp htree).1
  · intro h
    rw [all_iff]
    intro tree htree
    have hselect := all_iff.mp (h (key tree.1)) tree
    rw [toTrees_select] at hselect
    exact hselect (mem_filter.mpr ⟨htree, decide_eq_true rfl⟩)

/-- What is related on each key. -/
theorem forall_pairwise_filter_iff {β : Type v} [DecidableEq β] {key : α → β} {r : α → α → Prop}
    {l : List α} : (∀ t, (l.filter fun x ↦ decide (key x = t)).Pairwise r) ↔
      l.Pairwise fun a b ↦ key a = key b → r a b := by
  simp only [pairwise_filter, decide_eq_true_eq]
  constructor
  · intro h
    rw [pairwise_iff_forall_sublist]
    intro a b hab heq
    exact pairwise_iff_forall_sublist.mp (h (key b)) hab heq rfl
  · intro h t
    apply h.imp
    intro a b hab ha hb
    exact hab (ha.trans hb.symm)

/-! ### Trees in time -/

section Layout

variable {D₀ D S : α → Int} {m : Int}

theorem Wide.select (h : forest.Wide D₀ D) : (forest.select p).Wide D₀ D := by
  induction forest with
  | nil => exact h
  | node a children siblings _ ih =>
    have hsiblings := ih h.of_siblings
    rw [Forest.select] at hsiblings ⊢
    rw [toTrees, filter_cons]
    split
    · exact ⟨⟨h.widened.1, h.widened.2.1, hsiblings.widened⟩, forall_nodes.mpr
        ⟨h.nonneg a mem_cons_self, h.of_children.nonneg, hsiblings.nonneg⟩⟩
    · exact hsiblings

theorem Wide.apart_select (h : forest.Wide D₀ D) (hp : forest.RootsApart S D m) :
    (forest.select p).RootsApart S D m := by
  induction forest generalizing m with
  | nil => trivial
  | node a children siblings _ ih =>
    have hsiblings := ih h.of_siblings hp.2.2
    have ha := h.head_nonneg
    have hm := hp.1
    rw [Forest.select] at hsiblings ⊢
    rw [toTrees, filter_cons]
    split
    · exact ⟨hm, hp.2.1, hsiblings⟩
    · exact hsiblings.mono (by omega)

theorem Wide.eq_longest_of_mem {tree : α × Forest α} (h : forest.Wide D₀ D)
    (hall : forest.All fun _ l ↦ l.Pairwise fun b _ ↦ D b ≤ 0) (htree : tree ∈ forest.toTrees) :
    D tree.1 = longest D₀ (tree.1 :: tree.2.nodes) := by
  induction forest with
  | nil => cases htree
  | node a children siblings _ ih =>
    cases mem_cons.mp htree with
    | inl heq =>
      rw [heq]
      exact h.eq_longest hall
    | inr htree => exact ih h.of_siblings hall.2.2 htree

end Layout

/-- An element with those after it up to the next one that meets a condition. -/
def upToNext [DecidableEq α] (p : α → Bool) (l : List α) (a : α) : List α :=
  a :: (l.dropWhile fun x ↦ decide (x ≠ a)).tail.takeWhile fun x ↦ !p x

/-- A tree goes up to the next root. -/
theorem upToNext_nodes [DecidableEq α] {tree : α × Forest α} (hnodup : forest.nodes.Nodup)
    (hroots : ∀ r ∈ forest.tops, p r = true)
    (hbelow : ∀ tree ∈ forest.toTrees, ∀ x ∈ tree.2.nodes, p x = false)
    (htree : tree ∈ forest.toTrees) :
    upToNext p forest.nodes tree.1 = tree.1 :: tree.2.nodes := by
  induction forest with
  | nil => cases htree
  | node a children siblings _ ih =>
    obtain ⟨hchildren, hbelow⟩ := forall_mem_cons.mp hbelow
    rw [nodes, cons_append, nodup_cons] at hnodup
    obtain ⟨ha, hnodup⟩ := hnodup
    obtain ⟨-, hs, hapart⟩ := nodup_append.mp hnodup
    rw [upToNext, nodes, cons_append]
    cases mem_cons.mp htree with
    | inl heq =>
      rw [heq, dropWhile_cons_of_neg (by simp), tail_cons,
        takeWhile_append_of_pos fun x hx ↦ by rw [hchildren x hx, Bool.not_false]]
      cases siblings with
      | nil => rw [nodes, takeWhile_nil, List.append_nil]
      | node b bs cs =>
        have hb : p b = true := hroots b (mem_cons_of_mem _ mem_cons_self)
        rw [nodes, cons_append, takeWhile_cons_of_neg (by simp [hb]), List.append_nil]
    | inr htree =>
      have hmem : tree.1 ∈ siblings.nodes := by
        rw [nodes_eq]
        exact mem_flatMap.mpr ⟨tree, htree, mem_cons_self⟩
      have hdrop : ∀ x ∈ a :: children.nodes, decide (x ≠ tree.1) = true := by
        intro x hx
        apply decide_eq_true
        intro heq
        rw [← heq] at hmem
        cases mem_cons.mp hx with
        | inl hxa => exact ha (mem_append_right _ (hxa ▸ hmem))
        | inr hx => exact hapart x hx x hmem rfl
      have hih := ih hs (fun r hr ↦ hroots r (mem_cons_of_mem _ hr)) hbelow htree
      rw [upToNext, cons_inj_right] at hih
      rw [← cons_append, dropWhile_append_of_pos hdrop, hih]

/-! ### Children by edges -/

theorem parent_of_mem_edges {x : α} {q : Option α} (h : (x, q) ∈ forest.edges parent) :
    q = parent ∨ ∃ y ∈ forest.nodes, q = some y := by
  induction forest generalizing parent with
  | nil => cases h
  | node a children siblings ihc ihs =>
    rw [edges, cons_append, mem_cons, mem_append] at h
    obtain h | h | h := h
    · exact .inl (Prod.mk.inj h).2
    · cases ihc h with
      | inl heq => exact .inr ⟨a, mem_cons_self, heq⟩
      | inr hy =>
        obtain ⟨y, hy, heq⟩ := hy
        exact .inr ⟨y, mem_cons_of_mem _ (mem_append_left _ hy), heq⟩
    · cases ihs h with
      | inl heq => exact .inl heq
      | inr hy =>
        obtain ⟨y, hy, heq⟩ := hy
        exact .inr ⟨y, mem_cons_of_mem _ (mem_append_right _ hy), heq⟩

/-- What is below a root has a parent. -/
theorem exists_edge_of_below {x : α} {tree : α × Forest α} (parent : Option α) (htree : tree ∈ forest.toTrees)
    (hx : x ∈ tree.2.nodes) : ∃ y, (x, some y) ∈ forest.edges parent := by
  induction forest with
  | nil => cases htree
  | node a children siblings _ ih =>
    cases mem_cons.mp htree with
    | inl heq =>
      subst heq
      rw [← map_fst_edges children (some a)] at hx
      obtain ⟨⟨z, q⟩, hmem, rfl⟩ := mem_map.mp hx
      have hq : ∃ y, q = some y := by
        cases parent_of_mem_edges hmem with
        | inl heq => exact ⟨a, heq⟩
        | inr hy =>
          obtain ⟨y, -, heq⟩ := hy
          exact ⟨y, heq⟩
      obtain ⟨y, rfl⟩ := hq
      exact ⟨y, mem_cons_of_mem _ (mem_append_left _ hmem)⟩
    | inr htree =>
      obtain ⟨y, hy⟩ := ih htree
      exact ⟨y, mem_cons_of_mem _ (mem_append_right _ hy)⟩

variable [DecidableEq α]

/-- The elements whose edge leads to a node. -/
def childrenIn (edges : List (α × Option α)) (a : α) : List α :=
  (edges.filter fun e ↦ decide (e.2 = some a)).map Prod.fst

theorem childrenIn_append (es es' : List (α × Option α)) (a : α) :
    childrenIn (es ++ es') a = childrenIn es a ++ childrenIn es' a := by
  rw [childrenIn, filter_append, map_append]
  rfl

theorem childrenIn_eq_nil (h : a ∉ forest.nodes) (hp : parent ≠ some a) :
    childrenIn (forest.edges parent) a = [] := by
  rw [childrenIn, map_eq_nil_iff, filter_eq_nil_iff]
  rintro ⟨x, q⟩ hmem heq
  cases parent_of_mem_edges hmem with
  | inl hq => exact hp (hq ▸ of_decide_eq_true heq)
  | inr hy =>
    obtain ⟨y, hy, hq⟩ := hy
    have heq : q = some a := of_decide_eq_true heq
    rw [hq] at heq
    exact h (Option.some.inj heq ▸ hy)

theorem childrenIn_tops (h : a ∉ forest.nodes) :
    childrenIn (forest.edges (some a)) a = forest.tops := by
  induction forest with
  | nil => rfl
  | node b children siblings _ ih =>
    rw [nodes, cons_append, mem_cons, mem_append, not_or, not_or] at h
    obtain ⟨hb, hc, hs⟩ := h
    have hchildren : childrenIn (children.edges (some b)) a = [] :=
      childrenIn_eq_nil hc fun heq ↦ hb (Option.some.inj heq).symm
    rw [edges, childrenIn_append, ih hs]
    have hcons : childrenIn ((b, some a) :: children.edges (some b)) a =
        b :: childrenIn (children.edges (some b)) a := by
      rw [childrenIn, filter_cons_of_pos (by simp)]
      rfl
    rw [hcons, hchildren]
    rfl

/-- The children of each node are the elements whose edge leads to it. -/
theorem all_childrenIn (parent : Option α) (h : forest.nodes.Nodup) (hp : ∀ a ∈ forest.nodes, parent ≠ some a) :
    forest.All fun a l ↦ l = childrenIn (forest.edges parent) a := by
  induction forest generalizing parent with
  | nil => trivial
  | node a children siblings ihc ihs =>
    obtain ⟨hpa, hpc, hps⟩ := forall_nodes.mp hp
    obtain ⟨ha, h⟩ := nodup_cons.mp h
    obtain ⟨hc, hs, hapart⟩ := nodup_append.mp h
    have hac : a ∉ children.nodes := fun hmem ↦ ha (mem_append_left _ hmem)
    have has : a ∉ siblings.nodes := fun hmem ↦ ha (mem_append_right _ hmem)
    have hedges : ∀ b, parent ≠ some b → childrenIn ((node a children siblings).edges parent) b =
        childrenIn (children.edges (some a)) b ++ childrenIn (siblings.edges parent) b := by
      intro b hb
      rw [edges, cons_append, childrenIn, filter_cons_of_neg (by simpa using hb)]
      exact childrenIn_append ..
    refine ⟨?_, ?_, ?_⟩
    · show children.tops = childrenIn ((node a children siblings).edges parent) a
      rw [hedges a hpa, childrenIn_tops hac, childrenIn_eq_nil has hpa, List.append_nil]
    · have hpc' : ∀ b ∈ children.nodes, some a ≠ some b := by
        intro b hb heq
        cases heq
        exact hac hb
      apply (ihc (some a) hc hpc').congr
      intro b hb l hl
      have hbs : b ∉ siblings.nodes := fun hmem ↦ hapart b hb b hmem rfl
      rw [hedges b (hpc b hb), childrenIn_eq_nil hbs (hpc b hb), List.append_nil]
      exact hl
    · apply (ihs parent hs hps).congr
      intro b hb l hl
      have hbc : b ∉ children.nodes := fun hmem ↦ hapart b hmem b hb rfl
      have hne : some a ≠ some b := by
        intro heq
        cases heq
        exact has hb
      rw [hedges b (hps b hb), childrenIn_eq_nil hbc hne]
      exact hl

end Hisab.Base.Forest
