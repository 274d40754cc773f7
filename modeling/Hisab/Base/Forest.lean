import Mathlib

/-!
# Forests and their open spine

The children of a node in order, with the edges in preorder; and a forest under construction:
the nodes that are still open, innermost first, each with the children it has so far, beside
the finished trees. A node that closes becomes the last child of the next open one, and the
edges stay the same.
-/

namespace Hisab.Base

universe u

/-- The first tree, its children, and the trees beside it. -/
inductive Forest (α : Type u)
  | nil
  | node (a : α) (children siblings : Forest α)

namespace Forest

variable {α : Type u} {f : α → Nat}

def append : Forest α → Forest α → Forest α
  | nil, forest => forest
  | node a children siblings, forest => node a children (siblings.append forest)

/-- The elements in preorder, each with its parent. -/
def edges (parent : Option α) : Forest α → List (α × Option α)
  | nil => []
  | node a children siblings => (a, parent) :: children.edges (some a) ++ siblings.edges parent

/-- The elements in preorder. -/
def nodes : Forest α → List α
  | nil => []
  | node a children siblings => a :: children.nodes ++ siblings.nodes

/-- The elements of the trees at the top. -/
def tops : Forest α → List α
  | nil => []
  | node a _ siblings => a :: siblings.tops

@[simp] theorem append_nil (forest : Forest α) : forest.append nil = forest := by
  induction forest with
  | nil => rfl
  | node a children siblings _ ih => rw [append, ih]

@[simp] theorem nil_append (forest : Forest α) : nil.append forest = forest := rfl

theorem append_assoc (forest other rest : Forest α) :
    (forest.append other).append rest = forest.append (other.append rest) := by
  induction forest with
  | nil => rfl
  | node a children siblings _ ih => rw [append, append, ih, append]

@[simp] theorem edges_nil (parent : Option α) : nil.edges parent = [] := rfl

@[simp] theorem edges_append (forest other : Forest α) (parent : Option α) :
    (forest.append other).edges parent = forest.edges parent ++ other.edges parent := by
  induction forest with
  | nil => rfl
  | node a children siblings _ ih => simp [append, edges, ih]

theorem map_fst_edges (forest : Forest α) (parent : Option α) :
    (forest.edges parent).map Prod.fst = forest.nodes := by
  induction forest generalizing parent with
  | nil => rfl
  | node a children siblings ihc ihs => simp [edges, nodes, ihc, ihs]

@[simp] theorem nodes_append (forest other : Forest α) :
    (forest.append other).nodes = forest.nodes ++ other.nodes := by
  induction forest with
  | nil => rfl
  | node a children siblings _ ih => simp [append, nodes, ih]

@[simp] theorem tops_append (forest other : Forest α) :
    (forest.append other).tops = forest.tops ++ other.tops := by
  induction forest with
  | nil => rfl
  | node a children siblings _ ih => simp [append, tops, ih]

/-- The edges below a node have a parent. -/
theorem filter_edges_some (forest : Forest α) (parent : α) :
    (forest.edges (some parent)).filter (·.2.isNone) = [] := by
  induction forest generalizing parent with
  | nil => rfl
  | node a children siblings ihc ihs => simp [edges, ihc, ihs]

/-- The trees at the top are those whose edge has no parent. -/
theorem tops_eq (forest : Forest α) :
    forest.tops = ((forest.edges none).filter (·.2.isNone)).map Prod.fst := by
  induction forest with
  | nil => rfl
  | node a children siblings _ ih => simp [tops, edges, filter_edges_some, ih]

/-- Of two siblings the earlier one is related to the later one. -/
def Siblings (r : α → α → Prop) : Forest α → Prop
  | nil => True
  | node a children siblings =>
    (∀ b ∈ siblings.tops, r a b) ∧ children.Siblings r ∧ siblings.Siblings r

theorem mem_edges_of_mem_tops {forest : Forest α} {a : α} (parent : Option α)
    (ha : a ∈ forest.tops) : (a, parent) ∈ forest.edges parent := by
  induction forest with
  | nil => cases ha
  | node b children siblings _ ih =>
    obtain rfl | ha := List.mem_cons.mp ha
    · exact .head _
    · exact .tail _ (List.mem_append_right _ (ih ha))

/-- Siblings stand in the order of the forest. -/
theorem siblings_of_pairwise {r : α → α → Prop} {forest : Forest α} {parent : Option α}
    (h : (forest.edges parent).Pairwise fun e d ↦ r e.1 d.1) : forest.Siblings r := by
  induction forest generalizing parent with
  | nil => trivial
  | node a children siblings ihc ihs =>
    obtain ⟨ha, h⟩ := List.pairwise_cons.mp h
    obtain ⟨hc, hs, -⟩ := List.pairwise_append.mp h
    refine ⟨fun b hb ↦ ?_, ihc hc, ihs hs⟩
    exact ha (b, parent) (List.mem_append_right _ (mem_edges_of_mem_tops parent hb))

end Forest

/-- The open nodes, innermost first, and the trees that are finished. -/
structure Spine (α : Type u) where
  opened : List (α × Forest α) := []
  roots : Forest α := .nil

namespace Spine

variable {α : Type u} {p : α → Bool}

/-- The edges that the open nodes and the finished trees have so far, in preorder. -/
def edgesOf (roots : Forest α) : List (α × Forest α) → List (α × Option α)
  | [] => roots.edges none
  | (a, children) :: opened =>
    edgesOf roots opened ++ (a, opened.head?.map Prod.fst) :: children.edges (some a)

def edges (s : Spine α) : List (α × Option α) := edgesOf s.roots s.opened

/-- The innermost nodes that meet `p` are closed; `done` are trees to put under the first. -/
def closeOf (p : α → Bool) (roots done : Forest α) : List (α × Forest α) → Spine α
  | [] => ⟨[], roots.append done⟩
  | (a, children) :: opened =>
    if p a then closeOf p roots (.node a (children.append done) .nil) opened
    else ⟨(a, children.append done) :: opened, roots⟩

def closeWhile (p : α → Bool) (s : Spine α) : Spine α := closeOf p s.roots .nil s.opened

/-- A new innermost node. -/
def push (a : α) (s : Spine α) : Spine α := { s with opened := (a, .nil) :: s.opened }

/-- Every node is closed. -/
def toForest (s : Spine α) : Forest α := (s.closeWhile fun _ ↦ true).roots

/-- The innermost open element. -/
def top (s : Spine α) : Option α := s.opened.head?.map Prod.fst

theorem edges_closeOf (roots done : Forest α) (opened : List (α × Forest α)) :
    (closeOf p roots done opened).edges =
      edgesOf roots opened ++ done.edges (opened.head?.map Prod.fst) := by
  induction opened generalizing done with
  | nil => exact Forest.edges_append ..
  | cons node opened ih =>
    rw [closeOf]
    split
    next => rw [ih]; simp [edgesOf, Forest.edges]
    next => simp [edges, edgesOf]

/-- Closing keeps the edges. -/
@[simp] theorem edges_closeWhile (s : Spine α) : (s.closeWhile p).edges = s.edges := by
  rw [closeWhile, edges_closeOf, Forest.edges_nil, List.append_nil]
  rfl

@[simp] theorem edges_push (a : α) (s : Spine α) : (s.push a).edges = s.edges ++ [(a, s.top)] := rfl

/-- The open elements, innermost first. -/
def elements (s : Spine α) : List α := s.opened.map Prod.fst

theorem elements_closeOf (roots done : Forest α) (opened : List (α × Forest α)) :
    (closeOf p roots done opened).elements = (opened.map Prod.fst).dropWhile p := by
  induction opened generalizing done with
  | nil => rfl
  | cons node opened ih =>
    rw [closeOf, List.map_cons, List.dropWhile_cons]
    split
    next => exact ih _
    next => rfl

@[simp] theorem elements_closeWhile (s : Spine α) :
    (s.closeWhile p).elements = s.elements.dropWhile p := elements_closeOf ..

@[simp] theorem elements_push (a : α) (s : Spine α) : (s.push a).elements = a :: s.elements := rfl

theorem top_eq (s : Spine α) : s.top = s.elements.head? := List.head?_map.symm

/-- Trees that are finished already stay in front. -/
theorem closeOf_append (front roots done : Forest α) (opened : List (α × Forest α)) :
    closeOf p (front.append roots) done opened = { closeOf p roots done opened with
        roots := front.append (closeOf p roots done opened).roots } := by
  induction opened generalizing done with
  | nil => simp [closeOf, Forest.append_assoc]
  | cons node opened ih =>
    rw [closeOf, closeOf]
    split
    next => exact ih _
    next => rfl

theorem opened_closeWhile_true (s : Spine α) : (s.closeWhile fun _ ↦ true).opened = [] := by
  have hdrop : ∀ xs : List α, xs.dropWhile (fun _ ↦ true) = [] := by
    intro xs
    induction xs with
    | nil => rfl
    | cons _ _ ih => exact ih
  have h := elements_closeWhile (p := fun _ ↦ true) s
  rw [hdrop] at h
  exact List.map_eq_nil_iff.mp h

/-- The finished forest has the edges of the spine. -/
theorem edges_toForest (s : Spine α) : s.toForest.edges none = s.edges := by
  rw [← edges_closeWhile s, edges, opened_closeWhile_true]
  rfl

end Spine

end Hisab.Base

/-!
## Totals over a forest

Every node has a weight; its own part is what its children leave of it. The sum of the own parts
is the same while nodes are closed, and a new node takes from the node that it is put under.
-/

namespace Hisab.Base

universe u

namespace Forest

variable {α : Type u} (d : α → Nat)

/-- The weights of the trees at the top. -/
def topSum (forest : Forest α) : Nat := (forest.tops.map d).sum

/-- The sum of what the children of each node leave of its weight. -/
def selfSum : Forest α → Nat
  | nil => 0
  | node a children siblings => (d a - children.topSum d) + children.selfSum + siblings.selfSum

/-- The sum of all weights. -/
def total (forest : Forest α) : Nat := (forest.nodes.map d).sum

variable {d}

@[simp] theorem topSum_nil : (nil : Forest α).topSum d = 0 := rfl

@[simp] theorem topSum_node (a : α) (children siblings : Forest α) :
    (node a children siblings).topSum d = d a + siblings.topSum d := by
  simp [topSum, tops]

@[simp] theorem topSum_append (forest other : Forest α) :
    (forest.append other).topSum d = forest.topSum d + other.topSum d := by
  simp [topSum]

@[simp] theorem selfSum_append (forest other : Forest α) :
    (forest.append other).selfSum d = forest.selfSum d + other.selfSum d := by
  induction forest with
  | nil => simp [selfSum]
  | node a children siblings _ ih =>
    rw [append, selfSum, selfSum]
    omega

@[simp] theorem total_node (a : α) (children siblings : Forest α) :
    (node a children siblings).total d = d a + children.total d + siblings.total d := by
  simp [total, nodes, Nat.add_assoc]

@[simp] theorem total_append (forest other : Forest α) :
    (forest.append other).total d = forest.total d + other.total d := by
  simp [total]

theorem topSum_le_total (forest : Forest α) : forest.topSum d ≤ forest.total d := by
  induction forest with
  | nil => exact Nat.le_refl 0
  | node a children siblings _ ih =>
    rw [topSum_node, total_node]
    omega

end Forest

namespace Spine

variable {α : Type u} {d : α → Nat} {p : α → Bool} {s : Spine α}

/-- The own parts of a spine; `inner` is the weight of the innermost child that is not under its
parent yet. -/
def selfOf (d : α → Nat) (roots : Forest α) : Nat → List (α × Forest α) → Nat
  | _, [] => roots.selfSum d
  | inner, (a, children) :: opened =>
    (d a - (children.topSum d + inner)) + children.selfSum d + selfOf d roots (d a) opened

def selfSum (d : α → Nat) (s : Spine α) : Nat := selfOf d s.roots 0 s.opened

theorem selfSum_closeOf (roots done : Forest α) (opened : List (α × Forest α)) :
    (closeOf p roots done opened).selfSum d =
      selfOf d roots (done.topSum d) opened + done.selfSum d := by
  induction opened generalizing done with
  | nil => simp [closeOf, selfSum, selfOf]
  | cons node opened ih =>
    rw [closeOf]
    split
    next =>
      rw [ih]
      simp [selfOf, Forest.selfSum]
      omega
    next =>
      simp [selfSum, selfOf]
      omega

/-- Closing keeps the own parts. -/
@[simp] theorem selfSum_closeWhile (s : Spine α) : (s.closeWhile p).selfSum d = s.selfSum d := by
  rw [closeWhile, selfSum_closeOf]
  rfl

theorem selfSum_toForest (s : Spine α) : s.toForest.selfSum d = s.selfSum d := by
  rw [← selfSum_closeWhile s, selfSum, opened_closeWhile_true]
  rfl

/-- A new node below nothing. -/
theorem selfSum_push_nil (h : s.opened = []) (a : α) :
    (s.push a).selfSum d = s.selfSum d + d a := by
  rw [selfSum, selfSum, push, h]
  simp [selfOf, Forest.selfSum]
  omega

/-- A new node takes from what the children of the innermost one have left of it. -/
theorem selfSum_push_cons {y : α} {children : Forest α} {opened : List (α × Forest α)}
    (h : s.opened = (y, children) :: opened) (a : α) :
    (s.push a).selfSum d = s.selfSum d + (d a - (d y - children.topSum d)) := by
  rw [selfSum, selfSum, push, h]
  simp [selfOf, Forest.selfSum]
  omega

/-! ### Children that fit between the starts -/

variable {start stop : α → Int} {t : Int}

/-- The children that a node has fit between its start and that of the next open node, or the
time `t`. -/
def FitsOf (d : α → Nat) (start stop : α → Int) : Int → List (α × Forest α) → Prop
  | _, [] => True
  | t, (a, children) :: opened =>
    start a ≤ stop a ∧ start a ≤ t ∧ (children.topSum d : Int) ≤ t - start a ∧
      FitsOf d start stop (start a) opened

def Fits (d : α → Nat) (start stop : α → Int) (t : Int) (s : Spine α) : Prop :=
  FitsOf d start stop t s.opened

theorem Fits.mono {t' : Int} (h : s.Fits d start stop t) (ht : t ≤ t') :
    s.Fits d start stop t' := by
  unfold Fits at *
  cases hopened : s.opened with
  | nil => trivial
  | cons node opened =>
    rw [hopened] at h
    obtain ⟨hle, hstart, hfit, hrest⟩ := h
    exact ⟨hle, hstart.trans ht, by omega, hrest⟩

theorem Fits.push {a : α} (h : s.Fits d start stop (start a)) (hle : start a ≤ stop a) :
    (s.push a).Fits d start stop (start a) :=
  ⟨hle, le_rfl, by simp, h⟩

theorem fits_closeOf (hd : ∀ a, start a ≤ stop a → (d a : Int) = stop a - start a)
    (roots done : Forest α) (opened : List (α × Forest α))
    (h : ∀ a children rest, opened = (a, children) :: rest → start a ≤ stop a ∧ start a ≤ t ∧
      ((children.append done).topSum d : Int) ≤ t - start a ∧ FitsOf d start stop (start a) rest) :
    (closeOf (fun a ↦ decide (stop a ≤ t)) roots done opened).Fits d start stop t := by
  induction opened generalizing done with
  | nil => trivial
  | cons node opened ih =>
    obtain ⟨hle, hstart, hfit, hrest⟩ := h node.1 node.2 opened rfl
    rw [closeOf]
    split
    next hend =>
      have hend := of_decide_eq_true hend
      refine ih _ fun a children rest heq ↦ ?_
      subst heq
      obtain ⟨hle', hstart', hfit', hrest'⟩ := hrest
      refine ⟨hle', hstart'.trans hstart, ?_, hrest'⟩
      have hnode := hd node.1 hle
      simp only [Forest.topSum_append, Forest.topSum_node, Forest.topSum_nil]
      omega
    next => exact ⟨hle, hstart, hfit, hrest⟩

/-- Closing what has ended keeps the fit. -/
theorem Fits.closeWhile (h : s.Fits d start stop t)
    (hd : ∀ a, start a ≤ stop a → (d a : Int) = stop a - start a) :
    (s.closeWhile fun a ↦ decide (stop a ≤ t)).Fits d start stop t := by
  refine fits_closeOf hd s.roots .nil s.opened fun a children rest heq ↦ ?_
  rw [Fits, heq] at h
  rw [Forest.append_nil]
  exact h

end Spine

end Hisab.Base
