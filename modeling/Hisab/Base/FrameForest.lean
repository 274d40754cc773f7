import Hisab.Base.Forest
import Mathlib.Data.List.DropRight
import Mathlib.Data.List.Nodup

/-!
# Frames that close together

Intervals are taken in the order of their starts and put on a stack, unless they are empty. When a
frame has ended, it leaves the stack with everything above it, whether that has ended or not. What
is on the stack at a time are the frames below the outermost one that ended before it. The parent of
an interval is the frame on top at its start, whatever the intervals are.
-/

namespace Hisab.Base

open List

universe u v

variable {α : Type u}

section Suffix

variable {p : α → Bool} {front rest : List α} {a : α}

theorem rtakeWhile_append_of_forall (h : ∀ z ∈ rest, p z = true) :
    (front ++ rest).rtakeWhile p = front.rtakeWhile p ++ rest := by
  have h' : ∀ z ∈ rest.reverse, p z = true := fun z hz ↦ h z (mem_reverse.mp hz)
  rw [rtakeWhile, rtakeWhile, reverse_append, takeWhile_append_of_pos h',
    reverse_append, reverse_reverse]

/-- What fails cuts off what is before it. -/
theorem rtakeWhile_append_cons (h : p a = false) :
    (front ++ a :: rest).rtakeWhile p = rest.rtakeWhile p := by
  induction rest using reverseRecOn with
  | nil => rw [rtakeWhile_concat_neg _ _ _ (by simp [h]), rtakeWhile_nil]
  | append_singleton rest b ih =>
    rw [← cons_append, ← append_assoc, rtakeWhile_concat, rtakeWhile_concat, ih]

end Suffix

variable {T : Type v} [LinearOrder T] {start stop : α → T} {t t' : T} {opened below xs : List α}
  {x y : α}

/-- The frames below the outermost one that ended before a time. -/
def openPart (stop : α → T) (t : T) (opened : List α) : List α :=
  opened.rtakeWhile fun y ↦ decide (t ≤ stop y)

theorem openPart_suffix : openPart stop t opened <:+ opened := rtakeWhile_suffix ..

theorem le_stop_of_mem_openPart (h : y ∈ openPart stop t opened) : t ≤ stop y := by
  have hy := mem_rtakeWhile_imp h
  exact of_decide_eq_true hy

theorem openPart_eq_self (h : ∀ y ∈ opened, t ≤ stop y) : openPart stop t opened = opened :=
  rtakeWhile_eq_self_iff.mpr fun y hy ↦ decide_eq_true (h y hy)

theorem openPart_append (h : ∀ y ∈ below, t ≤ stop y) :
    openPart stop t (opened ++ below) = openPart stop t opened ++ below :=
  rtakeWhile_append_of_forall fun y hy ↦ decide_eq_true (h y hy)

theorem openPart_append_cons (h : stop y < t) :
    openPart stop t (opened ++ y :: below) = openPart stop t below :=
  rtakeWhile_append_cons (decide_eq_false (not_le.mpr h))

/-- All frames close if the outermost one has ended. -/
theorem openPart_eq_nil_iff : openPart stop t opened = [] ↔ ∀ y ∈ opened.getLast?, stop y < t := by
  rw [openPart, rtakeWhile_eq_nil_iff]
  constructor
  · intro h y hy
    obtain ⟨hne, rfl⟩ := mem_getLast?_eq_getLast hy
    simpa using h hne
  · intro h hne
    have hlast := h _ (getLast?_eq_getLast_of_ne_nil hne)
    simpa using hlast

/-- Frames that close at a time stay closed. -/
theorem openPart_openPart (h : t ≤ t') :
    openPart stop t' (openPart stop t opened) = openPart stop t' opened := by
  induction opened using reverseRecOn with
  | nil => rfl
  | append_singleton opened y ih =>
    by_cases hy : t ≤ stop y
    · have hall : ∀ z ∈ [y], t ≤ stop z := by simpa using hy
      rw [openPart_append hall]
      by_cases hy' : t' ≤ stop y
      · have hall' : ∀ z ∈ [y], t' ≤ stop z := by simpa using hy'
        rw [openPart_append hall', openPart_append hall', ih]
      · rw [openPart_append_cons (not_le.mp hy'), openPart_append_cons (not_le.mp hy')]
    · rw [openPart_append_cons (not_le.mp hy)]
      have hy' : stop y < t' := (not_le.mp hy).trans_le h
      rw [openPart_append_cons hy']
      rfl

/-- The stack after an interval. -/
def pushFrame (start stop : α → T) (opened : List α) (x : α) : List α :=
  if start x < stop x then x :: openPart stop (start x) opened else openPart stop (start x) opened

/-- The stack after intervals. -/
def framesAfter (start stop : α → T) (opened xs : List α) : List α :=
  xs.foldl (pushFrame start stop) opened

/-- Every interval with the frame on top at its start. -/
def frameParents (start stop : α → T) : List α → List α → List (α × Option α)
  | _, [] => []
  | opened, x :: xs => (x, (openPart stop (start x) opened).head?) ::
      frameParents start stop (pushFrame start stop opened x) xs

theorem framesAfter_cons : framesAfter start stop opened (x :: xs) =
    framesAfter start stop (pushFrame start stop opened x) xs := rfl

theorem framesAfter_append (ys : List α) : framesAfter start stop opened (xs ++ ys) =
    framesAfter start stop (framesAfter start stop opened xs) ys := foldl_append ..

theorem frameParents_append (ys : List α) : frameParents start stop opened (xs ++ ys) =
    frameParents start stop opened xs ++
      frameParents start stop (framesAfter start stop opened xs) ys := by
  induction xs generalizing opened with
  | nil => rfl
  | cons x xs ih => rw [cons_append, frameParents, frameParents, ih, framesAfter_cons, cons_append]

theorem frameParents_fst : (frameParents start stop opened xs).map Prod.fst = xs := by
  induction xs generalizing opened with
  | nil => rfl
  | cons x xs ih => rw [frameParents, map_cons, ih]

theorem length_frameParents : (frameParents start stop opened xs).length = xs.length := by
  rw [← length_map, frameParents_fst]

/-- The parent of an interval is told by those before it. -/
theorem mem_frameParents {p : Option α} : (x, p) ∈ frameParents start stop opened xs ↔
    ∃ before after, xs = before ++ x :: after ∧
      p = (openPart stop (start x) (framesAfter start stop opened before)).head? := by
  induction xs generalizing opened with
  | nil => simp [frameParents]
  | cons z xs ih =>
    rw [frameParents, mem_cons, ih]
    constructor
    · rintro (heq | ⟨before, after, rfl, hp⟩)
      · cases heq
        exact ⟨[], xs, rfl, rfl⟩
      · exact ⟨z :: before, after, rfl, hp⟩
    · rintro ⟨before, after, hsplit, hp⟩
      cases before with
      | nil =>
        cases hsplit
        exact .inl (by rw [hp]; rfl)
      | cons _ before =>
        cases hsplit
        exact .inr ⟨before, after, rfl, hp⟩

theorem mem_of_mem_pushFrame (h : y ∈ pushFrame start stop opened x) :
    (y = x ∧ start x < stop x) ∨ y ∈ opened := by
  rw [pushFrame] at h
  split at h
  · next hx =>
    cases mem_cons.mp h with
    | inl heq => exact .inl ⟨heq, hx⟩
    | inr hmem => exact .inr (openPart_suffix.subset hmem)
  · exact .inr (openPart_suffix.subset h)

theorem mem_of_mem_framesAfter (h : y ∈ framesAfter start stop opened xs) :
    (y ∈ xs ∧ start y < stop y) ∨ y ∈ opened := by
  induction xs generalizing opened with
  | nil => exact .inr h
  | cons x xs ih =>
    cases ih h with
    | inl hmem => exact .inl ⟨mem_cons_of_mem _ hmem.1, hmem.2⟩
    | inr hmem =>
      cases mem_of_mem_pushFrame hmem with
      | inl hx =>
        obtain ⟨rfl, hpos⟩ := hx
        exact .inl ⟨mem_cons_self, hpos⟩
      | inr hmem => exact .inr hmem

/-- A parent is a frame that is not empty. -/
theorem of_mem_frameParents (h : (x, some y) ∈ frameParents start stop [] xs) :
    y ∈ xs ∧ start y < stop y := by
  obtain ⟨before, after, rfl, hp⟩ := mem_frameParents.mp h
  have hmem := openPart_suffix.subset (mem_of_mem_head? hp.symm)
  cases mem_of_mem_framesAfter hmem with
  | inl hy => exact ⟨mem_append_left _ hy.1, hy.2⟩
  | inr hy => cases hy

/-! ### Frames that nest -/

/-- Among intervals of which each ends within the earlier ones that have not ended before its
start, the frames on the stack are those that have not ended. -/
theorem openPart_framesAfter (hsorted : xs.Pairwise fun a b ↦ start a ≤ start b)
    (hnested : xs.Pairwise fun a b ↦
      start a < stop a → start b < stop b → start b ≤ stop a → stop b ≤ stop a)
    (ht : ∀ x ∈ xs, start x ≤ t) : openPart stop t (framesAfter start stop [] xs) =
      xs.reverse.filter fun y ↦ decide (start y < stop y ∧ t ≤ stop y) := by
  induction xs using reverseRecOn generalizing t with
  | nil => rfl
  | append_singleton xs x ih =>
    obtain ⟨hsorted, -, hbefore⟩ := pairwise_append.mp hsorted
    obtain ⟨hnested, -, hinside⟩ := pairwise_append.mp hnested
    have hstart : ∀ z ∈ xs, start z ≤ start x := fun z hz ↦ hbefore z hz x mem_cons_self
    have hinside := fun z hz ↦ hinside z hz x mem_cons_self
    have hx : start x ≤ t := ht x (by simp)
    have hopen := ih hsorted hnested hstart
    have hlater := ih hsorted hnested fun z hz ↦ (hstart z hz).trans hx
    have hclosed : openPart stop t (openPart stop (start x) (framesAfter start stop [] xs)) =
        openPart stop t (framesAfter start stop [] xs) := openPart_openPart hx
    rw [framesAfter_append, framesAfter_cons, framesAfter, foldl_nil, pushFrame,
      reverse_append, reverse_singleton, singleton_append, filter_cons]
    by_cases hpos : start x < stop x
    · rw [if_pos hpos]
      by_cases hend : t ≤ stop x
      · rw [if_pos (decide_eq_true ⟨hpos, hend⟩), ← hlater, ← hclosed]
        have hall : ∀ z ∈ x :: openPart stop (start x) (framesAfter start stop [] xs),
            t ≤ stop z := by
          intro z hz
          cases mem_cons.mp hz with
          | inl heq =>
            rw [heq]
            exact hend
          | inr hz =>
            rw [hopen] at hz
            obtain ⟨hz, hcond⟩ := mem_filter.mp hz
            have hcond := of_decide_eq_true hcond
            exact hend.trans (hinside z (mem_reverse.mp hz) hcond.1 hpos hcond.2)
        rw [openPart_eq_self hall, openPart_eq_self fun z hz ↦ hall z (mem_cons_of_mem _ hz)]
      · rw [if_neg (by simp [hend]), ← hlater, ← hclosed]
        have hcut : openPart stop t ([] ++ x :: openPart stop (start x) (framesAfter start stop [] xs)) =
            openPart stop t (openPart stop (start x) (framesAfter start stop [] xs)) :=
          openPart_append_cons (not_le.mp hend)
        exact hcut
    · rw [if_neg hpos, if_neg (by simp [hpos]), hclosed, hlater]

end Hisab.Base

/-!
## The forest of frames

The parents that frames have make up a forest whose preorder is the order of the intervals. With
other times, the same forest comes out if and only if no interval that is not empty ends at or after
the start of the next one beside it.
-/

namespace Hisab.Base

universe u v

variable {α : Type u} {T : Type v} [LinearOrder T] {start stop : α → T} {opened xs : List α} {x : α}

/-! ### The forest -/

theorem dropWhile_not_mem [DecidableEq α] {front rest : List α} (h : (front ++ rest).Nodup) :
    (front ++ rest).dropWhile (fun a ↦ decide (a ∉ rest)) = rest := by
  induction front with
  | nil =>
    cases rest with
    | nil => rfl
    | cons a rest => rw [List.nil_append, List.dropWhile_cons_of_neg (by simp)]
  | cons a front ih =>
    obtain ⟨ha, h⟩ := List.nodup_cons.mp h
    rw [List.cons_append, List.dropWhile_cons_of_pos]
    · exact ih h
    · exact decide_eq_true fun hmem ↦ ha (List.mem_append_right _ hmem)

/-- A spine whose innermost nodes are the frames of the stack, below empty intervals. -/
structure FrameSpine (start stop : α → T) (s : Spine α) (xs : List α) : Prop where
  edges : s.edges = frameParents start stop [] xs
  suffix : framesAfter start stop [] xs <:+ s.elements
  nodup : s.elements.Nodup
  subset : s.elements ⊆ xs

theorem FrameSpine.push [DecidableEq α] {s : Spine α} (h : FrameSpine start stop s xs)
    (hx : x ∉ xs) : ∃ s', FrameSpine start stop s' (xs ++ [x]) := by
  have hsuffix : openPart stop (start x) (framesAfter start stop [] xs) <:+ s.elements :=
    openPart_suffix.trans h.suffix
  obtain ⟨rest, hrest⟩ := hsuffix
  have helements : (s.closeWhile fun a ↦
      decide (a ∉ openPart stop (start x) (framesAfter start stop [] xs))).elements =
        openPart stop (start x) (framesAfter start stop [] xs) := by
    rw [Spine.elements_closeWhile, ← hrest]
    exact dropWhile_not_mem (hrest ▸ h.nodup)
  have hsuffix : openPart stop (start x) (framesAfter start stop [] xs) <:+ s.elements :=
    ⟨rest, hrest⟩
  refine ⟨(s.closeWhile fun a ↦
    decide (a ∉ openPart stop (start x) (framesAfter start stop [] xs))).push x, ?_, ?_, ?_, ?_⟩
  · rw [Spine.edges_push, Spine.edges_closeWhile, h.edges, Spine.top_eq, helements,
      frameParents_append]
    rfl
  · rw [Spine.elements_push, helements, framesAfter_append]
    show pushFrame start stop _ x <:+ _
    rw [pushFrame]
    split
    · exact List.suffix_refl _
    · exact List.suffix_cons ..
  · rw [Spine.elements_push, helements, List.nodup_cons]
    exact ⟨fun hmem ↦ hx (h.subset (hsuffix.subset hmem)), h.nodup.sublist hsuffix.sublist⟩
  · rw [Spine.elements_push, helements]
    intro a ha
    cases List.mem_cons.mp ha with
    | inl heq => exact List.mem_append_right _ (heq ▸ List.mem_cons_self)
    | inr hmem => exact List.mem_append_left _ (h.subset (hsuffix.subset hmem))

/-- The parents of the intervals are those of a forest. -/
theorem exists_forest [DecidableEq α] (start stop : α → T) (h : xs.Nodup) :
    ∃ forest : Forest α, forest.edges none = frameParents start stop [] xs := by
  have hspine : ∃ s, FrameSpine start stop s xs := by
    induction xs using List.reverseRecOn with
    | nil => exact ⟨{}, rfl, List.suffix_refl _, List.nodup_nil, List.Subset.refl _⟩
    | append_singleton xs x ih =>
      obtain ⟨hxs, -, hdisjoint⟩ := List.nodup_append.mp h
      obtain ⟨s, hs⟩ := ih hxs
      exact hs.push fun hx ↦ hdisjoint x hx x List.mem_cons_self rfl
  obtain ⟨s, hs⟩ := hspine
  exact ⟨s.toForest, s.edges_toForest.trans hs.edges⟩

namespace Forest

variable {forest : Forest α}

/-- A node with children is not empty. -/
def InnerPositive (start stop : α → T) : Forest α → Prop
  | nil => True
  | node a children siblings => (children ≠ nil → start a < stop a) ∧
      children.InnerPositive start stop ∧ siblings.InnerPositive start stop

theorem exists_mem_edges {parent : Option α} (h : forest ≠ nil) :
    ∃ x, (x, parent) ∈ forest.edges parent := by
  cases forest with
  | nil => exact absurd rfl h
  | node a children siblings => exact ⟨a, List.mem_cons_self⟩

theorem innerPositive_of_edges {parent : Option α}
    (h : ∀ x y, (x, some y) ∈ forest.edges parent → start y < stop y) :
    forest.InnerPositive start stop := by
  induction forest generalizing parent with
  | nil => trivial
  | node a children siblings ihc ihs =>
    have hc : ∀ x y, (x, some y) ∈ children.edges (some a) → start y < stop y :=
      fun x y hmem ↦ h x y (List.mem_cons_of_mem _ (List.mem_append_left _ hmem))
    have hs : ∀ x y, (x, some y) ∈ siblings.edges parent → start y < stop y :=
      fun x y hmem ↦ h x y (List.mem_cons_of_mem _ (List.mem_append_right _ hmem))
    refine ⟨fun hne ↦ ?_, ihc hc, ihs hs⟩
    obtain ⟨x, hx⟩ := exists_mem_edges hne
    exact hc x a hx

theorem InnerPositive.imp {start' stop' : α → T} (h : forest.InnerPositive start stop)
    (himp : ∀ x ∈ forest.nodes, start x < stop x → start' x < stop' x) :
    forest.InnerPositive start' stop' := by
  induction forest with
  | nil => trivial
  | node a children siblings ihc ihs =>
    obtain ⟨ha, himp⟩ := List.forall_mem_cons.mp himp
    obtain ⟨hc, hs⟩ := List.forall_mem_append.mp himp
    exact ⟨fun hne ↦ ha (h.1 hne), ihc h.2.1 hc, ihs h.2.2 hs⟩

/-- What is below a node starts before the end of it. -/
def StartsInside (start stop : α → T) : Forest α → Prop
  | nil => True
  | node a children siblings => (∀ x ∈ children.nodes, start x ≤ stop a) ∧
      children.StartsInside start stop ∧ siblings.StartsInside start stop

/-- No node that is not empty ends at or after the start of the next one beside it. -/
def Separate (start stop : α → T) : Forest α → Prop
  | nil => True
  | node a children siblings =>
    (start a < stop a → ∀ b ∈ siblings.tops.head?, stop a < start b) ∧
      children.Separate start stop ∧ siblings.Separate start stop

end Forest

/-- Frames that are open at every start stay below those that are put on them. -/
theorem framesAfter_append_below (front : List α) {below : List α}
    (h : ∀ z ∈ below, ∀ x ∈ xs, start x ≤ stop z) :
    ∃ front', framesAfter start stop (front ++ below) xs = front' ++ below ∧
      ∀ y ∈ front', y ∈ front ∨ y ∈ xs := by
  induction xs generalizing front with
  | nil => exact ⟨front, rfl, fun y hy ↦ .inl hy⟩
  | cons x xs ih =>
    have hx : ∀ z ∈ below, start x ≤ stop z := fun z hz ↦ h z hz x List.mem_cons_self
    have hxs : ∀ z ∈ below, ∀ y ∈ xs, start y ≤ stop z :=
      fun z hz y hy ↦ h z hz y (List.mem_cons_of_mem _ hy)
    have hpush : ∃ front', pushFrame start stop (front ++ below) x = front' ++ below ∧
        ∀ y ∈ front', y ∈ front ∨ y = x := by
      rw [pushFrame, openPart_append hx]
      split
      · refine ⟨x :: openPart stop (start x) front, rfl, fun y hy ↦ ?_⟩
        cases List.mem_cons.mp hy with
        | inl heq => exact .inr heq
        | inr hmem => exact .inl (openPart_suffix.subset hmem)
      · exact ⟨_, rfl, fun y hy ↦ .inl (openPart_suffix.subset hy)⟩
    obtain ⟨front₁, hfront₁, hsub₁⟩ := hpush
    obtain ⟨front₂, hfront₂, hsub₂⟩ := ih front₁ hxs
    refine ⟨front₂, ?_, fun y hy ↦ ?_⟩
    · rw [framesAfter_cons, hfront₁, hfront₂]
    · cases hsub₂ y hy with
      | inl hmem =>
        cases hsub₁ y hmem with
        | inl hmem => exact .inl hmem
        | inr heq => exact .inr (heq ▸ List.mem_cons_self)
      | inr hmem => exact .inr (List.mem_cons_of_mem _ hmem)

/-- The parent of the first interval is the frame below those that are to close, if they do. -/
theorem head?_openPart_append {front below : List α} {t : T}
    (hbelow : ∀ z ∈ below, t ≤ stop z) (hdisjoint : front.Disjoint below) :
    (openPart stop t (front ++ below)).head? = below.head? ↔ ∀ b ∈ front.getLast?, stop b < t := by
  rw [openPart_append hbelow, ← openPart_eq_nil_iff]
  constructor
  · intro hhead
    cases hopen : openPart stop t front with
    | nil => rfl
    | cons y rest =>
      rw [hopen] at hhead
      have hfront : y ∈ front := openPart_suffix.subset (hopen ▸ List.mem_cons_self)
      exact absurd (List.mem_of_mem_head? hhead.symm) (hdisjoint hfront)
  · intro hnil
    rw [hnil, List.nil_append]

theorem frameParents_cons_eq_iff {forest : Forest α} {p q : Option α} {ys : List α}
    {rest : List (α × Option α)} (hp : (openPart stop (start x) opened).head? = p) :
    frameParents start stop opened (x :: forest.nodes ++ ys) = (x, p) :: forest.edges q ++ rest ↔
      frameParents start stop (pushFrame start stop opened x) forest.nodes = forest.edges q ∧
        frameParents start stop (framesAfter start stop (pushFrame start stop opened x) forest.nodes)
          ys = rest := by
  rw [List.cons_append, frameParents, hp, frameParents_append, List.cons_append, List.cons_inj_right]
  constructor
  · intro heq
    apply List.append_inj heq
    rw [length_frameParents, ← forest.map_fst_edges q, List.length_map]
  · rintro ⟨hfirst, hrest⟩
    rw [hfirst, hrest]

/-- With new times the frames have the parents of the forest if and only if the nodes beside each
other are separate. -/
theorem frameParents_nodes_iff {forest : Forest α} (front below : List α)
    (hinside : forest.StartsInside start stop) (hinner : forest.InnerPositive start stop)
    (hnodup : forest.nodes.Nodup) (hbelow : ∀ z ∈ below, ∀ x ∈ forest.nodes, start x ≤ stop z)
    (hfront : front.Disjoint below) (hnodes : forest.nodes.Disjoint below) :
    frameParents start stop (front ++ below) forest.nodes = forest.edges below.head? ↔
      (∀ b ∈ front.getLast?, ∀ a ∈ forest.tops.head?, stop b < start a) ∧
        forest.Separate start stop := by
  induction forest generalizing front below with
  | nil => simp [Forest.nodes, Forest.tops, Forest.Separate, frameParents]
  | node a children siblings ihc ihs =>
    obtain ⟨hina, hinc, hins⟩ := hinside
    obtain ⟨hpos, hinnerc, hinners⟩ := hinner
    rw [Forest.nodes, List.cons_append, List.nodup_cons] at hnodup
    obtain ⟨ha, hnodup⟩ := hnodup
    obtain ⟨hnodupc, hnodups, hapart⟩ := List.nodup_append'.mp hnodup
    have hbelowa : ∀ z ∈ below, start a ≤ stop z := fun z hz ↦ hbelow z hz a List.mem_cons_self
    have hbelows : ∀ z ∈ below, ∀ x ∈ siblings.nodes, start x ≤ stop z :=
      fun z hz x hx ↦ hbelow z hz x (List.mem_cons_of_mem _ (List.mem_append_right _ hx))
    have hbelowc : ∀ z ∈ below, ∀ x ∈ children.nodes, start x ≤ stop z :=
      fun z hz x hx ↦ hbelow z hz x (List.mem_cons_of_mem _ (List.mem_append_left _ hx))
    have hnodesa : a ∉ below := hnodes List.mem_cons_self
    have hnodess : siblings.nodes.Disjoint below :=
      fun x hx ↦ hnodes (List.mem_cons_of_mem _ (List.mem_append_right _ hx))
    have hnodesc : children.nodes.Disjoint below :=
      fun x hx ↦ hnodes (List.mem_cons_of_mem _ (List.mem_append_left _ hx))
    have hfirst := head?_openPart_append hbelowa hfront
    by_cases hclose : ∀ b ∈ front.getLast?, stop b < start a
    · have hopen : openPart stop (start a) (front ++ below) = below := by
        rw [openPart_append hbelowa, openPart_eq_nil_iff.mpr hclose, List.nil_append]
      rw [Forest.nodes, Forest.edges, frameParents_cons_eq_iff (hfirst.mpr hclose)]
      have htop : (∀ b ∈ front.getLast?, ∀ c ∈ (Forest.node a children siblings).tops.head?,
          stop b < start c) ↔ True := by
        simpa [Forest.tops] using hclose
      rw [htop, Forest.Separate, pushFrame, hopen]
      by_cases hposa : start a < stop a
      · rw [if_pos hposa]
        have hbelowa' : ∀ z ∈ a :: below, ∀ x ∈ children.nodes, start x ≤ stop z := by
          intro z hz x hx
          cases List.mem_cons.mp hz with
          | inl heq => exact heq ▸ hina x hx
          | inr hz => exact hbelowc z hz x hx
        have hdisjointc : children.nodes.Disjoint (a :: below) := by
          intro x hx hmem
          cases List.mem_cons.mp hmem with
          | inl heq => exact ha (heq ▸ List.mem_append_left _ hx)
          | inr hmem => exact hnodesc hx hmem
        have hchildren := ihc [] (a :: below) hinc hinnerc hnodupc hbelowa' (List.disjoint_nil_left _) hdisjointc
        obtain ⟨front', hafter, hsub⟩ := framesAfter_append_below [] hbelowa'
        rw [List.nil_append] at hafter hchildren
        rw [List.head?_cons] at hchildren
        have hsiblings := ihs (front' ++ [a]) below hins hinners hnodups hbelows ?_ hnodess
        · rw [List.append_assoc, List.singleton_append] at hsiblings
          rw [hafter, hchildren, hsiblings, List.getLast?_concat]
          simp only [List.getLast?_nil, Option.mem_def, Option.some.injEq, reduceCtorEq,
            false_implies, implies_true, true_and, forall_eq', hposa, true_implies]
          constructor
          · rintro ⟨hc, hb, hs⟩
            exact ⟨hb, hc, hs⟩
          · rintro ⟨hb, hc, hs⟩
            exact ⟨hc, hb, hs⟩
        · intro y hy hmem
          cases List.mem_append.mp hy with
          | inl hy =>
            cases hsub y hy with
            | inl hnil => cases hnil
            | inr hy => exact hnodesc hy hmem
          | inr hy => exact hnodesa (List.mem_singleton.mp hy ▸ hmem)
      · have hnil : children = .nil := by
          by_contra hne
          exact hposa (hpos hne)
        subst hnil
        rw [if_neg hposa]
        have hsiblings := ihs [] below hins hinners hnodups hbelows (List.disjoint_nil_left _) hnodess
        rw [List.nil_append] at hsiblings
        simp only [Forest.nodes, frameParents, framesAfter, List.foldl_nil, hsiblings,
          hposa, Forest.Separate]
        simp
    · constructor
      · intro heq
        have hhead := (List.cons.inj heq).1
        exact absurd (hfirst.mp (Prod.mk.inj hhead).2) hclose
      · intro hcond
        refine absurd (fun b hb ↦ ?_) hclose
        exact hcond.1 b hb a (by simp [Forest.tops])

end Hisab.Base
