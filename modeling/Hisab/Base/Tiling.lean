import Mathlib

/-!
# Chains of intervals that tile a range

Nodes carry an interval `[lo, hi)` and optional links to their neighbours. When every
link joins an interval to the one that starts where it ends, following the links from a
node without a predecessor yields a list that tiles the range up to the last node's end,
and it meets every node from which that first node is reached backwards.
-/

namespace Hisab.Base.Tiling

open List

universe u

variable {α : Type u} {next prev : α → Option α} {lo hi : α → Nat} {live : α → Prop} {s e : Nat}
  {l : List α}

/-- The list visited by following `next` from `a` until it ends. -/
inductive Chain (next : α → Option α) : α → List α → Prop
  | last {a : α} : next a = none → Chain next a [a]
  | link {a b : α} {l : List α} : next a = some b → Chain next b l → Chain next a (a :: l)

/-- The intervals of the list follow one another without a gap from `s` to `e`, none of
them empty. -/
inductive Tiles (lo hi : α → Nat) : Nat → List α → Nat → Prop
  | nil (s : Nat) : Tiles lo hi s [] s
  | cons {s e : Nat} {a : α} {l : List α} :
      lo a = s → lo a < hi a → Tiles lo hi (hi a) l e → Tiles lo hi s (a :: l) e

theorem Tiles.le (h : Tiles lo hi s l e) : s ≤ e := by
  induction h with
  | nil => exact Nat.le_refl _
  | cons hs hlt _ ih => omega

theorem Tiles.bounds (h : Tiles lo hi s l e) {a : α} (ha : a ∈ l) :
    s ≤ lo a ∧ lo a < hi a ∧ hi a ≤ e := by
  induction h with
  | nil => simp at ha
  | @cons s e b l hs hlt ht ih =>
    rcases mem_cons.mp ha with rfl | hm
    · have := ht.le
      omega
    · have := ih hm
      omega

/-- A tiling depends only on the intervals of its members. -/
theorem Tiles.congr {lo' hi' : α → Nat} (h : Tiles lo hi s l e) (hlo : ∀ a ∈ l, lo' a = lo a)
    (hhi : ∀ a ∈ l, hi' a = hi a) : Tiles lo' hi' s l e := by
  induction h with
  | nil => exact .nil _
  | @cons s e a l hs hlt _ ih =>
    have hl : lo' a = lo a := hlo a (by simp)
    have hh : hi' a = hi a := hhi a (by simp)
    refine .cons (hl.trans hs) (by omega) ?_
    rw [hh]
    exact ih (fun b hb ↦ hlo b (by simp [hb])) (fun b hb ↦ hhi b (by simp [hb]))

/-- Distinct members of a tiling do not overlap. -/
theorem Tiles.pairwise (h : Tiles lo hi s l e) : l.Pairwise (fun a b ↦ hi a ≤ lo b) := by
  induction h with
  | nil => exact .nil
  | cons hs _ ht ih =>
    refine .cons (fun b hb ↦ ?_) ih
    exact (ht.bounds hb).1

/-- The lengths of a tiling add up to the length of the range. -/
theorem Tiles.sum (h : Tiles lo hi s l e) : s + (l.map (fun a ↦ hi a - lo a)).sum = e := by
  induction h with
  | nil => simp
  | cons hs hlt _ ih =>
    rw [map_cons, sum_cons]
    omega

/-- The tiling of an image. -/
theorem Tiles.map {β : Type u} {f : β → α} {l : List β}
    (h : Tiles (fun b ↦ lo (f b)) (fun b ↦ hi (f b)) s l e) : Tiles lo hi s (l.map f) e := by
  induction h with
  | nil => exact .nil _
  | cons hs hlt _ ih => exact .cons hs hlt ih

/-- A tiling covers the points of its range and no others. -/
theorem Tiles.mem_iff (h : Tiles lo hi s l e) (i : Nat) :
    (∃ a ∈ l, lo a ≤ i ∧ i < hi a) ↔ s ≤ i ∧ i < e := by
  induction h with
  | nil => simp
  | @cons s e a l hs hlt ht ih =>
    rw [exists_mem_cons_iff, ih]
    have := ht.le
    omega

/-! ### Blocks of one length -/

/-- The first `k` blocks of length `step` from `lo` on, cut off at `hi`. -/
def blocks (hi step k lo : Nat) : List (Nat × Nat) :=
  (List.range k).map fun i ↦ (lo + i * step, min (lo + i * step + step) hi)

theorem blocks_succ (hi step k lo : Nat) :
    blocks hi step (k + 1) lo = (lo, min (lo + step) hi) :: blocks hi step k (lo + step) := by
  rw [blocks, range_succ_eq_map, map_cons, map_map, Nat.zero_mul]
  congr 2
  funext i
  have : lo + (i + 1) * step = lo + step + i * step := by
    rw [Nat.succ_mul]
    omega
  rw [Function.comp_apply, this]

/-- As many blocks as reach the end of a range tile it. -/
theorem tiles_blocks {hi step k lo : Nat} (hlast : k ≠ 0 → lo + (k - 1) * step < hi)
    (hend : hi ≤ lo + k * step) (hle : lo ≤ hi) :
    Tiles Prod.fst Prod.snd lo (blocks hi step k lo) hi := by
  induction k generalizing lo with
  | zero =>
    have heq : lo = hi := by omega
    rw [heq]
    exact .nil hi
  | succ k ih =>
    rw [Nat.add_sub_cancel] at hlast
    rw [Nat.succ_mul] at hend
    rw [blocks_succ]
    cases k with
    | zero =>
      have hmin : min (lo + step) hi = hi := by omega
      rw [hmin]
      exact .cons rfl (by omega) (.nil hi)
    | succ k =>
      rw [Nat.succ_mul] at hlast
      have hmin : min (lo + step) hi = lo + step := by omega
      rw [hmin]
      have hpos : 0 < step := by
        by_contra hz
        have hz : step = 0 := by omega
        subst hz
        omega
      refine .cons rfl (by omega) (ih (fun _ ↦ ?_) (by omega) (by omega))
      rw [Nat.add_sub_cancel]
      omega

/-- No block is longer than the step. -/
theorem length_of_mem_blocks {hi step k lo : Nat} {b : Nat × Nat} (h : b ∈ blocks hi step k lo) :
    b.2 - b.1 ≤ step := by
  obtain ⟨i, -, rfl⟩ := mem_map.mp h
  omega

/-- Links between live nodes: a successor is live, points back and starts where its
predecessor ends; a predecessor is live and points forward. -/
structure Linked (live : α → Prop) (next prev : α → Option α) (lo hi : α → Nat) : Prop where
  nonempty : ∀ a, live a → lo a < hi a
  next_live : ∀ a b, live a → next a = some b → live b ∧ prev b = some a ∧ lo b = hi a
  prev_live : ∀ a b, live a → prev a = some b → live b ∧ next b = some a

/-- From a live node the links reach an end, and what they visit tiles the range between. -/
theorem Linked.exists_chain (h : Linked live next prev lo hi) {bound : Nat}
    (hb : ∀ a, live a → hi a ≤ bound) (a : α) (ha : live a) :
    ∃ l e, Chain next a l ∧ Tiles lo hi (lo a) l e ∧ (∀ b ∈ l, live b) ∧
      ∃ z ∈ l, next z = none ∧ hi z = e := by
  induction hn : bound - lo a using Nat.strong_induction_on generalizing a with
  | _ n ih =>
    have hlt := h.nonempty a ha
    cases hx : next a with
    | none =>
      exact ⟨[a], hi a, .last hx, .cons rfl hlt (.nil _), by simpa using ha, a, by simp, hx, rfl⟩
    | some b =>
      obtain ⟨hlive, _, hlo⟩ := h.next_live a b ha hx
      have hle := hb a ha
      obtain ⟨l, e, hc, ht, hl, z, hz, hzn, hze⟩ := ih (bound - lo b) (by omega) b hlive rfl
      refine ⟨a :: l, e, .link hx hc, .cons rfl hlt (hlo ▸ ht), ?_, z, by simp [hz], hzn, hze⟩
      intro c hcm
      rcases mem_cons.mp hcm with rfl | hm
      · exact ha
      · exact hl c hm

theorem Chain.head_mem {a : α} (h : Chain next a l) : a ∈ l := by cases h <;> simp

/-- A chain is closed under following links. -/
theorem Chain.next_mem {a b c : α} (h : Chain next a l) (hb : b ∈ l) (hbc : next b = some c) :
    c ∈ l := by
  induction h with
  | last hn =>
    rw [mem_singleton.mp hb, hn] at hbc
    cases hbc
  | @link x y l hx hc ih =>
    rcases mem_cons.mp hb with rfl | hm
    · rw [hx] at hbc
      cases hbc
      exact mem_cons_of_mem _ hc.head_mem
    · exact mem_cons_of_mem _ (ih hm)

/-- A live node lies on the chain of the first node reached from it backwards. -/
theorem Linked.mem_chain (h : Linked live next prev lo hi) {a : α} (hc : Chain next a l)
    (inside : α → Prop) (hin : ∀ b c, live b → inside b → prev b = some c → inside c)
    (hfirst : ∀ b, live b → inside b → prev b = none → b = a) (b : α) (hb : live b) (hbi : inside b)
    : b ∈ l := by
  induction hn : lo b using Nat.strong_induction_on generalizing b with
  | _ n ih =>
    cases hp : prev b with
    | none =>
      rw [hfirst b hb hbi hp]
      exact hc.head_mem
    | some c =>
      obtain ⟨hlive, hnext⟩ := h.prev_live b c hb hp
      obtain ⟨_, _, hlo⟩ := h.next_live c b hlive hnext
      have hlt := h.nonempty c hlive
      have hmem := ih (lo c) (by omega) c hlive (hin b c hb hbi hp) rfl
      exact hc.next_mem hmem hnext

/-- Pairwise disjoint intervals below a bound have at most that total length. -/
theorem sum_length_le {ι : Type u} (s : Finset ι) (lo len : ι → Nat) (bound : Nat)
    (hb : ∀ i ∈ s, lo i + len i ≤ bound)
    (hd : ∀ i ∈ s, ∀ j ∈ s, i ≠ j → lo i + len i ≤ lo j ∨ lo j + len j ≤ lo i) :
    ∑ i ∈ s, len i ≤ bound := by
  classical
  have hdisj : (s : Set ι).PairwiseDisjoint (fun i ↦ Finset.Ico (lo i) (lo i + len i)) := by
    intro i hi j hj hij
    rw [Function.onFun, Finset.disjoint_left]
    intro x hx hy
    rw [Finset.mem_Ico] at hx hy
    have := hd i hi j hj hij
    omega
  calc ∑ i ∈ s, len i = ∑ i ∈ s, (Finset.Ico (lo i) (lo i + len i)).card := by simp
    _ = (s.biUnion (fun i ↦ Finset.Ico (lo i) (lo i + len i))).card :=
        (Finset.card_biUnion hdisj).symm
    _ ≤ (Finset.range bound).card := by
        apply Finset.card_le_card
        intro x hx
        obtain ⟨i, hi, hxi⟩ := Finset.mem_biUnion.mp hx
        rw [Finset.mem_Ico] at hxi
        have := hb i hi
        exact Finset.mem_range.mpr (by omega)
    _ = bound := Finset.card_range bound

end Hisab.Base.Tiling
