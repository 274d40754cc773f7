import Mathlib.Data.List.MinMax
import Mathlib.Data.List.Pairwise
import Mathlib.Data.List.Sort

/-!
# Sorting by a key

A stable sort by a key keeps the order of the elements of one key.
-/

namespace Hisab.Base

open List

universe u v

variable {α : Type u} {T : Type v} [LinearOrder T] {key : α → T} {r : α → α → Prop} {l : List α}

/-- A stable sort by a key. -/
def sortBy (key : α → T) (l : List α) : List α := l.mergeSort fun a b ↦ decide (key a ≤ key b)

theorem sortBy_perm (key : α → T) (l : List α) : (sortBy key l).Perm l := mergeSort_perm ..

theorem sortBy_trans (key : α → T) (a b c : α) (hab : decide (key a ≤ key b) = true)
    (hbc : decide (key b ≤ key c) = true) : decide (key a ≤ key c) = true := by
  simp only [decide_eq_true_eq] at *
  exact hab.trans hbc

theorem sortBy_total (key : α → T) (a b : α) :
    (decide (key a ≤ key b) || decide (key b ≤ key a)) = true := by
  simp only [Bool.or_eq_true, decide_eq_true_eq]
  exact le_total (key a) (key b)

theorem pairwise_sortBy (key : α → T) (l : List α) :
    (sortBy key l).Pairwise fun a b ↦ key a ≤ key b :=
  (pairwise_mergeSort (sortBy_trans key) (sortBy_total key) l).imp of_decide_eq_true

theorem sortBy_of_pairwise (h : l.Pairwise fun a b ↦ key a ≤ key b) : sortBy key l = l :=
  mergeSort_of_pairwise (h.imp fun hab ↦ decide_eq_true hab)

theorem sublist_sortBy {l' : List α} (h : l'.Sublist l)
    (hsorted : l'.Pairwise fun a b ↦ key a ≤ key b) :
    l'.Sublist (sortBy key l) :=
  sublist_mergeSort (sortBy_trans key) (sortBy_total key)
    (hsorted.imp fun hab ↦ decide_eq_true hab) h

/-- The elements of one key stay as they are. -/
theorem filter_sortBy (key : α → T) (l : List α) (t : T) :
    (sortBy key l).filter (fun a ↦ decide (key a = t)) = l.filter fun a ↦ decide (key a = t) := by
  have hsorted : (l.filter fun a ↦ decide (key a = t)).Pairwise fun a b ↦ key a ≤ key b := by
    refine pairwise_of_forall_mem_list fun a ha b hb ↦ ?_
    have ha := of_decide_eq_true (mem_filter.mp ha).2
    have hb := of_decide_eq_true (mem_filter.mp hb).2
    exact (ha.trans hb.symm).le
  have hsub := sublist_sortBy filter_sublist hsorted
  have hsub := hsub.filter fun a ↦ decide (key a = t)
  rw [filter_filter] at hsub
  simp only [Bool.and_self] at hsub
  exact (hsub.eq_of_length ((sortBy_perm key l).filter _).length_eq.symm).symm

variable (key) in
/-- Elements of one key keep their order. -/
theorem pairwise_sortBy_of_pairwise (h : l.Pairwise r) :
    (sortBy key l).Pairwise fun a b ↦ key a < key b ∨ key a = key b ∧ r a b := by
  rw [pairwise_iff_forall_sublist]
  intro a b hab
  obtain hlt | heq := (pairwise_iff_forall_sublist.mp (pairwise_sortBy key l) hab).lt_or_eq
  · exact .inl hlt
  · refine .inr ⟨heq, ?_⟩
    have hfilter := hab.filter fun c ↦ decide (key c = key b)
    rw [filter_sortBy, filter_eq_self.mpr (by simp [heq])] at hfilter
    exact pairwise_iff_forall_sublist.mp h (hfilter.trans filter_sublist)

end Hisab.Base

/-!
## Queues with a smallest element on top

Which of several smallest elements is on top is left to the queue.
-/

namespace Hisab.Base

universe u v

/-- What is on top of a queue, told by the keys of its elements. -/
structure MinQueue (α : Type u) (T : Type v) [LinearOrder T] where
  top : (α → T) → List α → Option α
  top_mem : ∀ {key l a}, top key l = some a → a ∈ l
  top_le : ∀ {key l a}, top key l = some a → ∀ b ∈ l, key a ≤ key b
  top_none : ∀ {key l}, top key l = none → l = []

namespace MinQueue

variable {α : Type u} {T : Type v} [LinearOrder T]

/-- The queue whose top is the first of the smallest elements. -/
def first : MinQueue α T where
  top key l := l.argmin key
  top_mem h := List.argmin_mem h
  top_le h _ hb := List.le_of_mem_argmin hb h
  top_none h := List.argmin_eq_none.mp h

variable [DecidableEq α] {key : α → T} {l : List α} {n : Nat}

/-- The elements as `top` and `pop` give them, up to a number of them. -/
def drain (queue : MinQueue α T) (key : α → T) : Nat → List α → List α
  | 0, _ => []
  | n + 1, l =>
    match queue.top key l with
    | none => []
    | some a => a :: drain queue key n (l.erase a)

theorem perm_drain (queue : MinQueue α T) (h : l.length ≤ n) : (drain queue key n l).Perm l := by
  induction n generalizing l with
  | zero =>
    obtain rfl : l = [] := List.length_eq_zero_iff.mp (Nat.le_zero.mp h)
    exact .nil
  | succ n ih =>
    rw [drain]
    cases ha : queue.top key l with
    | none => rw [queue.top_none ha]
    | some a =>
      have hmem := queue.top_mem ha
      have hlen := List.length_erase_of_mem hmem
      exact ((ih (by omega)).cons a).trans (List.perm_cons_erase hmem).symm

theorem mem_of_mem_drain (queue : MinQueue α T) {b : α} (h : b ∈ drain queue key n l) : b ∈ l := by
  induction n generalizing l with
  | zero => cases h
  | succ n ih =>
    rw [drain] at h
    cases ha : queue.top key l with
    | none =>
      rw [ha] at h
      cases h
    | some a =>
      rw [ha] at h
      obtain rfl | h := List.mem_cons.mp h
      · exact queue.top_mem ha
      · exact List.mem_of_mem_erase (ih h)

theorem pairwise_drain (queue : MinQueue α T) (key : α → T) (n : Nat) (l : List α) :
    (drain queue key n l).Pairwise fun a b ↦ key a ≤ key b := by
  induction n generalizing l with
  | zero => exact .nil
  | succ n ih =>
    rw [drain]
    cases ha : queue.top key l with
    | none => exact .nil
    | some a =>
      refine List.pairwise_cons.mpr ⟨fun b hb ↦ ?_, ih _⟩
      exact queue.top_le ha b (List.mem_of_mem_erase (queue.mem_of_mem_drain hb))

end MinQueue

variable {α : Type u} {T : Type v} [LinearOrder T] {key : α → T} {l : List α}
  {before : α → α → Prop}

/-- Of two elements of a sorted list the one with the smaller key comes first. So nothing comes
too late exactly when the key agrees with what has to come before. -/
theorem pairwise_not_before_iff (hl : l.Pairwise fun a b ↦ key a ≤ key b)
    (hinj : ∀ a ∈ l, ∀ b ∈ l, key a = key b → a = b) (hirrefl : ∀ a, ¬ before a a) :
    (l.Pairwise fun a b ↦ ¬ before b a) ↔ ∀ a ∈ l, ∀ b ∈ l, before a b → key a < key b := by
  constructor
  · intro h a ha b hb hab
    have hne : a ≠ b := fun heq ↦ hirrefl b (heq ▸ hab)
    let r a b := key a ≤ key b ∧ ¬ before b a
    have hsymm : Std.Symm fun a b ↦ r a b ∨ r b a := ⟨fun _ _ ↦ Or.symm⟩
    have hboth : l.Pairwise fun a b ↦ r a b ∨ r b a := (hl.and h).imp .inl
    obtain ⟨hle, -⟩ | ⟨-, hnot⟩ := hboth.forall ha hb hne
    · exact lt_of_le_of_ne hle fun heq ↦ hne (hinj a ha b hb heq)
    · exact absurd hab hnot
  · intro h
    refine hl.imp_of_mem fun {a b} ha hb hle hba ↦ ?_
    exact (h b hb a ha hba).not_ge hle

/-- What is within the first elements is not behind what is not. -/
theorem pairwise_iff_take_drop : (l.Pairwise fun a b ↦ ¬ before b a) ↔
    ∀ k, 0 < k → ∀ a ∈ l.take k, ∀ b ∈ l.drop k, ¬ before b a := by
  constructor
  · intro h k _ a ha b hb
    rw [← List.take_append_drop k l] at h
    exact (List.pairwise_append.mp h).2.2 a ha b hb
  · intro h
    rw [List.pairwise_iff_getElem]
    intro i j hi hj hij
    refine h (i + 1) i.succ_pos _ ?_ _ ?_
    · exact List.mem_take_iff_getElem.mpr ⟨i, by omega, rfl⟩
    · exact List.mem_drop_iff_getElem.mpr ⟨j - (i + 1), by omega, by congr 1; omega⟩

end Hisab.Base

/-!
## Selection

A list is partitioned at a place when nothing before it is larger and nothing after it smaller.
What stands there then is what stands there when the list is sorted.
-/

namespace Hisab.Base

universe u

/-- What `std::nth_element` does to a list: it is partitioned at the place. -/
structure NthElement (α : Type u) [LinearOrder α] where
  rearrange : Nat → List α → List α
  perm : ∀ n l, (rearrange n l).Perm l
  le : ∀ {n i j : Nat} {l : List α} {a b : α}, i ≤ n → n ≤ j →
    (rearrange n l)[i]? = some a → (rearrange n l)[j]? = some b → a ≤ b

namespace NthElement

variable {α : Type u} [LinearOrder α] {n : Nat} {l l' : List α} {a : α}

theorem pairwise_sort (l : List α) : (sortBy id l).Pairwise (· ≤ ·) := pairwise_sortBy id l

theorem le_of_sorted {i j : Nat} {b : α} (h : i ≤ j) (ha : (sortBy id l)[i]? = some a)
    (hb : (sortBy id l)[j]? = some b) : a ≤ b := by
  obtain ⟨hil, rfl⟩ := getElem?_eq_some_iff.mp ha
  obtain ⟨hjl, rfl⟩ := getElem?_eq_some_iff.mp hb
  obtain rfl | hlt := h.eq_or_lt
  · exact le_rfl
  · exact List.pairwise_iff_getElem.mp (pairwise_sortBy id l) i j hil hjl hlt

/-- Sorting the whole list partitions it at every place. -/
def sorting : NthElement α where
  rearrange _ l := sortBy id l
  perm _ l := sortBy_perm id l
  le hi hj ha hb := le_of_sorted (hi.trans hj) ha hb

/-- The sorted list of given elements is unique. -/
theorem sort_eq (h : l'.Perm l) (hl : l'.Pairwise (· ≤ ·)) : sortBy id l = l' :=
  ((sortBy_perm id l).trans h.symm).eq_of_pairwise' (pairwise_sort l) hl

theorem sort_congr (h : l.Perm l') : sortBy id l = sortBy id l' :=
  sort_eq ((sortBy_perm id l').trans h.symm) (pairwise_sort l')

/-- The two sides of a place, each sorted, with the place between them. -/
theorem sort_split (left right : List α) (hl : ∀ b ∈ left, b ≤ a) (hr : ∀ b ∈ right, a ≤ b) :
    sortBy id (left ++ a :: right) = sortBy id left ++ a :: sortBy id right := by
  have hleft : ∀ b ∈ sortBy id left, b ≤ a := fun b hb ↦ hl b ((sortBy_perm id left).mem_iff.mp hb)
  have hright : ∀ b ∈ sortBy id right, a ≤ b :=
    fun b hb ↦ hr b ((sortBy_perm id right).mem_iff.mp hb)
  refine sort_eq ((sortBy_perm id left).append ((sortBy_perm id right).cons a)) ?_
  refine List.pairwise_append.mpr ⟨pairwise_sort left, ?_, ?_⟩
  · exact List.pairwise_cons.mpr ⟨hright, pairwise_sort right⟩
  · intro b hb c hc
    obtain rfl | hc := List.mem_cons.mp hc
    · exact hleft b hb
    · exact (hleft b hb).trans (hright c hc)

/-- The selected element is the one that sorting puts at the place. -/
theorem getElem?_rearrange (q : NthElement α) (n : Nat) (l : List α) :
    (q.rearrange n l)[n]? = (sortBy id l)[n]? := by
  rw [sort_congr (q.perm n l).symm]
  obtain hn | hn := lt_or_ge n (q.rearrange n l).length
  · have hsplit : (q.rearrange n l).take n ++ (q.rearrange n l)[n] ::
        (q.rearrange n l).drop (n + 1) = q.rearrange n l := by
      rw [← List.drop_eq_getElem_cons hn, List.take_append_drop]
    have hbefore : ∀ b ∈ (q.rearrange n l).take n, b ≤ (q.rearrange n l)[n] := by
      intro b hb
      obtain ⟨i, hi, rfl⟩ := List.mem_take_iff_getElem.mp hb
      have hin : i < n ∧ i < (q.rearrange n l).length := lt_min_iff.mp hi
      exact q.le hin.1.le le_rfl (List.getElem?_eq_getElem hin.2) (List.getElem?_eq_getElem hn)
    have hafter : ∀ b ∈ (q.rearrange n l).drop (n + 1), (q.rearrange n l)[n] ≤ b := by
      intro b hb
      obtain ⟨j, hj, rfl⟩ := List.mem_drop_iff_getElem.mp hb
      have hle : n ≤ n + 1 + j := by omega
      have hlt : n + 1 + j < (q.rearrange n l).length := by omega
      exact q.le le_rfl hle (List.getElem?_eq_getElem hn) (List.getElem?_eq_getElem hlt)
    have hlen : (sortBy id ((q.rearrange n l).take n)).length = n := by
      rw [(sortBy_perm id _).length_eq, List.length_take, Nat.min_eq_left hn.le]
    have hsort := sort_split _ _ hbefore hafter
    rw [hsplit] at hsort
    rw [hsort, List.getElem?_append_right hlen.le, hlen, Nat.sub_self, List.getElem?_cons_zero,
      List.getElem?_eq_getElem hn]
  · have hlen := (sortBy_perm id (q.rearrange n l)).length_eq
    rw [List.getElem?_eq_none hn, List.getElem?_eq_none (hlen ▸ hn)]

end NthElement
end Hisab.Base
