import Mathlib.Data.List.Perm.Basic
import Mathlib.Data.List.Sort

/-!
# Lists of entries with distinct keys

Looking an entry up by its key, changing it in its place, putting a new one at the end, and going
through the entries key by key.
-/

namespace Hisab.Base

open List

universe u v

variable {α : Type u} {K : Type v} [DecidableEq K] {key : α → K} {l : List α} {a : α} {i : Nat}
  {f : α → α} {k : K}

/-- The first entry with a key. -/
def findKey (key : α → K) (k : K) (l : List α) : Option α := l.find? fun a ↦ decide (key a = k)

theorem findKey_append (l l' : List α) :
    findKey key k (l ++ l') = (findKey key k l).or (findKey key k l') := find?_append

theorem findKey_cons (a : α) (l : List α) :
    findKey key k (a :: l) = if key a = k then some a else findKey key k l := by
  rw [findKey, find?_cons]
  split
  next h => rw [if_pos (of_decide_eq_true h)]
  next h => rw [if_neg (of_decide_eq_false h)]; rfl

theorem findKey_eq_none (h : k ∉ l.map key) : findKey key k l = none := by
  rw [findKey, find?_eq_none]
  intro a ha hk
  exact h (mem_map.mpr ⟨a, ha, of_decide_eq_true hk⟩)

theorem key_of_findKey (h : findKey key k l = some a) : a ∈ l ∧ key a = k := by
  have hk := find?_some h
  exact ⟨mem_of_find?_eq_some h, of_decide_eq_true hk⟩

/-- An entry is what is found under its key. -/
theorem findKey_of_mem (hnodup : (l.map key).Nodup) (ha : a ∈ l) :
    findKey key (key a) l = some a := by
  obtain ⟨front, back, rfl⟩ := append_of_mem ha
  rw [map_append, map_cons, nodup_middle] at hnodup
  have hfront : key a ∉ front.map key := fun h ↦ (nodup_cons.mp hnodup).1 (mem_append_left _ h)
  rw [findKey_append, findKey_eq_none hfront, Option.none_or, findKey_cons, if_pos rfl]

/-- A new entry at the end. -/
theorem findKey_concat (h : key a ∉ l.map key) (k : K) :
    findKey key k (l ++ [a]) = if key a = k then some a else findKey key k l := by
  rw [findKey_append, findKey_cons]
  split
  next heq => rw [← heq, findKey_eq_none h, Option.none_or]
  next => exact Option.or_none ..

omit [DecidableEq K] in
theorem map_key_modify (hf : ∀ a, key (f a) = key a) : (l.modify i f).map key = l.map key := by
  induction l generalizing i with
  | nil => simp
  | cons a l ih =>
    cases i with
    | zero => simp [hf]
    | succ i => simpa using ih

/-- An entry is changed in its place. -/
theorem findKey_modify (hnodup : (l.map key).Nodup) (ha : l[i]? = some a)
    (hf : ∀ a, key (f a) = key a) (k : K) : findKey key k (l.modify i f) =
      if key a = k then (findKey key k l).map f else findKey key k l := by
  induction l generalizing i with
  | nil => cases ha
  | cons b l ih =>
    cases i with
    | zero =>
      obtain rfl : b = a := by simpa using ha
      rw [modify_zero_cons, findKey_cons, findKey_cons, hf]
      split
      next => rfl
      next => rfl
    | succ i =>
      obtain ⟨hb, hnodup⟩ := nodup_cons.mp hnodup
      rw [modify_succ_cons, findKey_cons, findKey_cons, ih hnodup ha]
      by_cases hbk : key b = k
      · have hne : key a ≠ k := fun h ↦ hb (hbk.trans h.symm ▸ mem_map_of_mem (mem_of_getElem? ha))
        rw [if_pos hbk, if_neg hne, if_pos hbk]
      · rw [if_neg hbk, if_neg hbk]

/-- The entries under other keys, and the one that is found. -/
theorem perm_cons_filter_ne (hnodup : (l.map key).Nodup) (h : findKey key k l = some a) :
    l.Perm (a :: l.filter fun b ↦ key b ≠ k) := by
  obtain ⟨hmem, rfl⟩ := key_of_findKey h
  obtain ⟨front, back, rfl⟩ := append_of_mem hmem
  rw [map_append, map_cons, nodup_middle, nodup_cons, ← map_append] at hnodup
  have hne : ∀ b ∈ front ++ back, key b ≠ key a := fun b hb heq ↦ hnodup.1 (heq ▸ mem_map_of_mem hb)
  have hfilter : ((front ++ back).filter fun b ↦ key b ≠ key a) = front ++ back :=
    filter_eq_self.mpr fun b hb ↦ by simpa using hne b hb
  rw [filter_append, filter_cons_of_neg (by simp), ← filter_append, hfilter]
  exact perm_middle

theorem filter_ne_eq_self (h : findKey key k l = none) : (l.filter fun b ↦ key b ≠ k) = l := by
  apply filter_eq_self.mpr
  intro b hb
  have hne := find?_eq_none.mp h b hb
  simpa using hne

/-- A list, key by key. -/
theorem perm_flatMap_filter {keys : List K} (hnodup : keys.Nodup) (h : ∀ a ∈ l, key a ∈ keys) :
    (keys.flatMap fun k ↦ l.filter fun a ↦ key a = k).Perm l := by
  induction l with
  | nil => rw [flatMap_eq_nil_iff.mpr fun k _ ↦ filter_nil]
  | cons a l ih =>
    obtain ⟨front, back, rfl⟩ := append_of_mem (h a mem_cons_self)
    have hne : ∀ k ∈ front ++ back, key a ≠ k := by
      rintro _ hmem rfl
      exact (nodup_cons.mp (nodup_middle.mp hnodup)).1 hmem
    have hother : ∀ ks : List K, (∀ k ∈ ks, k ∈ front ++ back) →
        (ks.flatMap fun k ↦ (a :: l).filter fun a ↦ key a = k) =
          ks.flatMap fun k ↦ l.filter fun a ↦ key a = k := fun ks hks ↦
      flatMap_congr fun k hk ↦ by rw [filter_cons_of_neg (by simpa using hne k (hks k hk))]
    have ih := ih fun b hb ↦ h b (mem_cons_of_mem _ hb)
    rw [flatMap_append, flatMap_cons] at ih ⊢
    rw [hother front fun k hk ↦ mem_append_left _ hk, hother back fun k hk ↦ mem_append_right _ hk,
      filter_cons_of_pos (by simp)]
    exact perm_middle.trans (ih.cons a)
end Hisab.Base

/-!
## `std::set` over a comparator

A set ordered by a strict comparator `lt` is the list its iteration visits. Two elements
the comparator does not separate are equivalent: inserting an equivalent element changes
nothing, and erasing a key removes its equivalent element. The laws are permutation laws,
so membership, multiplicity and sums follow from them without the order.
-/

namespace Hisab.Base.OrderedSet

universe u

variable {α : Type u} {lt : α → α → Bool} {l : List α} {before : α → Bool}

/-- Neither element precedes the other. -/
def equiv (lt : α → α → Bool) (a b : α) : Bool := !lt a b && !lt b a

/-- `std::set::insert`. -/
def insert (lt : α → α → Bool) (a : α) (l : List α) : List α :=
  if l.any (equiv lt a) then l else l.orderedInsert (fun x y ↦ lt x y = true) a

/-- `std::set::erase` by key. -/
def erase (lt : α → α → Bool) (a : α) (l : List α) : List α := l.eraseP (equiv lt a)

/-- `std::set::lower_bound`: the first element that is not before the key. -/
def lowerBound (before : α → Bool) (l : List α) : Option α := l.find? (fun b ↦ !before b)

theorem insert_perm {a : α} (h : ∀ b ∈ l, equiv lt a b = false) :
    (insert lt a l).Perm (a :: l) := by
  have hn : l.any (equiv lt a) = false := by simpa using h
  rw [insert, hn]
  exact List.perm_orderedInsert _ a l

theorem mem_insert {a b : α} (h : ∀ c, equiv lt a c = true → c = a) :
    b ∈ insert lt a l ↔ b = a ∨ b ∈ l := by
  unfold insert
  split
  · next hany =>
    obtain ⟨c, hc, he⟩ := List.any_eq_true.mp hany
    rw [h c he] at hc
    exact ⟨.inr, fun hb ↦ hb.elim (fun hb ↦ hb ▸ hc) id⟩
  · rw [List.mem_orderedInsert]

/-- Nothing else comes in, whatever the comparator. -/
theorem mem_of_mem_insert {a b : α} (h : b ∈ insert lt a l) : b = a ∨ b ∈ l := by
  unfold insert at h
  split at h
  · exact .inr h
  · rw [List.mem_orderedInsert] at h
    exact h

theorem erase_perm {a : α} (ha : a ∈ l) (hirr : lt a a = false)
    (h : ∀ b ∈ l, equiv lt a b = true → b = a) : l.Perm (a :: erase lt a l) := by
  have hself : equiv lt a a = true := by simp [equiv, hirr]
  obtain ⟨b, l₁, l₂, hl₁, hb, hl, he⟩ := List.exists_of_eraseP ha hself
  have hba : b = a := h b (by rw [hl]; simp) hb
  rw [erase, he, hl, hba]
  exact List.perm_middle

theorem mem_of_lowerBound {b : α} (h : lowerBound before l = some b) :
    b ∈ l := List.mem_of_find?_eq_some h

theorem not_before_of_lowerBound {b : α} (h : lowerBound before l = some b) : before b = false := by
  simpa using List.find?_some h

/-! ### Order

For a comparator that is transitive and separates the elements the list is strictly ascending. -/

theorem insert_pairwise (htrans : ∀ a b c, lt a b = true → lt b c = true → lt a c = true) {a : α}
    (hl : l.Pairwise (fun x y ↦ lt x y = true)) :
    (insert lt a l).Pairwise (fun x y ↦ lt x y = true) := by
  unfold insert
  split
  · exact hl
  · next hany =>
    have hcomp (b : α) (hb : b ∈ l) : lt a b = true ∨ lt b a = true := by
      by_contra hc
      rw [not_or] at hc
      exact hany (List.any_eq_true.mpr ⟨b, hb, by simp [equiv, hc.1, hc.2]⟩)
    clear hany
    induction l with
    | nil => exact List.pairwise_singleton _ _
    | cons b l ih =>
      obtain ⟨hb, hl'⟩ := List.pairwise_cons.mp hl
      rw [List.orderedInsert_cons]
      split
      · next hab =>
        refine List.pairwise_cons.mpr ⟨fun c hc ↦ ?_, hl⟩
        rcases List.mem_cons.mp hc with rfl | hc
        · exact hab
        · exact htrans a b c hab (hb c hc)
      · next hab =>
        refine List.pairwise_cons.mpr ⟨fun c hc ↦ ?_,
          ih hl' (fun c hc ↦ hcomp c (List.mem_cons_of_mem b hc))⟩
        rcases (List.mem_orderedInsert _).mp hc with rfl | hc
        · exact (hcomp b List.mem_cons_self).resolve_left hab
        · exact hb c hc

theorem erase_sublist (lt : α → α → Bool) (a : α) (l : List α) : (erase lt a l).Sublist l :=
  List.eraseP_sublist

/-- The lower bound precedes every other element that is not before the key. -/
theorem lowerBound_least {b : α} (hl : l.Pairwise (fun x y ↦ lt x y = true))
    (h : lowerBound before l = some b) {c : α} (hc : c ∈ l) (hbefore : before c = false) :
    c = b ∨ lt b c = true := by
  induction l with
  | nil => cases hc
  | cons x l ih =>
    obtain ⟨hx, hl'⟩ := List.pairwise_cons.mp hl
    unfold lowerBound at h
    rw [List.find?_cons] at h
    cases hbx : before x with
    | true =>
      rw [hbx] at h
      rcases List.mem_cons.mp hc with rfl | hc
      · rw [hbx] at hbefore
        cases hbefore
      · exact ih hl' h hc
    | false =>
      rw [hbx] at h
      cases h
      rcases List.mem_cons.mp hc with rfl | hc
      · exact .inl rfl
      · exact .inr (hx c hc)

theorem before_of_lowerBound_none (h : lowerBound before l = none) {c : α} (hc : c ∈ l) :
    before c = true := by
  have hf := List.find?_eq_none.mp h c hc
  simpa using hf

end Hisab.Base.OrderedSet
