import Mathlib.Algebra.BigOperators.Group.List.Basic
import Mathlib.Data.List.Sort

/-!
# Dictionaries in insertion order

A dictionary is the list of its entries. `set` replaces the value of a key that is there, in its
place, and `setDefault` keeps it. Filled entry by entry, the first one shows the last value
written under a key and the second one the first.
-/

namespace Hisab.Base.Dict

open List

universe u v

variable {K : Type u} {V : Type v} [BEq K]

/-- `dict[key] = value`. -/
def set (d : List (K × V)) (key : K) (value : V) : List (K × V) :=
  match d with
  | [] => [(key, value)]
  | (k, v) :: d => if k == key then (key, value) :: d else (k, v) :: set d key value

/-- `if key not in dict: dict[key] = value`. -/
def setDefault (d : List (K × V)) (key : K) (value : V) : List (K × V) :=
  if (d.lookup key).isSome then d else d ++ [(key, value)]

variable [LawfulBEq K] {d : List (K × V)} {key k : K} {value v : V}

theorem lookup_cons (entry : K × V) (d : List (K × V)) (k : K) :
    (entry :: d).lookup k = if entry.1 == k then some entry.2 else d.lookup k := by
  rw [List.lookup_cons, BEq.comm]
  split
  · next h => rw [if_pos h]
  · next h => rw [if_neg (by simp [h])]

/-- A write shows under its own key only. -/
theorem lookup_set (d : List (K × V)) (key : K) (value : V) (k : K) :
    (set d key value).lookup k = if key == k then some value else d.lookup k := by
  induction d with
  | nil => rw [set, lookup_cons]
  | cons entry d ih =>
    rw [set]
    split
    · next h =>
      rw [lookup_cons, lookup_cons, eq_of_beq h]
      split
      · rfl
      · rfl
    · next h =>
      rw [lookup_cons, ih, lookup_cons]
      by_cases hk : entry.1 = k
      · subst hk
        have hne : (key == entry.1) = false := by
          rw [BEq.comm]
          exact Bool.eq_false_iff.mpr h
        simp [hne]
      · simp [hk]

/-- Of two writes to one key the second stays. -/
theorem set_set (d : List (K × V)) (key : K) (value value' : V) :
    set (set d key value) key value' = set d key value' := by
  induction d with
  | nil => rw [set, set, set, if_pos (beq_self_eq_true key)]
  | cons entry d ih =>
    rw [set]
    split
    · next h => rw [set, set, if_pos h, if_pos (beq_self_eq_true key)]
    · next h => rw [set, set, if_neg h, if_neg h, ih]

omit [LawfulBEq K] in
/-- A write and a change of all values. -/
theorem map_set {W : Type*} (f : V → W) (d : List (K × V)) (key : K) (value : V) :
    (set d key value).map (fun entry ↦ (entry.1, f entry.2)) =
      set (d.map fun entry ↦ (entry.1, f entry.2)) key (f value) := by
  induction d with
  | nil => rfl
  | cons entry d ih =>
    rw [map_cons, set, set]
    split
    · rfl
    · rw [map_cons, ih]

theorem lookup_map {W : Type*} (f : V → W) (d : List (K × V)) (k : K) :
    (d.map fun entry ↦ (entry.1, f entry.2)).lookup k = (d.lookup k).map f := by
  induction d with
  | nil => rfl
  | cons entry d ih =>
    rw [map_cons, lookup_cons, lookup_cons, ih]
    split
    · rfl
    · rfl

theorem lookup_setDefault (d : List (K × V)) (key : K) (value : V) (k : K) :
    (setDefault d key value).lookup k =
      (d.lookup k).or (if key == k then some value else none) := by
  rw [setDefault]
  split
  · next h =>
    split
    · next hk =>
      obtain rfl := eq_of_beq hk
      cases hd : d.lookup key with
      | none => simp [hd] at h
      | some v => rfl
    · exact (Option.or_none ..).symm
  · rw [lookup_append, lookup_cons, lookup_nil]

/-- Writing entry by entry, the last write of a key stays. -/
theorem lookup_foldl_set (entries d : List (K × V)) (k : K) :
    (entries.foldl (fun d entry ↦ set d entry.1 entry.2) d).lookup k =
      (entries.reverse.lookup k).or (d.lookup k) := by
  induction entries generalizing d with
  | nil => rfl
  | cons entry entries ih =>
    rw [foldl_cons, ih, lookup_set, reverse_cons, lookup_append, lookup_cons, Option.or_assoc]
    split
    · rfl
    · rfl

/-- Writing entry by entry without replacing, the first write of a key stays. -/
theorem lookup_foldl_setDefault (entries d : List (K × V)) (k : K) :
    (entries.foldl (fun d entry ↦ setDefault d entry.1 entry.2) d).lookup k =
      (d.lookup k).or (entries.lookup k) := by
  induction entries generalizing d with
  | nil => exact (Option.or_none ..).symm
  | cons entry entries ih =>
    rw [foldl_cons, ih, lookup_setDefault, lookup_cons, Option.or_assoc]
    split
    · rfl
    · rfl

/-! ### Keys -/

theorem mem_of_lookup (h : d.lookup k = some v) : (k, v) ∈ d := by
  induction d with
  | nil => cases h
  | cons entry d ih =>
    rw [lookup_cons] at h
    split at h
    · next hk =>
      obtain rfl := eq_of_beq hk
      cases h
      exact mem_cons_self
    · exact mem_cons_of_mem _ (ih h)

theorem lookup_eq_none_iff : d.lookup k = none ↔ k ∉ d.map Prod.fst := by
  induction d with
  | nil => simp
  | cons entry d ih =>
    rw [lookup_cons]
    by_cases hk : entry.1 = k
    · simp [hk]
    · simp [hk, ih, Ne.symm hk]

theorem mem_keys_iff : k ∈ d.map Prod.fst ↔ (d.lookup k).isSome := by
  rw [← Option.not_isNone, Bool.not_eq_true', ← Bool.not_eq_true, Option.isNone_iff_eq_none,
    lookup_eq_none_iff, not_not]

/-- With distinct keys every entry is found. -/
theorem lookup_of_mem (hd : (d.map Prod.fst).Nodup) (h : (k, v) ∈ d) : d.lookup k = some v := by
  induction d with
  | nil => cases h
  | cons entry d ih =>
    rw [map_cons, nodup_cons] at hd
    rw [lookup_cons]
    cases mem_cons.mp h with
    | inl h => simp [← h]
    | inr h =>
      have hne : entry.1 ≠ k := by
        intro he
        apply hd.1
        rw [he]
        exact mem_map.mpr ⟨_, h, rfl⟩
      rw [if_neg (by simpa using hne)]
      exact ih hd.2 h

theorem nodup_set (hd : (d.map Prod.fst).Nodup) : ((set d key value).map Prod.fst).Nodup := by
  induction d with
  | nil => simp [set]
  | cons entry d ih =>
    rw [map_cons, nodup_cons] at hd
    rw [set]
    split
    · next h =>
      rw [map_cons, nodup_cons, ← eq_of_beq h]
      exact hd
    · next h =>
      rw [map_cons, nodup_cons]
      constructor
      · have hne : ¬ (key == entry.1) = true := by
          rw [BEq.comm]
          exact h
        rw [← lookup_eq_none_iff, lookup_set, if_neg hne, lookup_eq_none_iff]
        exact hd.1
      · exact ih hd.2

theorem nodup_setDefault (hd : (d.map Prod.fst).Nodup) :
    ((setDefault d key value).map Prod.fst).Nodup := by
  rw [setDefault]
  split
  · exact hd
  · next h =>
    have hkey : key ∉ d.map Prod.fst := by
      rw [← lookup_eq_none_iff, ← Option.not_isSome_iff_eq_none]
      exact h
    rw [map_append]
    apply hd.append (nodup_singleton _)
    intro k hk hk'
    obtain rfl : k = key := by simpa using hk'
    exact hkey hk

omit [BEq K] [LawfulBEq K] in
theorem nodup_foldl {α : Type*} {step : List (K × V) → α → List (K × V)}
    (hstep : ∀ d a, (d.map Prod.fst).Nodup → ((step d a).map Prod.fst).Nodup) (l : List α)
    (hd : (d.map Prod.fst).Nodup) : ((l.foldl step d).map Prod.fst).Nodup := by
  induction l generalizing d with
  | nil => exact hd
  | cons a l ih => exact ih (hstep d a hd)

end Hisab.Base.Dict

/-!
## Maps in the order of their keys

A map is the list of its entries with strictly increasing keys. `alter` is the one operation: it
gives the value at a key a new value, made from the old one if there is one. Filled from a list of
items, a map holds at each key what the items of that key make of it, in their order.
-/

namespace Hisab.Base.SortedMap

universe u v w

variable {K : Type u} {V : Type v} {E : Type w} [LinearOrder K]

/-- The keys increase strictly. -/
def Sorted (m : List (K × V)) : Prop := (m.map Prod.fst).Pairwise (· < ·)

/-- `f(map[key])`, where `f` sees whether the key is there. -/
def alter (f : Option V → V) (key : K) : List (K × V) → List (K × V)
  | [] => [(key, f none)]
  | (k, v) :: m =>
    if key < k then (key, f none) :: (k, v) :: m
    else if key = k then (key, f (some v)) :: m
    else (k, v) :: alter f key m

/-- The map that the items make, one after another. -/
def fill (key : E → K) (g : Option V → E → V) (m : List (K × V)) (items : List E) :
    List (K × V) := items.foldl (fun m e ↦ alter (fun v? ↦ g v? e) (key e) m) m

variable {m : List (K × V)} {key k : K} {f : Option V → V} {v : V}

theorem Sorted.nodup (h : Sorted m) : (m.map Prod.fst).Nodup := h.imp ne_of_lt

theorem sorted_nil : Sorted ([] : List (K × V)) := .nil

theorem Sorted.tail {e : K × V} (h : Sorted (e :: m)) : Sorted m := (List.pairwise_cons.mp h).2

/-- A key below all others is not there. -/
theorem lookup_none_of_lt (h : ∀ e ∈ m, k < e.1) : m.lookup k = none := by
  rw [Dict.lookup_eq_none_iff, List.mem_map]
  rintro ⟨e, he, rfl⟩
  exact lt_irrefl _ (h e he)

theorem Sorted.lt_of_mem {e d : K × V} (h : Sorted (e :: m)) (hd : d ∈ m) : e.1 < d.1 :=
  (List.pairwise_cons.mp h).1 d.1 (List.mem_map_of_mem hd)

/-- The keys are the old ones and the one that is written. -/
theorem mem_keys_alter : k ∈ (alter f key m).map Prod.fst ↔ k = key ∨ k ∈ m.map Prod.fst := by
  induction m with
  | nil => simp [alter]
  | cons e m ih =>
    rw [alter]
    split
    · simp
    · split
      · next he => simp [he]
      · rw [List.map_cons, List.mem_cons, ih, List.map_cons, List.mem_cons]
        exact or_left_comm

theorem Sorted.alter (h : Sorted m) : Sorted (alter f key m) := by
  induction m with
  | nil => simp [SortedMap.alter, Sorted]
  | cons e m ih =>
    rw [SortedMap.alter]
    split
    · next hlt =>
      apply List.pairwise_cons.mpr
      refine ⟨fun k hk ↦ ?_, h⟩
      rcases List.mem_cons.mp hk with rfl | hk
      · exact hlt
      · obtain ⟨d, hd, rfl⟩ := List.mem_map.mp hk
        exact hlt.trans (h.lt_of_mem hd)
    · next hle =>
      split
      · next he =>
        rw [he]
        exact h
      · next hne =>
        apply List.pairwise_cons.mpr
        refine ⟨fun k hk ↦ ?_, ih h.tail⟩
        rcases mem_keys_alter.mp hk with rfl | hk
        · exact lt_of_le_of_ne (not_lt.mp hle) (Ne.symm hne)
        · obtain ⟨d, hd, rfl⟩ := List.mem_map.mp hk
          exact h.lt_of_mem hd

/-- An entry is an old one or the one that is written. -/
theorem mem_alter {e : K × V} (h : e ∈ alter f key m) :
    e ∈ m ∨ e = (key, f none) ∨ ∃ v, (key, v) ∈ m ∧ e = (key, f (some v)) := by
  induction m with
  | nil => exact .inr (.inl (List.mem_singleton.mp h))
  | cons d m ih =>
    rw [alter] at h
    split at h
    · obtain rfl | h := List.mem_cons.mp h
      · exact .inr (.inl rfl)
      · exact .inl h
    · split at h
      · next hd =>
        obtain rfl | h := List.mem_cons.mp h
        · exact .inr (.inr ⟨d.2, hd ▸ List.mem_cons_self, rfl⟩)
        · exact .inl (List.mem_cons_of_mem _ h)
      · obtain rfl | h := List.mem_cons.mp h
        · exact .inl List.mem_cons_self
        · obtain h | h | ⟨v, hv, h⟩ := ih h
          · exact .inl (List.mem_cons_of_mem _ h)
          · exact .inr (.inl h)
          · exact .inr (.inr ⟨v, List.mem_cons_of_mem _ hv, h⟩)

/-- A write shows under its own key only. -/
theorem Sorted.lookup_alter (h : Sorted m) :
    (SortedMap.alter f key m).lookup k = if key = k then some (f (m.lookup key)) else m.lookup k := by
  induction m with
  | nil =>
    rw [SortedMap.alter, Dict.lookup_cons]
    simp
  | cons e m ih =>
    rw [SortedMap.alter]
    split
    · next hlt =>
      have hnone : (e :: m).lookup key = none := by
        apply lookup_none_of_lt
        intro d hd
        rcases List.mem_cons.mp hd with rfl | hd
        · exact hlt
        · exact hlt.trans (h.lt_of_mem hd)
      rw [Dict.lookup_cons, hnone]
      simp
    · split
      · next he =>
        rw [Dict.lookup_cons, Dict.lookup_cons, Dict.lookup_cons]
        subst he
        by_cases hk : e.1 = k
        · simp [hk]
        · simp [hk]
      · next hne =>
        rw [Dict.lookup_cons, ih h.tail, Dict.lookup_cons, Dict.lookup_cons]
        by_cases hk : e.1 = k
        · subst hk
          simp [hne]
        · simp [hk, Ne.symm hne]

theorem Sorted.fill (h : Sorted m) (key : E → K) (g : Option V → E → V) (items : List E) :
    Sorted (fill key g m items) := by
  induction items generalizing m with
  | nil => exact h
  | cons e items ih => exact ih h.alter

/-- At each key the map holds what the items of that key have made. -/
theorem Sorted.lookup_fill (h : Sorted m) (key : E → K) (g : Option V → E → V) (items : List E)
    (k : K) : (SortedMap.fill key g m items).lookup k =
      (items.filter fun e ↦ key e = k).foldl (fun v? e ↦ some (g v? e)) (m.lookup k) := by
  induction items generalizing m with
  | nil => rfl
  | cons e items ih =>
    change (SortedMap.fill key g (SortedMap.alter (fun v? ↦ g v? e) (key e) m) items).lookup k = _
    rw [ih h.alter, h.lookup_alter]
    by_cases hk : key e = k
    · subst hk
      simp
    · simp [hk]

/-- The keys are those of the items and those that were there. -/
theorem mem_keys_fill (key : E → K) (g : Option V → E → V) (items : List E) :
    k ∈ (fill key g m items).map Prod.fst ↔ k ∈ items.map key ∨ k ∈ m.map Prod.fst := by
  induction items generalizing m with
  | nil => simp [fill]
  | cons e items ih =>
    change k ∈ (fill key g (alter (fun v? ↦ g v? e) (key e) m) items).map Prod.fst ↔ _
    rw [ih, mem_keys_alter, List.map_cons, List.mem_cons]
    exact or_left_comm.trans or_assoc.symm

/-- In a map the entry at a key is what `lookup` finds. -/
theorem Sorted.mem_iff (h : Sorted m) : (k, v) ∈ m ↔ m.lookup k = some v :=
  ⟨Dict.lookup_of_mem h.nodup, Dict.mem_of_lookup⟩

section Sums

variable {M : Type v} [AddCommMonoid M] {sums : List (K × M)}

/-- `map[key(item)] += f(item)`, item by item. -/
def addUp (key : E → K) (f : E → M) (sums : List (K × M)) (items : List E) : List (K × M) :=
  fill key (fun v? e ↦ v?.getD 0 + f e) sums items

theorem sum_alter (key : K) (x : M) (sums : List (K × M)) :
    ((alter (fun v? ↦ v?.getD 0 + x) key sums).map Prod.snd).sum = (sums.map Prod.snd).sum + x := by
  induction sums with
  | nil => simp [alter]
  | cons e sums ih =>
    rw [alter]
    split
    · simp [add_comm]
    · split
      · simp [add_right_comm]
      · rw [List.map_cons, List.sum_cons, ih, List.map_cons, List.sum_cons, add_assoc]

/-- The sums add up to the sum over all items. -/
theorem sum_addUp (key : E → K) (f : E → M) (sums : List (K × M)) (items : List E) :
    ((addUp key f sums items).map Prod.snd).sum = (sums.map Prod.snd).sum + (items.map f).sum := by
  induction items generalizing sums with
  | nil => simp [addUp, fill]
  | cons e items ih =>
    change ((addUp key f (alter (fun v? ↦ v?.getD 0 + f e) (key e) sums) items).map _).sum = _
    rw [ih, sum_alter, List.map_cons, List.sum_cons, add_assoc]

/-- Under a key stands the sum over the items of that key. -/
theorem Sorted.getD_addUp (h : Sorted sums) (key : E → K) (f : E → M) (items : List E) (k : K) :
    ((addUp key f sums items).lookup k).getD 0 =
      (sums.lookup k).getD 0 + ((items.filter fun e ↦ key e = k).map f).sum := by
  rw [addUp, h.lookup_fill]
  generalize items.filter _ = items
  generalize sums.lookup k = v?
  induction items generalizing v? with
  | nil => simp
  | cons e items ih =>
    rw [List.foldl_cons, ih, Option.getD_some, List.map_cons, List.sum_cons, add_assoc]

/-- Started empty, the entries are the keys of the items with their sums. -/
theorem mem_addUp (key : E → K) (f : E → M) (items : List E) {k : K} {x : M} :
    (k, x) ∈ addUp key f [] items ↔
      k ∈ items.map key ∧ x = ((items.filter fun e ↦ key e = k).map f).sum := by
  have hsorted : Sorted (addUp key f [] items) := sorted_nil.fill ..
  have hsum := sorted_nil.getD_addUp key f items k
  have hkeys := mem_keys_fill (m := ([] : List (K × M))) (k := k) key
    (fun v? e ↦ v?.getD 0 + f e) items
  rw [List.lookup_nil, Option.getD_none, zero_add] at hsum
  rw [hsorted.mem_iff, ← hsum]
  cases hx : (addUp key f [] items).lookup k with
  | none =>
    have hnot := Dict.lookup_eq_none_iff.mp hx
    refine iff_of_false (fun h ↦ nomatch h) fun h ↦ hnot (hkeys.mpr (.inl h.1))
  | some y =>
    have hmem := List.mem_map_of_mem (f := Prod.fst) (hsorted.mem_iff.mpr hx)
    obtain hk | hk := hkeys.mp hmem
    · rw [Option.some.injEq, and_iff_right hk]
      exact eq_comm
    · cases hk

end Sums

end Hisab.Base.SortedMap
