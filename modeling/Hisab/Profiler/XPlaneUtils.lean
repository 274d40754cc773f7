import Hisab.Profiler.HostEvents

/-!
# Changes of whole planes

`FindAll`, `RemoveAt` and `RemoveIf` of
`Library/Profiler/native/exporters/xplane/xplane_utils.cpp`, and what repeated calls of
`NormalizeTimestamps` do.
-/

namespace Hisab.Profiler

open Base List Nat

variable {α : Type}

/-- `static_cast<int>` of a `size_t`. -/
def intOfSize (n : Nat) : Int :=
  if n % 2 ^ 32 < 2 ^ 31 then (n % 2 ^ 32 : Nat) else (n % 2 ^ 32 : Nat) - 2 ^ 32

/-- The places that a loop with an `int` index runs over, `i < static_cast<int>(size)`. -/
def seen (n : Nat) : Nat := (intOfSize n).toNat

/-- `FindAll` (`xplane_utils.cpp:75–88`). -/
def findAll (array : List α) (pred : α → Bool) : List Nat :=
  (List.range (seen array.length)).filter fun i ↦ (array[i]?).any pred

/-- `std::swap` of two places. -/
def swapAt (array : List α) (i j : Nat) : List α :=
  match array[i]?, array[j]? with
  | some a, some b => (array.set i b).set j a
  | _, _ => array

/-- The array with the place that is written next and what is left of the indices. -/
structure Subrange (α : Type) where
  array : List α
  removeIter : List Nat
  writeIndex : Nat

/-- One turn of the loop of `SwapAndDeleteSubrange` (`xplane_utils.cpp:110–118`). -/
def Subrange.turn (s : Subrange α) (readIndex : Nat) : Subrange α :=
  if s.removeIter.head? = some readIndex then { s with removeIter := s.removeIter.tail }
  else { s with
    array := swapAt s.array readIndex s.writeIndex
    writeIndex := s.writeIndex + 1 }

/-- `SwapAndDeleteSubrange` (`xplane_utils.cpp:104–122`). -/
def swapAndDeleteSubrange (array : List α) (firstIndex : Nat) (indices : List Nat) : List α :=
  let s := (List.range' (firstIndex + 1) (seen array.length - (firstIndex + 1))).foldl
    Subrange.turn { array, removeIter := indices, writeIndex := firstIndex }
  s.array.take s.writeIndex

/-- `RemoveAt` (`xplane_utils.cpp:126–141`). -/
def removeAt (array : List α) : List Nat → List α
  | [] => array
  | first :: indices =>
    if array.length = (first :: indices).length then []
    else swapAndDeleteSubrange array first (first :: indices)

/-- `RemoveIf` (`xplane_utils.cpp:156–160`). -/
def removeIf (array : List α) (pred : α → Bool) : List α := removeAt array (findAll array pred)

/-- `RemoveEmptyLines` (`xplane_utils.cpp:352–355`). -/
def removeEmptyLines (plane : XPlane) : XPlane :=
  { plane with lines := removeIf plane.lines fun line ↦ line.events.isEmpty }

/-- What `NormalizeTimestamps` does to a line (`xplane_utils.cpp:376–379`). -/
def normalizeLine (startTimeNs : UInt64) (line : XLine) : XLine :=
  if (I64.ofSizeT startTimeNs.toNat).val ≤ line.timestampNs then
    { line with timestampNs := (I64.wrap (line.timestampNs - startTimeNs.toNat)).val }
  else line

/-- `xevent_visitor::timestamp_ps` (`xplane_visitor.h:218–221`). -/
def XLine.timestampPs (line : XLine) (event : XEvent) : Int :=
  line.timestampNs * 1000 + event.offsetPs

/-! ### What is removed -/

variable {array : List α} {pred : α → Bool} {i j n r w : Nat} {indices : List Nat}

theorem seen_le (n : Nat) : seen n ≤ n := by
  unfold seen intOfSize
  split <;> omega

/-- An `int` holds the number of places of any array with fewer than `2 ^ 31` of them. -/
theorem seen_eq (h : n < 2 ^ 31) : seen n = n := by
  unfold seen intOfSize
  split <;> omega

theorem length_swapAt (array : List α) (i j : Nat) : (swapAt array i j).length = array.length := by
  unfold swapAt
  split <;> simp

/-- An exchange with an earlier place leaves what is later. -/
theorem drop_swapAt (h : j ≤ i) : (swapAt array i j).drop (i + 1) = array.drop (i + 1) := by
  unfold swapAt
  split
  · rw [drop_set_of_lt (by omega), drop_set_of_lt (by omega)]
  · rfl

/-- An exchange with an earlier place puts the element there. -/
theorem take_swapAt {a : α} (h : j ≤ i) (ha : array[i]? = some a) :
    (swapAt array i j).take (j + 1) = array.take j ++ [a] := by
  have hi : i < array.length := (List.getElem?_eq_some_iff.mp ha).1
  have hb : array[j]? = some array[j] := getElem?_eq_getElem (by omega)
  simp only [swapAt, ha, hb]
  rw [take_add_one, take_set_of_le (le_refl j), take_set_of_le h,
    getElem?_set_self (by simpa using lt_of_le_of_lt h hi)]
  rfl

/-- What the loop has made of `array` when it comes to place `r`: the iterator is still at
`first`, which is before all places that are read, so that each of them is moved. -/
structure Shifted (array : List α) (first : Nat) (indices : List Nat) (r : Nat)
    (s : Subrange α) : Prop where
  removeIter : s.removeIter = first :: indices
  writeIndex : s.writeIndex + 1 = r
  length : s.array.length = array.length
  moved : s.array.take s.writeIndex = (array.take r).eraseIdx first
  rest : s.array.drop r = array.drop r

variable {first : Nat} {s : Subrange α}

theorem Shifted.start (array : List α) (indices : List Nat) (hfirst : first < array.length) :
    Shifted array first indices (first + 1)
      { array, removeIter := first :: indices, writeIndex := first } where
  removeIter := rfl
  writeIndex := rfl
  length := rfl
  moved := by
    have hlen : (array.take first).length = first := by
      rw [length_take]
      omega
    rw [take_add_one, getElem?_eq_getElem hfirst,
      eraseIdx_append_of_length_le (le_of_eq hlen), hlen]
    simp
  rest := rfl

theorem Shifted.turn (h : Shifted array first indices r s) (hfirst : first < r)
    (hr : r < array.length) : Shifted array first indices (r + 1) (s.turn r) := by
  have hread : s.array[r]? = some array[r] := by
    have hhead := congrArg (fun t : List α ↦ t[0]?) h.rest
    simpa [getElem?_drop, hr] using hhead
  have hle : s.writeIndex ≤ r := by have := h.writeIndex; omega
  have hturn : s.turn r = { s with
      array := swapAt s.array r s.writeIndex, writeIndex := s.writeIndex + 1 } := by
    rw [Subrange.turn, h.removeIter]
    simpa using Nat.ne_of_lt hfirst
  rw [hturn]
  refine ⟨h.removeIter, congrArg (· + 1) h.writeIndex, (length_swapAt ..).trans h.length, ?_, ?_⟩
  · rw [take_swapAt hle hread, h.moved, take_add_one, getElem?_eq_getElem hr,
      eraseIdx_append_of_lt_length (by rw [length_take]; omega)]
    rfl
  · rw [drop_swapAt hle]
    have hdrop := congrArg (drop 1) h.rest
    rwa [drop_drop, drop_drop] at hdrop

theorem Shifted.loop (h : Shifted array first indices r s) (hfirst : first < r)
    (hr : r + n ≤ array.length) :
    Shifted array first indices (r + n) ((List.range' r n).foldl Subrange.turn s) := by
  induction n generalizing r s with
  | zero => exact h
  | succ n ih =>
    have hadd : r + (n + 1) = r + 1 + n := by omega
    rw [hadd]
    exact ih (h.turn hfirst (by omega)) (by omega) (by omega)

/-- Only the first of the indices is removed, and what the loop does not see. -/
theorem swapAndDeleteSubrange_eq (hfirst : first < seen array.length) :
    swapAndDeleteSubrange array first (first :: indices) =
      (array.take (seen array.length)).eraseIdx first := by
  have hseen := seen_le array.length
  have hstart := Shifted.start array indices (hfirst.trans_le hseen)
  have hend := hstart.loop (n := seen array.length - (first + 1)) (by omega) (by omega)
  rw [Nat.add_sub_cancel' hfirst] at hend
  exact hend.moved

theorem removeAt_cons (hfirst : first < seen array.length)
    (hne : (first :: indices).length ≠ array.length) :
    removeAt array (first :: indices) = (array.take (seen array.length)).eraseIdx first := by
  rw [removeAt, if_neg (Ne.symm hne), swapAndDeleteSubrange_eq hfirst]

/-! ### `RemoveIf` -/

theorem length_findAll (array : List α) (pred : α → Bool) :
    (findAll array pred).length = (array.take (seen array.length)).countP pred := by
  have htake (m : Nat) (hm : m ≤ array.length) :
      ((range m).filter fun i ↦ (array[i]?).any pred).length = (array.take m).countP pred := by
    induction m with
    | zero => rfl
    | succ m ih =>
      rw [range_succ, filter_append, length_append, ih (by omega), take_add_one, countP_append]
      simp only [filter_singleton, Option.toList_some, countP_singleton,
        getElem?_eq_getElem (show m < array.length by omega), Option.any_some]
      cases pred array[m] <;> simp
  exact htake _ (seen_le _)

/-- The place of an element that matches, within the places that are seen. -/
theorem mem_findAll : i ∈ findAll array pred ↔
    i < seen array.length ∧ ∃ a, array[i]? = some a ∧ pred a = true := by
  rw [findAll, mem_filter, mem_range, Option.any_eq_true]

theorem nodup_findAll (array : List α) (pred : α → Bool) : (findAll array pred).Nodup :=
  nodup_range.filter _

/-- Where one element matches it is the one to erase. -/
theorem eraseIdx_eq_filter {l : List α} {a : α} (ha : l[i]? = some a) (hpred : pred a = true)
    (hcount : l.countP pred = 1) : l.eraseIdx i = l.filter fun b ↦ !pred b := by
  obtain ⟨hi, rfl⟩ := List.getElem?_eq_some_iff.mp ha
  have hsplit : l = l.take i ++ l[i] :: l.drop (i + 1) := by simp
  rw [hsplit, countP_append, countP_cons_of_pos hpred] at hcount
  have hbefore : (l.take i).countP pred = 0 := by omega
  have hafter : (l.drop (i + 1)).countP pred = 0 := by omega
  rw [eraseIdx_eq_take_drop_succ]
  conv_rhs => rw [hsplit]
  rw [filter_append, filter_cons_of_neg (by simp [hpred]),
    filter_eq_self.mpr (by simpa using hbefore),
    filter_eq_self.mpr (by simpa using hafter)]

/-- When `RemoveIf` is right: nothing matches, everything does, or what matches is one of the
places that are seen, and all those that are not. -/
def AtMostOneMatches (array : List α) (pred : α → Bool) : Prop :=
  array.countP pred = 0 ∨ (array.take (seen array.length)).countP pred = array.length ∨
    (array.take (seen array.length)).countP pred = 1 ∧
      ∀ a ∈ array.drop (seen array.length), pred a = true

/-- All places of an array with fewer than `2 ^ 31` of them are seen. -/
theorem atMostOneMatches_iff (h : array.length < 2 ^ 31) : AtMostOneMatches array pred ↔
    array.countP pred ≤ 1 ∨ array.countP pred = array.length := by
  rw [AtMostOneMatches, seen_eq h, take_length, drop_length]
  simp only [not_mem_nil, false_implies, implies_true, and_true]
  omega

theorem removeIf_eq_filter_iff (array : List α) (pred : α → Bool) :
    removeIf array pred = array.filter (fun a ↦ !pred a) ↔ AtMostOneMatches array pred := by
  have hlength := length_findAll array pred
  have hsplit : array = array.take (seen array.length) ++ array.drop (seen array.length) := by simp
  cases hfind : findAll array pred with
  | nil =>
    rw [hfind] at hlength
    have hzero : (array.take (seen array.length)).countP pred = 0 := hlength.symm
    rw [removeIf, hfind, removeAt, eq_comm, AtMostOneMatches, hzero]
    constructor
    · exact fun h ↦ .inl (by simpa using h)
    · rintro (h | h | h)
      · simpa using h
      · simp [eq_nil_of_length_eq_zero h.symm]
      · exact absurd h.1 (by decide)
  | cons first rest =>
    have hmem : ∀ i ∈ first :: rest, i < seen array.length ∧
        ∃ a, array[i]? = some a ∧ pred a = true := fun i hi ↦ mem_findAll.mp (hfind ▸ hi)
    obtain ⟨hfirst, a, ha, hpred⟩ := hmem first mem_cons_self
    rw [hfind] at hlength
    have hone : array.countP pred ≠ 0 := fun hzero ↦
      absurd hpred (countP_eq_zero.mp hzero a (mem_of_getElem? ha))
    by_cases hall : (first :: rest).length = array.length
    · have hcount : array.countP pred = array.length := by
        have hle := (take_sublist (seen array.length) array).countP_le (p := pred)
        have := countP_le_length (p := pred) (l := array)
        omega
      rw [removeIf, hfind, removeAt, if_pos hall.symm, eq_comm, filter_eq_nil_iff]
      refine ⟨fun _ ↦ .inr (.inl (hlength.symm.trans hall)), fun _ b hb ↦ ?_⟩
      simpa using countP_eq_length.mp hcount b hb
    · rw [removeIf, hfind, removeAt_cons hfirst hall]
      have htake : (array.take (seen array.length))[first]? = some a := by
        rw [getElem?_take_of_lt hfirst]
        exact ha
      constructor
      · intro heq
        -- A second place that matches would stay.
        have hrest : rest = [] := by
          by_contra hne
          obtain ⟨j, hj⟩ := exists_mem_of_ne_nil rest hne
          obtain ⟨hjseen, b, hb, hbpred⟩ := hmem j (mem_cons_of_mem _ hj)
          have hjfirst : j ≠ first := by
            rintro rfl
            exact (nodup_cons.mp (hfind ▸ nodup_findAll array pred)).1 hj
          have hstays : b ∈ (array.take (seen array.length)).eraseIdx first := by
            rw [mem_eraseIdx_iff_getElem?]
            exact ⟨j, hjfirst, by rw [getElem?_take_of_lt hjseen]; exact hb⟩
          rw [heq, mem_filter, hbpred] at hstays
          exact absurd hstays.2 (by decide)
        rw [hrest] at hlength
        have hcount : (array.take (seen array.length)).countP pred = 1 := hlength.symm
        refine .inr (.inr ⟨hcount, fun b hb ↦ ?_⟩)
        rw [eraseIdx_eq_filter htake hpred hcount] at heq
        conv_rhs at heq => rw [hsplit]
        rw [filter_append, self_eq_append_right, filter_eq_nil_iff] at heq
        simpa using heq b hb
      · rintro (h | h | ⟨hcount, hrest⟩)
        · exact absurd h hone
        · exact absurd (hlength.trans h) hall
        · have hnil : (array.drop (seen array.length)).filter (fun b ↦ !pred b) = [] :=
            filter_eq_nil_iff.mpr (by simpa using hrest)
          rw [eraseIdx_eq_filter htake hpred hcount]
          conv_rhs => rw [hsplit]
          rw [filter_append, hnil, append_nil]

/-! ### `RemoveAt` -/

/-- The elements at the places that are not among the indices. -/
def survivors (array : List α) (indices : List Nat) : List α :=
  (array.zipIdx.filter fun p ↦ !indices.contains p.2).map Prod.fst

/-- When `RemoveAt` is right: there is no index, every place is listed once, or all indices are
one place of an array whose length an `int` holds. -/
def OneOrAll (array : List α) (indices : List Nat) : Prop :=
  indices = [] ∨ indices.length = array.length ∧ indices.Nodup ∨
    indices.length ≠ array.length ∧ seen array.length = array.length ∧
      ∀ i ∈ indices, ∀ j ∈ indices, i = j

/-- As many elements are gone as places are listed. -/
theorem length_survivors (hlt : ∀ i ∈ indices, i < array.length) :
    (survivors array indices).length + indices.toFinset.card = array.length := by
  have hplaces : (survivors array indices).length =
      ((range array.length).filter fun i ↦ !indices.contains i).length := by
    rw [survivors, length_map, range_eq_range', ← zipIdx_map_snd 0 array, filter_map, length_map]
    rfl
  have hcard : ((range array.length).filter fun i ↦ !indices.contains i).length =
      (Finset.range array.length \ indices.toFinset).card := by
    rw [← toFinset_card_of_nodup (nodup_range.filter _)]
    congr 1
    ext i
    simp
  have hsub : indices.toFinset ⊆ Finset.range array.length := by
    intro i hi
    exact Finset.mem_range.mpr (hlt i (mem_toFinset.mp hi))
  have hle := Finset.card_le_card hsub
  rw [Finset.card_range] at hle
  rw [hplaces, hcard, Finset.card_sdiff_of_subset hsub, Finset.card_range, Nat.sub_add_cancel hle]

/-- Erasing one place leaves the others. -/
theorem eraseIdx_eq_survivors (hi : i < array.length) (hmem : ∀ j, j ∈ indices ↔ j = i) :
    array.eraseIdx i = survivors array indices := by
  have hplace : array.zipIdx[i]? = some (array[i], i) := by simp [hi]
  have hcount : array.zipIdx.countP (fun p ↦ indices.contains p.2) = 1 := by
    have hmap : array.zipIdx.countP (fun p ↦ indices.contains p.2) =
        (range array.length).countP fun j ↦ j == i := by
      rw [range_eq_range', ← zipIdx_map_snd 0 array, countP_map]
      refine countP_congr fun p _ ↦ ?_
      simp [hmem]
    have hone := count_eq_one_of_mem nodup_range (mem_range.mpr hi)
    exact hmap.trans hone
  have herase := eraseIdx_eq_filter hplace (by simp [hmem]) hcount
  have hfst : array.zipIdx.map Prod.fst = array := zipIdx_map_fst 0 array
  rw [survivors, ← herase, ← eraseIdx_map, hfst]

theorem removeAt_eq_survivors_iff (hseen : ∀ i ∈ indices, i < seen array.length) :
    removeAt array indices = survivors array indices ↔ OneOrAll array indices := by
  have hle := seen_le array.length
  have hlength := length_survivors fun i hi ↦ (hseen i hi).trans_le hle
  cases indices with
  | nil =>
    have hall : survivors array [] = array := by simp [survivors]
    exact iff_of_true hall.symm (.inl rfl)
  | cons first rest =>
    have hfirst := hseen first mem_cons_self
    by_cases hlen : (first :: rest).length = array.length
    · rw [removeAt, if_pos hlen.symm]
      constructor
      · intro heq
        rw [← heq, length_nil, zero_add, ← hlen, card_toFinset] at hlength
        have hdedup := (dedup_sublist (first :: rest)).eq_of_length hlength
        exact .inr (.inl ⟨hlen, dedup_eq_self.mp hdedup⟩)
      · rintro (h | ⟨-, h⟩ | h)
        · exact absurd h (by simp)
        · rw [toFinset_card_of_nodup h] at hlength
          exact (eq_nil_of_length_eq_zero (by omega)).symm
        · exact absurd hlen h.1
    · rw [removeAt_cons hfirst hlen]
      constructor
      · intro heq
        rw [← heq, length_eraseIdx_of_lt (by rw [length_take]; omega), length_take] at hlength
        -- So many places are not seen that the indices cannot be as many.
        have hsub : (first :: rest).toFinset ⊆ Finset.range (seen array.length) := by
          intro i hi
          exact Finset.mem_range.mpr (hseen i (mem_toFinset.mp hi))
        have hcards := Finset.card_le_card hsub
        rw [Finset.card_range] at hcards
        have hint : seen array.length = array.length := by
          unfold seen intOfSize at *
          split at * <;> omega
        have hone : (first :: rest).toFinset.card = 1 := by omega
        refine .inr (.inr ⟨hlen, hint, fun i hi j hj ↦ ?_⟩)
        exact Finset.card_le_one.mp hone.le i (mem_toFinset.mpr hi) j (mem_toFinset.mpr hj)
      · rintro (h | h | ⟨-, hint, hsame⟩)
        · exact absurd h (by simp)
        · exact absurd h.1 hlen
        · have hmem (j : Nat) : j ∈ first :: rest ↔ j = first := by
            refine ⟨fun hj ↦ hsame j hj first mem_cons_self, ?_⟩
            rintro rfl
            exact mem_cons_self
          rw [hint, take_length]
          exact eraseIdx_eq_survivors (hint ▸ hfirst) hmem

/-- Removal is right where at most one element goes, or all of them: the iterator starts at the
first index, which no place that is read equals. -/
theorem removal_iff (array : List α) (pred : α → Bool) (indices : List Nat)
    (hseen : ∀ i ∈ indices, i < seen array.length) (plane : XPlane) :
    (removeIf array pred = array.filter (fun a ↦ !pred a) ↔ AtMostOneMatches array pred) ∧
      (removeAt array indices = survivors array indices ↔ OneOrAll array indices) ∧
      (removeEmptyLines plane =
          { plane with lines := plane.lines.filter fun line ↦ !line.events.isEmpty } ↔
        AtMostOneMatches plane.lines fun line ↦ line.events.isEmpty) := by
  refine ⟨removeIf_eq_filter_iff .., removeAt_eq_survivors_iff hseen, ?_⟩
  rw [← removeIf_eq_filter_iff, removeEmptyLines]
  simp

/-- One index of three; none, all and one of three elements match. -/
theorem removal_iff_of_one_index :
    (∀ i ∈ [1], i < seen [5, 6, 7].length) ∧ removeAt [5, 6, 7] [1] = [5, 7] ∧
      OneOrAll [5, 6, 7] [1] :=
  have hseen : ∀ i ∈ [1], i < seen [5, 6, 7].length := by decide +kernel
  have hright := (removal_iff [5, 6, 7] (fun a ↦ a == 6) [1] hseen {}).2.1
  have hone : OneOrAll [5, 6, 7] [1] := .inr (.inr (by decide +kernel))
  ⟨hseen, hright.mpr hone, hone⟩

/-- Of two elements that match only the first goes, and one that does not goes with it. -/
theorem removal_keeps_second_match :
    removeIf [1, 2, 3] (fun a ↦ a != 2) = [2, 3] ∧ [1, 2, 3].filter (fun a ↦ !(a != 2)) = [2] ∧
      removeAt [5, 6, 7, 8] [0, 1] = [6, 7, 8] ∧ survivors [5, 6, 7, 8] [0, 1] = [7, 8] ∧
      (removeEmptyLines { lines := [{ id := 1 }, { id := 2, events := [{}] }, { id := 3 }] }).lines
        = [{ id := 2, events := [{}] }, { id := 3 }] := by
  decide +kernel

/-! ### `NormalizeTimestamps` -/

variable {line : XLine} {startTimeNs : UInt64}

/-- The timestamp of a line is an `int64_t`. -/
def XLine.InRange (line : XLine) : Prop := -2 ^ 63 ≤ line.timestampNs ∧ line.timestampNs < 2 ^ 63

/-- Nothing wraps where the start time is an `int64_t`. -/
theorem normalizeLine_eq (hstart : startTimeNs.toNat < 2 ^ 63) (hline : line.InRange) :
    normalizeLine startTimeNs line = if (startTimeNs.toNat : Int) ≤ line.timestampNs then
        { line with timestampNs := line.timestampNs - startTimeNs.toNat }
      else line := by
  have hval : (I64.ofSizeT startTimeNs.toNat).val = startTimeNs.toNat :=
    I64.val_ofSizeT (le_sub_one_of_lt hstart)
  obtain ⟨-, hupper⟩ := hline
  rw [normalizeLine, hval]
  split
  · next hle =>
    let moved : I64 := ⟨line.timestampNs - startTimeNs.toNat, by omega, by omega⟩
    rw [I64.wrap_eq (x := moved) rfl]
  · rfl

theorem normalizeLine_inRange (hstart : startTimeNs.toNat < 2 ^ 63) (hline : line.InRange) :
    (normalizeLine startTimeNs line).InRange := by
  rw [normalizeLine_eq hstart hline]
  split
  · next hle =>
    obtain ⟨hlower, hupper⟩ := hline
    exact ⟨by dsimp only; omega, by dsimp only; omega⟩
  · exact hline

/-- Every call takes the start time off once more, as long as it is there. -/
theorem normalizeLine_iterate (hstart : startTimeNs.toNat < 2 ^ 63) (hline : line.InRange)
    (n : Nat) : (normalizeLine startTimeNs)^[n] line = { line with
      timestampNs := line.timestampNs - (min n (line.timestampNs.toNat / startTimeNs.toNat) *
        startTimeNs.toNat : Nat) } := by
  have hrange (n : Nat) : ((normalizeLine startTimeNs)^[n] line).InRange := by
    induction n with
    | zero => exact hline
    | succ n ih =>
      rw [Function.iterate_succ_apply']
      exact normalizeLine_inRange hstart ih
  have hfit := div_mul_le_self line.timestampNs.toNat startTimeNs.toNat
  induction n with
  | zero => simp
  | succ n ih =>
    rw [Function.iterate_succ_apply', normalizeLine_eq hstart (hrange n), ih]
    by_cases hn : n + 1 ≤ line.timestampNs.toNat / startTimeNs.toNat
    · have hmul := mul_le_mul_right startTimeNs.toNat hn
      have hadd := Nat.add_one_mul n startTimeNs.toNat
      have hpos : line.timestampNs.toNat ≠ 0 := by
        intro hzero
        simp [hzero] at hn
      rw [min_eq_left (by omega), min_eq_left hn, if_pos (by dsimp only; omega)]
      simp only [XLine.mk.injEq, true_and, and_true]
      omega
    · have hle : line.timestampNs.toNat / startTimeNs.toNat ≤ n := by omega
      rw [min_eq_right hle, min_eq_right (by omega)]
      split
      · next hge =>
        -- Only a start at zero can still be taken off.
        have hzero : startTimeNs.toNat = 0 := by
          by_contra hne
          have := lt_div_mul_add (a := line.timestampNs.toNat) (pos_of_ne_zero hne)
          dsimp only at hge
          omega
        simp [hzero]
      · rfl

theorem normalizeTimestamps_eq (startTimeNs : UInt64) (plane : XPlane) :
    normalizeTimestamps startTimeNs plane = { plane with
      lines := plane.lines.map (normalizeLine startTimeNs) } :=
  rfl

theorem normalizeTimestamps_iterate (startTimeNs : UInt64) (plane : XPlane) (n : Nat) :
    (normalizeTimestamps startTimeNs)^[n] plane = { plane with
      lines := plane.lines.map (normalizeLine startTimeNs)^[n] } := by
  induction n with
  | zero => simp
  | succ n ih =>
    rw [Function.iterate_succ_apply', ih, normalizeTimestamps_eq, Function.iterate_succ']
    simp only [map_map]

/-- A second call finds nothing to take off where no line is twice the start time. -/
theorem normalizeTimestamps_stable_iff (plane : XPlane) (hstart : startTimeNs.toNat < 2 ^ 63)
    (hlines : ∀ line ∈ plane.lines, line.InRange) :
    (∀ n, (normalizeTimestamps startTimeNs)^[n + 1] plane = normalizeTimestamps startTimeNs plane) ↔
      startTimeNs = 0 ∨ ∀ line ∈ plane.lines, line.timestampNs < 2 * startTimeNs.toNat := by
  have hsame (n : Nat) : (normalizeTimestamps startTimeNs)^[n + 1] plane =
      normalizeTimestamps startTimeNs plane ↔ ∀ line ∈ plane.lines,
          min (n + 1) (line.timestampNs.toNat / startTimeNs.toNat) * startTimeNs.toNat =
          min 1 (line.timestampNs.toNat / startTimeNs.toNat) * startTimeNs.toNat := by
    have hone := normalizeTimestamps_iterate startTimeNs plane 1
    rw [Function.iterate_one] at hone
    rw [normalizeTimestamps_iterate, hone]
    simp only [XPlane.mk.injEq, true_and, and_true, map_inj_left]
    refine forall₂_congr fun line hmem ↦ ?_
    rw [normalizeLine_iterate hstart (hlines line hmem),
      normalizeLine_iterate hstart (hlines line hmem)]
    simp only [XLine.mk.injEq, true_and, and_true]
    omega
  simp only [hsame]
  have hiff : startTimeNs = 0 ↔ startTimeNs.toNat = 0 := UInt64.toNat_inj.symm
  rw [hiff]
  constructor
  · intro h
    by_cases hzero : startTimeNs.toNat = 0
    · exact .inl hzero
    · refine .inr fun line hmem ↦ ?_
      have hpos := pos_of_ne_zero hzero
      have hmin := eq_of_mul_eq_mul_right hpos (h 1 line hmem)
      have hlt : line.timestampNs.toNat / startTimeNs.toNat < 2 := by omega
      have := (div_lt_iff_lt_mul hpos).mp hlt
      omega
  · intro h n line hmem
    by_cases hzero : startTimeNs.toNat = 0
    · rw [hzero, mul_zero, mul_zero]
    · have hline := (h.resolve_left hzero) line hmem
      have hdiv : line.timestampNs.toNat / startTimeNs.toNat < 2 := Nat.div_lt_of_lt_mul (by omega)
      rw [show min (n + 1) (line.timestampNs.toNat / startTimeNs.toNat) =
        min 1 (line.timestampNs.toNat / startTimeNs.toNat) by omega]

/-- The lines from the start time on are moved by it, each call takes it off once more, and the
first call is the only one that does where no line is twice the start time. -/
theorem normalizeTimestamps_law (startTimeNs : UInt64) (plane : XPlane)
    (hstart : startTimeNs.toNat < 2 ^ 63) (hlines : ∀ line ∈ plane.lines, line.InRange) :
    normalizeTimestamps startTimeNs plane = { plane with
        lines := plane.lines.map fun line ↦
          if (startTimeNs.toNat : Int) ≤ line.timestampNs then
            { line with timestampNs := line.timestampNs - startTimeNs.toNat }
          else line } ∧
      (∀ line ∈ plane.lines, (startTimeNs.toNat : Int) ≤ line.timestampNs →
        0 ≤ (normalizeLine startTimeNs line).timestampNs ∧
        ∀ line' ∈ plane.lines, (startTimeNs.toNat : Int) ≤ line'.timestampNs → ∀ event event',
          (normalizeLine startTimeNs line).timestampPs event -
              (normalizeLine startTimeNs line').timestampPs event' =
            line.timestampPs event - line'.timestampPs event') ∧
      (∀ n, (normalizeTimestamps startTimeNs)^[n] plane = { plane with
        lines := plane.lines.map fun line ↦ { line with
          timestampNs := line.timestampNs -
            (min n (line.timestampNs.toNat / startTimeNs.toNat) * startTimeNs.toNat : Nat) } }) ∧
      ((∀ n, (normalizeTimestamps startTimeNs)^[n + 1] plane =
          normalizeTimestamps startTimeNs plane) ↔
        startTimeNs = 0 ∨ ∀ line ∈ plane.lines, line.timestampNs < 2 * startTimeNs.toNat) := by
  refine ⟨?_, fun line hmem hle ↦ ⟨?_, fun line' hmem' hle' event event' ↦ ?_⟩, fun n ↦ ?_,
    normalizeTimestamps_stable_iff plane hstart hlines⟩
  · rw [normalizeTimestamps_eq]
    congr 1
    exact map_congr_left fun line hmem ↦ normalizeLine_eq hstart (hlines line hmem)
  · rw [normalizeLine_eq hstart (hlines line hmem), if_pos hle]
    dsimp only
    omega
  · rw [normalizeLine_eq hstart (hlines line hmem), normalizeLine_eq hstart (hlines line' hmem'),
      if_pos hle, if_pos hle']
    unfold XLine.timestampPs
    dsimp only
    omega
  · rw [normalizeTimestamps_iterate]
    congr 1
    exact map_congr_left fun line hmem ↦ normalizeLine_iterate hstart (hlines line hmem) n

/-- A line at the start time and one later. -/
theorem normalizeTimestamps_law_at_five :
    (∀ line ∈ [{ timestampNs := 5 }, { timestampNs := 9 }], XLine.InRange line) ∧
      ∀ n, (normalizeTimestamps 5)^[n + 1]
          { lines := [{ timestampNs := 5 }, { timestampNs := 9 }] } =
        { lines := [{ timestampNs := 0 }, { timestampNs := 4 }] } := by
  have hlines : ∀ line ∈ [({ timestampNs := 5 } : XLine), { timestampNs := 9 }], line.InRange := by
    intro line hmem
    rw [mem_pair] at hmem
    obtain rfl | rfl := hmem <;> exact ⟨by decide, by decide⟩
  have hlaw := normalizeTimestamps_law 5
    { lines := [{ timestampNs := 5 }, { timestampNs := 9 }] } (by decide) hlines
  refine ⟨hlines, fun n ↦ (hlaw.2.2.2.mpr (.inr ?_) n).trans (by decide +kernel)⟩
  decide +kernel

/-- A line at four times the start is moved by a second call; an event after the start is not
moved where its line begins before; and after `2 ^ 63` the start is less than any line. -/
theorem normalizeTimestamps_moves_twice :
    (normalizeTimestamps 5)^[2] { lines := [{ timestampNs := 20 }] } ≠
        normalizeTimestamps 5 { lines := [{ timestampNs := 20 }] } ∧
      (let event : XEvent := { data := .offset 2000 }
      let line : XLine := { timestampNs := 4, events := [event] }
      5 * 1000 ≤ line.timestampPs event ∧ normalizeLine 5 line = line) ∧
      normalizeTimestamps (2 ^ 63) { lines := [{}] } =
        { lines := [{ timestampNs := -2 ^ 63 }] } := by
  decide +kernel

end Hisab.Profiler
