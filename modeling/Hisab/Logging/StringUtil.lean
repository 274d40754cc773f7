import Mathlib.Data.List.Infix
import Mathlib.Logic.Relation

/-!
# Erasing and replacing in a string

`replace_all`, `erase_all_sub_string` and the collapse of closing brackets in `demangle`
(`Library/Logging/util/string_util.cpp:70–154`), over lists of characters. Each is a loop that
searches the string which it changes; it is given fuel, and `none` is a loop that has not ended.
-/

namespace Hisab.Logging

open Relation List Nat

variable {α : Type} [DecidableEq α]

/-- `find` of a string, from its front. -/
def find (needle : List α) : List α → Option Nat
  | [] => if needle = [] then some 0 else none
  | c :: s => if needle <+: c :: s then some 0 else (find needle s).map (· + 1)

/-- `find` from a position, which is not beyond the end. -/
def findFrom (needle s : List α) (pos : Nat) : Option Nat :=
  (find needle (s.drop pos)).map (pos + ·)

/-- `erase_all_sub_string` (`string_util.cpp:142–153`). -/
def eraseAllSubString (toErase : List α) : Nat → List α → Option (List α)
  | 0, _ => none
  | fuel + 1, mainStr =>
    match find toErase mainStr with
    | some pos => eraseAllSubString toErase fuel
        (mainStr.take pos ++ mainStr.drop (pos + toErase.length))
    | none => some mainStr

/-- The loop of `replace_all`, at the position that `find` has given. -/
def replaceFrom (source target : List α) :
    Nat → Option Nat → List α → Nat → Option (List α × Nat)
  | _, none, s, numReplaced => some (s, numReplaced)
  | 0, some _, _, _ => none
  | fuel + 1, some pos, s, numReplaced =>
    let s := s.take pos ++ target ++ s.drop (pos + source.length)
    replaceFrom source target fuel (findFrom source s (pos + target.length)) s (numReplaced + 1)

/-- `replace_all` (`string_util.cpp:117–134`) with its checks; a null pointer is no string. -/
def replaceAll (fuel : Nat) (s : List α) : Option (List α) → Option (List α) →
    Except String (Option (List α × Nat))
  | none, _ | some [], _ => .error "Source string cannot be null or empty"
  | some _, none => .error "Replacement string cannot be null"
  | some source, some target => .ok (replaceFrom source target fuel (findFrom source s 0) s 0)

/-- `while (replace_all(ret, source, target) > 0) {}`. -/
def replaceRepeatedly (source target : List α) : Nat → List α → Option (List α)
  | 0, _ => none
  | fuel + 1, ret =>
    match replaceAll fuel ret (some source) (some target) with
    | .ok (some (ret, 0)) => some ret
    | .ok (some (ret, _ + 1)) => replaceRepeatedly source target fuel ret
    | _ => none

/-- The loop of `demangle` (`string_util.cpp:105`). -/
def collapseBrackets : Nat → List Char → Option (List Char) :=
  replaceRepeatedly "> >".toList ">>".toList

/-! ### What the loops should do -/

/-- The second string is the first one without some occurrences of the needle. -/
def Deleted (needle : List α) : List α → List α → Prop :=
  ReflTransGen fun s t ↦ ∃ u v, s = u ++ needle ++ v ∧ t = u ++ v

/-- Replacement of the leftmost occurrences without overlap, with their number. -/
inductive Replaced (source target : List α) : List α → List α → Nat → Prop
  | none {s} : ¬ source <:+: s → Replaced source target s s 0
  | some {u v t n} : (∀ w, w ++ source <+: u ++ source ++ v → u.length ≤ w.length) →
      Replaced source target v t n →
      Replaced source target (u ++ source ++ v) (u ++ target ++ t) (n + 1)

variable {needle source target s t : List α} {fuel n i : Nat}

theorem find_eq_none : find needle s = none ↔ ¬ needle <:+: s := by
  induction s with
  | nil => simp [find]
  | cons c s ih =>
    rw [find, infix_cons_iff]
    split
    · next h => simp [h]
    · next h => simp [h, ih]

/-- An occurrence that is found is the leftmost one. -/
theorem find_eq_some (h : find needle s = some i) : ∃ u v, s = u ++ needle ++ v ∧ u.length = i ∧
    ∀ w, w ++ needle <+: s → u.length ≤ w.length := by
  induction s generalizing i with
  | nil =>
    rw [find] at h
    split at h
    · next hnil =>
      cases h
      exact ⟨[], [], by simp [hnil], rfl, fun _ _ ↦ zero_le _⟩
    · cases h
  | cons c s ih =>
    rw [find] at h
    split at h
    · next hhead =>
      cases h
      obtain ⟨v, hv⟩ := hhead
      exact ⟨[], v, hv.symm, rfl, fun _ _ ↦ zero_le _⟩
    · next hhead =>
      obtain ⟨j, hj, rfl⟩ := Option.map_eq_some_iff.mp h
      obtain ⟨u, v, rfl, rfl, hleft⟩ := ih hj
      refine ⟨c :: u, v, rfl, rfl, fun w hw ↦ ?_⟩
      cases w with
      | nil => exact absurd hw hhead
      | cons d w =>
        rw [cons_append, cons_prefix_cons] at hw
        exact succ_le_succ (hleft w hw.2)

/-- Each deletion makes the string shorter. -/
theorem eraseAllSubString_spec (hneedle : needle ≠ []) (hfuel : s.length < fuel) :
    ∃ t, eraseAllSubString needle fuel s = some t ∧ ¬ needle <:+: t ∧ Deleted needle s t := by
  induction fuel generalizing s with
  | zero => omega
  | succ fuel ih =>
    rw [eraseAllSubString]
    cases h : find needle s with
    | none => exact ⟨s, rfl, find_eq_none.mp h, .refl⟩
    | some pos =>
      obtain ⟨u, v, rfl, rfl, -⟩ := find_eq_some h
      have hpos := length_pos_of_ne_nil hneedle
      have herase : (u ++ needle ++ v).take u.length ++
          (u ++ needle ++ v).drop (u.length + needle.length) = u ++ v := by
        rw [append_assoc, take_left, ← append_assoc, ← length_append,
          drop_left]
      simp only [herase]
      obtain ⟨t, ht, hnot, hdeleted⟩ := ih (s := u ++ v) (by
        simp only [length_append] at hfuel ⊢
        omega)
      exact ⟨t, ht, hnot, .head ⟨u, v, rfl, rfl⟩ hdeleted⟩

/-- The empty needle is found again at the front. -/
theorem eraseAllSubString_nil (fuel : Nat) (s : List α) : eraseAllSubString [] fuel s = none := by
  induction fuel generalizing s with
  | zero => rfl
  | succ fuel ih =>
    have hfind : find [] s = some 0 := by cases s <;> simp [find]
    rw [eraseAllSubString, hfind]
    exact ih _

/-- What is before the position stays; the rest is replaced from the left. -/
theorem replaceFrom_spec (target : List α) (hsource : source ≠ []) (done rest : List α) (n : Nat)
    (hfuel : rest.length < fuel) :
    ∃ t k, replaceFrom source target fuel (findFrom source (done ++ rest) done.length)
      (done ++ rest) n = some (done ++ t, n + k) ∧ Replaced source target rest t k := by
  induction fuel generalizing done rest n with
  | zero => omega
  | succ fuel ih =>
    rw [findFrom, drop_left]
    cases h : find source rest with
    | none => exact ⟨rest, 0, rfl, .none (find_eq_none.mp h)⟩
    | some pos =>
      obtain ⟨u, v, rfl, rfl, hleft⟩ := find_eq_some h
      have hpos := length_pos_of_ne_nil hsource
      have htake : (done ++ (u ++ source ++ v)).take (done.length + u.length) = done ++ u := by
        rw [← length_append, append_assoc, ← append_assoc done, take_left]
      have hdrop : (done ++ (u ++ source ++ v)).drop (done.length + u.length + source.length) =
          v := by
        rw [← length_append, ← length_append, ← append_assoc done,
          ← append_assoc done, drop_left]
      rw [Option.map_some, replaceFrom]
      simp only [htake, hdrop]
      obtain ⟨t, k, heq, hreplaced⟩ := ih (done ++ u ++ target) v (n + 1) (by
        simp only [length_append] at hfuel
        omega)
      refine ⟨u ++ target ++ t, k + 1, ?_, .some hleft hreplaced⟩
      rw [length_append, length_append] at heq
      rw [heq, Nat.add_assoc, Nat.add_comm 1]
      simp only [append_assoc]

theorem replaceAll_spec (target : List α) (hsource : source ≠ []) (hfuel : s.length < fuel) :
    ∃ t n, replaceAll fuel s (some source) (some target) = .ok (some (t, n)) ∧
      Replaced source target s t n := by
  obtain ⟨c, source, rfl⟩ := exists_cons_of_ne_nil hsource
  obtain ⟨t, n, heq, hreplaced⟩ := replaceFrom_spec target hsource [] s 0 hfuel
  rw [Nat.zero_add] at heq
  exact ⟨t, n, congrArg Except.ok heq, hreplaced⟩

omit [DecidableEq α] in
/-- Each replacement changes the length by the same amount. -/
theorem Replaced.length (h : Replaced source target s t n) :
    t.length + n * source.length = s.length + n * target.length := by
  induction h with
  | none => simp
  | some _ _ ih =>
    simp only [length_append, succ_mul]
    omega

/-- A shorter target makes each pass that replaces anything shorten the string. -/
theorem replaceRepeatedly_spec (hlt : target.length < source.length) (hfuel : s.length + 1 < fuel) :
    ∃ t, replaceRepeatedly source target fuel s = some t ∧ ¬ source <:+: t := by
  have hsource : source ≠ [] := ne_nil_of_length_pos (zero_lt_of_lt hlt)
  induction fuel generalizing s with
  | zero => omega
  | succ fuel ih =>
    rw [replaceRepeatedly]
    obtain ⟨t, n, heq, hreplaced⟩ := replaceAll_spec target hsource
      (lt_of_succ_lt_succ hfuel)
    rw [heq]
    cases hreplaced with
    | none hnot => exact ⟨s, rfl, hnot⟩
    | @some u v t n hleft hreplaced =>
      apply ih
      have hlen := (Replaced.some hleft hreplaced).length
      have hle := mul_le_mul_left n hlt.le
      rw [succ_mul, succ_mul] at hlen
      omega

/-- Erasure ends, without an occurrence left, exactly for a needle that is not empty; replacement
and the collapse of closing brackets end for every string. -/
theorem erase_replace_collapse (s needle source target : List Char) (hsource : source ≠ []) :
    ((∃ fuel t, eraseAllSubString needle fuel s = some t ∧ ¬ needle <:+: t ∧
      Deleted needle s t) ↔ needle ≠ []) ∧
    (∃ fuel t n, replaceAll fuel s (some source) (some target) = .ok (some (t, n)) ∧
      Replaced source target s t n) ∧
    ∃ fuel t, collapseBrackets fuel s = some t ∧ ¬ "> >".toList <:+: t := by
  refine ⟨⟨?_, ?_⟩, ?_, ?_⟩
  · rintro ⟨fuel, t, heq, -⟩ rfl
    rw [eraseAllSubString_nil] at heq
    cases heq
  · exact fun hneedle ↦ ⟨_, eraseAllSubString_spec hneedle (lt_succ_self _)⟩
  · exact ⟨_, replaceAll_spec target hsource (lt_succ_self _)⟩
  · exact ⟨_, replaceRepeatedly_spec (by decide) (lt_succ_self _)⟩

/-- The target may contain the source. -/
theorem erase_replace_collapse_growing : ∃ fuel t n,
    replaceAll fuel ['a', 'a'] (some ['a']) (some ['a', 'a']) = .ok (some (t, n)) ∧
      Replaced ['a'] ['a', 'a'] ['a', 'a'] t n :=
  (erase_replace_collapse ['a', 'a'] [] ['a'] ['a', 'a'] (by decide)).2.1

/-- The loop for the empty needle never ends. -/
theorem erase_empty_endless : ¬ ∃ fuel t, eraseAllSubString [] fuel ['a'] = some t := by
  rintro ⟨fuel, t, heq⟩
  rw [eraseAllSubString_nil] at heq
  cases heq

end Hisab.Logging
