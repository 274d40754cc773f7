import Hisab.Base.StableSort
import Hisab.Base.TransitionSystem
import Hisab.Unwind.Lexer

/-!
# Tables of address ranges

`RangeTable` of `Library/Profiler/bespoke/common/unwind/range_table.h`. A range is added as its
start with a payload and its end without one; a table is sorted at the next look-up after an
address that is smaller than the last one. How `std::sort` orders equivalent elements is a
parameter.
-/

namespace Hisab.Unwind

open Base List

variable {T : Type}

/-- The comparison of `maybeSort`: at one address, an end stands before a start. -/
def Before (a b : Nat × Option T) : Prop := a.1 < b.1 ∨ a.1 = b.1 ∧ a.2 = none ∧ b.2.isSome = true

/-- A result of `std::sort` for every table. -/
structure TableSort (T : Type) where
  sort : List (Nat × Option T) → List (Nat × Option T)
  perm : ∀ entries, (sort entries).Perm entries
  ordered : ∀ entries, (sort entries).Pairwise fun a b ↦ ¬ Before b a

/-- `RangeTable`, its addresses and payloads side by side. -/
structure RangeTable (T : Type) where
  sorted : Bool := true
  entries : List (Nat × Option T) := [(0, none)]

namespace RangeTable

/-- `add` (`range_table.h:20–29`). -/
def add (table : RangeTable T) (address : Nat) (payload : Option T) (sorted : Bool) :
    Except Fault (RangeTable T) :=
  let entries := table.entries ++ [(address, payload)]
  if address < (table.entries.getLastD (0, none)).1 then
    if sorted then .error (.unwindError "expected addresses to be sorted")
    else .ok { sorted := false, entries }
  else .ok { table with entries }

/-- `maybeSort` (`range_table.h:50–82`). -/
def maybeSort (order : TableSort T) (table : RangeTable T) : RangeTable T :=
  if table.sorted then table else { entries := order.sort table.entries }

/-- `find` (`range_table.h:30–35`): what stands before the first address above this one. -/
def find (order : TableSort T) (table : RangeTable T) (address : Nat) : Option T × RangeTable T :=
  let table := table.maybeSort order
  ((table.entries.takeWhile fun e ↦ e.1 ≤ address).getLast?.bind Prod.snd, table)

/-- `back` (`range_table.h:44–48`). -/
def back (order : TableSort T) (table : RangeTable T) : Nat × RangeTable T :=
  let table := table.maybeSort order
  ((table.entries.getLastD (0, none)).1, table)

variable {entries : List (Nat × Option T)} {e : Nat × Option T} {x : Nat}

theorem le_of_not_before {d : Nat × Option T} (h : ¬ Before d e) : e.1 ≤ d.1 :=
  not_lt.mp fun hlt ↦ h (.inl hlt)

theorem le_getLast (h : entries.Pairwise fun a b ↦ ¬ Before b a) (he : e ∈ entries) :
    e.1 ≤ (entries.getLastD (0, none)).1 := by
  cases eq_nil_or_concat' entries with
  | inl hnil =>
    rw [hnil] at he
    cases he
  | inr hconcat =>
    obtain ⟨init, last, rfl⟩ := hconcat
    rw [getLastD_concat]
    cases mem_append.mp he with
    | inl he => exact le_of_not_before ((pairwise_append.mp h).2.2 e he last mem_cons_self)
    | inr he => exact (mem_singleton.mp he) ▸ le_rfl

end RangeTable

/-! ### Histories of a table -/

/-- A half-open range with its payload. -/
structure Range (T : Type) where
  start : Nat
  stop : Nat
  payload : T
  lt : start < stop

namespace Range

variable (r q : Range T)

def Contains (x : Nat) : Prop := r.start ≤ x ∧ x < r.stop

instance (x : Nat) : Decidable (r.Contains x) := inferInstanceAs (Decidable (_ ∧ _))

/-- Two ranges without a common address. -/
def Apart : Prop := ∀ x, r.Contains x → ¬ q.Contains x

instance : Std.Symm (Apart : Range T → Range T → Prop) where
  symm _ _ h x hq hr := h x hr hq

/-- What is added for a range. -/
def entries : List (Nat × Option T) := [(r.start, some r.payload), (r.stop, none)]

end Range

/-- A table, the ranges that have been added, and the one of which only the start has. -/
structure TableHistory (T : Type) where
  table : RangeTable T := {}
  added : List (Range T) := []
  pending : Option (Range T) := none

inductive TableOp (T : Type)
  | addStart (r : Range T)
  | addStop
  | find (address : Nat)
  | back

namespace TableHistory

/-- A new range has no address in common with the others; its start is followed by its end, with
look-ups anywhere. -/
def step (order : TableSort T) (s : TableHistory T) : TableOp T → TableHistory T → Prop
  | .addStart r, s' => s.pending = none ∧ (∀ q ∈ s.added, q.Apart r) ∧
      ∃ table, s.table.add r.start (some r.payload) false = .ok table ∧
        s' = { s with table, pending := some r }
  | .addStop, s' => ∃ r table, s.pending = some r ∧ s.table.add r.stop none false = .ok table ∧
      s' = { table, added := s.added ++ [r] }
  | .find address, s' => s' = { s with table := (s.table.find order address).2 }
  | .back, s' => s' = { s with table := (s.table.back order).2 }

/-- What has been added, in some order. -/
def expected (s : TableHistory T) : List (Nat × Option T) :=
  (0, none) :: (s.added.flatMap Range.entries ++
    s.pending.toList.map fun r ↦ (r.start, some r.payload))

structure Ok (s : TableHistory T) : Prop where
  perm : s.table.entries.Perm s.expected
  ordered : s.table.sorted = true → s.table.entries.Pairwise fun a b ↦ ¬ Before b a
  apart : (s.added ++ s.pending.toList).Pairwise Range.Apart

variable {order : TableSort T} {s s' : TableHistory T} {r q : Range T} {x : Nat}

/-- An element that comes after all others of a sorted table leaves it sorted. -/
theorem ordered_add {table table' : RangeTable T} {address : Nat} {payload : Option T}
    (h : table.add address payload false = .ok table')
    (hordered : table.sorted = true → table.entries.Pairwise fun a b ↦ ¬ Before b a)
    (hlast : (∀ d ∈ table.entries, d.1 ≤ address) →
      ∀ e ∈ table.entries, ¬ Before (address, payload) e) :
    table'.entries = table.entries ++ [(address, payload)] ∧
      (table'.sorted = true → table'.entries.Pairwise fun a b ↦ ¬ Before b a) := by
  rw [RangeTable.add] at h
  split at h
  · cases h
    exact ⟨rfl, nofun⟩
  · next hle =>
    cases h
    refine ⟨rfl, fun hsorted ↦ ?_⟩
    have hbound : ∀ d ∈ table.entries, d.1 ≤ address := fun d hd ↦
      (RangeTable.le_getLast (hordered hsorted) hd).trans (not_lt.mp hle)
    refine pairwise_append.mpr ⟨hordered hsorted, pairwise_singleton .., ?_⟩
    intro e he d hd
    obtain rfl := mem_singleton.mp hd
    exact hlast hbound e he

/-- What is in a table: the first element, or the start or the end of a range. -/
theorem Ok.mem_entries (h : s.Ok) {e : Nat × Option T} : e ∈ s.table.entries ↔
    e = (0, none) ∨ (∃ r ∈ s.added, e = (r.start, some r.payload) ∨ e = (r.stop, none)) ∨
      ∃ r ∈ s.pending, e = (r.start, some r.payload) := by
  rw [h.perm.mem_iff]
  simp [expected, Range.entries, eq_comm]

theorem Ok.addStart (h : s.Ok) (hpending : s.pending = none) (hr : ∀ q ∈ s.added, q.Apart r)
    {table : RangeTable T} (hadd : s.table.add r.start (some r.payload) false = .ok table) :
    Ok { s with table, pending := some r } := by
  obtain ⟨hentries, hordered⟩ := ordered_add hadd h.ordered (by
    rintro hbound e he (hlt | ⟨-, hnone, -⟩)
    · exact not_lt.mpr (hbound e he) hlt
    · cases hnone)
  refine ⟨?_, hordered, ?_⟩
  · rw [hentries]
    have hperm := h.perm.append_right [(r.start, some r.payload)]
    simpa [expected, hpending] using hperm
  · have hapart := h.apart
    rw [hpending] at hapart
    simpa [pairwise_append] using ⟨by simpa using hapart, hr⟩

/-- No start stands at the end of the range that is being added: the range of that start would end
behind it. -/
theorem Ok.addStop (h : s.Ok) (hpending : s.pending = some r)
    {table : RangeTable T} (hadd : s.table.add r.stop none false = .ok table) :
    Ok { table, added := s.added ++ [r] } := by
  obtain ⟨hentries, hordered⟩ := ordered_add hadd h.ordered (by
    rintro hbound e he (hlt | ⟨heq, -, hsome⟩)
    · exact not_lt.mpr (hbound e he) hlt
    · rcases h.mem_entries.mp he with rfl | ⟨q, hq, rfl | rfl⟩ | ⟨q, hq, rfl⟩
      · cases hsome
      · have hstop := hbound _ (h.mem_entries.mpr (.inr (.inl ⟨q, hq, .inr rfl⟩)))
        exact absurd q.lt (not_lt.mpr (hstop.trans_eq heq))
      · cases hsome
      · obtain rfl := Option.some.inj (hpending.symm.trans hq)
        exact absurd heq r.lt.ne')
  refine ⟨?_, hordered, ?_⟩
  · rw [hentries]
    have hperm := h.perm.append_right [(r.stop, none)]
    simpa [expected, hpending, Range.entries] using hperm
  · simpa [hpending] using h.apart

theorem Ok.maybeSort (h : s.Ok) (order : TableSort T) :
    Ok { s with table := s.table.maybeSort order } := by
  rw [RangeTable.maybeSort]
  split
  · exact h
  · exact ⟨(order.perm _).trans h.perm, fun _ ↦ order.ordered _, h.apart⟩

theorem Ok.step {op : TableOp T} (h : s.Ok) (hstep : step order s op s') : s'.Ok := by
  cases op with
  | addStart r =>
    obtain ⟨hpending, hr, table, hadd, rfl⟩ := hstep
    exact h.addStart hpending hr hadd
  | addStop =>
    obtain ⟨r, table, hpending, hadd, rfl⟩ := hstep
    exact h.addStop hpending hadd
  | find address | back => exact hstep ▸ h.maybeSort order

end TableHistory

end Hisab.Unwind
