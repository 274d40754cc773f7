import Hisab.Memory.BlockFields
import Hisab.Memory.EventErrors

/-!
# The live requests

Beside the allocator a ledger is kept of what the program has asked for and not handed back: the
size given to `allocate` under the pointer it returned. The table of live allocations agrees with
it in every state of a benign run, and every live block is as large as its request.
-/

namespace Hisab.Memory
open Hisab.Base CachingConfig Function AList Impl Option Machine

/-- Requested sizes by pointer. -/
abbrev RequestLedger := AList (fun _ : Nat ↦ Nat)

/-- The ledger after a step of an `allocate` for `size` bytes. -/
def RequestLedger.serve (live : RequestLedger) (size : Nat) : Reply → RequestLedger
  | .returned p => live.insert p size
  | _ => live

namespace Impl

variable {s t r : Impl} {b : BlockId} {B : CacheBlock} {k : PoolKind} {d : DriverAnswers}
  {done : Event → Prop} {live : RequestLedger} {reply : Reply}

/-- Table, requested sizes and ledger agree. -/
structure Ledgered (s : Impl) (live : RequestLedger) : Prop where
  lookup : ∀ p, live.lookup p = (s.allocatedBlocks.lookup p).map (fun b ↦ (s.deref b).requestedSize)
  fits : ∀ p b, s.allocatedBlocks.lookup p = some b → (s.deref b).requestedSize ≤ (s.deref b).size

/-- A live block that stays and keeps its requested size. -/
def KeepsRequest (s t : Impl) (b : BlockId) : Prop :=
  (t.deref b).requestedSize = (s.deref b).requestedSize ∧ (t.deref b).size = (s.deref b).size

theorem KeepsRequest.of_evolves (h : s.WellFormed .none) (he : Evolves done s t) {p : Nat}
    (hp : s.allocatedBlocks.lookup p = some b) : KeepsRequest s t b := by
  obtain ⟨B, hB, hal, _⟩ := h.live_of_lookup hp
  obtain ⟨X, hX, hu⟩ := map_eq_some_iff.mp (he.live b B hB hal)
  rw [KeepsRequest, deref_of hB, deref_of hX]
  exact ⟨(congrArg CacheBlock.requestedSize hu :), (congrArg CacheBlock.size hu :)⟩

namespace Ledgered

/-- The same allocations are live. -/
theorem same (h : Ledgered s live) (ht : t.allocatedBlocks = s.allocatedBlocks)
    (hk : ∀ p b, s.allocatedBlocks.lookup p = some b → KeepsRequest s t b) : Ledgered t live := by
  refine ⟨fun p ↦ ?_, fun p b hp ↦ ?_⟩
  · rw [h.lookup, ht]
    cases hp : s.allocatedBlocks.lookup p with
    | none => rfl
    | some b => rw [map_some, map_some, (hk p b hp).1]
  · rw [ht] at hp
    rw [(hk p b hp).1, (hk p b hp).2]
    exact h.fits p b hp

/-- One allocation is given up. -/
theorem erase (h : Ledgered s live) {q : Nat} (ht : t.allocatedBlocks = s.allocatedBlocks.erase q)
    (hk : ∀ p b, p ≠ q → s.allocatedBlocks.lookup p = some b → KeepsRequest s t b) :
    Ledgered t (live.erase q) := by
  refine ⟨fun p ↦ ?_, fun p b hp ↦ ?_⟩
  · by_cases hpq : p = q
    · subst hpq
      rw [ht, lookup_erase, lookup_erase, map_none]
    · rw [ht, lookup_erase_ne hpq, lookup_erase_ne hpq, h.lookup]
      cases hp : s.allocatedBlocks.lookup p with
      | none => rfl
      | some b => rw [map_some, map_some, (hk p b hpq hp).1]
  · by_cases hpq : p = q
    · subst hpq
      rw [ht, lookup_erase] at hp
      cases hp
    · rw [ht, lookup_erase_ne hpq] at hp
      rw [(hk p b hpq hp).1, (hk p b hpq hp).2]
      exact h.fits p b hp

/-- One allocation is handed out, at an address that no other has. -/
theorem insert (h : Ledgered s live) {q n : Nat}
    (ht : t.allocatedBlocks = s.allocatedBlocks.insert q b)
    (hb : (t.deref b).requestedSize = n) (hn : n ≤ (t.deref b).size)
    (hk : ∀ p b, s.allocatedBlocks.lookup p = some b → KeepsRequest s t b) :
    Ledgered t (live.insert q n) := by
  refine ⟨fun p ↦ ?_, fun p c hp ↦ ?_⟩
  · by_cases hpq : p = q
    · subst hpq
      rw [ht, lookup_insert, lookup_insert, map_some, hb]
    · rw [ht, lookup_insert_ne hpq, lookup_insert_ne hpq, h.lookup]
      cases hp : s.allocatedBlocks.lookup p with
      | none => rfl
      | some c => rw [map_some, map_some, (hk p c hp).1]
  · by_cases hpq : p = q
    · subst hpq
      rw [ht, lookup_insert] at hp
      cases hp
      rw [hb]
      exact hn
    · rw [ht, lookup_insert_ne hpq] at hp
      rw [(hk p c hp).1, (hk p c hp).2]
      exact h.fits p c hp

end Ledgered

/-! ### Handing out -/

/-- What a step of `allocate` for `size` bytes does to the table. -/
structure Books (s : Impl) (size : Nat) (reply : Reply) (r : Impl) : Prop where
  returned : ∀ p, reply = .returned p → ∃ c C, r.allocatedBlocks = s.allocatedBlocks.insert p c ∧
    r.heap c = some C ∧ C.requestedSize = size ∧ size ≤ C.size
  other : (∀ p, reply ≠ .returned p) → r.allocatedBlocks = s.allocatedBlocks

theorem Books.after {size : Nat} (h : Books t size reply r)
    (ht : t.allocatedBlocks = s.allocatedBlocks) : Books s size reply r :=
  ⟨fun p hp ↦ ht ▸ h.returned p hp, fun hp ↦ (h.other hp).trans ht⟩

theorem Books.of_same {size : Nat} (hr : ∀ p, reply ≠ .returned p)
    (ht : r.allocatedBlocks = s.allocatedBlocks) : Books s size reply r :=
  ⟨fun p hp ↦ absurd hp (hr p), fun _ ↦ ht⟩

namespace Ledgered

theorem of_progress (h : Ledgered s live) (hwf : s.WellFormed .none) (hp : Progress done s t) :
    Ledgered t live :=
  h.same hp.allocations (fun _ _ hb ↦ .of_evolves hwf hp.evolves hb)

/-- A step of a thread's `allocate`. -/
theorem of_serves {gained : Option RawSegment} {size : Nat} {stream : Stream} {reply : Reply}
    (h : Ledgered s live) (hwf : s.WellFormed .none)
    (hs : Serves done gained s size stream reply t) (hb : Books s size reply t) :
    Ledgered t (live.serve size reply) := by
  have hkeep (p : Nat) (b : BlockId) (hp : s.allocatedBlocks.lookup p = some b) :
      KeepsRequest s t b := .of_evolves hwf hs.evolves hp
  cases reply with
  | returned p =>
    obtain ⟨c, C, htable, hC, hreq, hfit⟩ := hb.returned p rfl
    apply h.insert htable _ _ hkeep
    · rw [deref_of hC]
      exact hreq
    · rw [deref_of hC]
      exact hfit
  | unlocked request | threw e | done => exact h.same (hb.other nofun) hkeep

end Ledgered
end Impl

/-! ### The ledger of a run -/

/-- The ledger after a step: `allocate` enters what it was asked for under the pointer it
returns, and a pointer that `deallocate` takes out of the live table is struck off. -/
def RequestLedger.after (live : RequestLedger) (m : Machine) (l : Operation × Reply)
    (m' : Machine) : RequestLedger :=
  match l with
  | (.allocate _ size _ _, reply) => live.serve size reply
  | (.resume t _, reply) =>
    match (m.threads t).request with
    | some request => live.serve request.size reply
    | none => live
  | (.deallocate p _ _, _) =>
    if p ∈ m.impl.allocatedBlocks ∧ p ∉ m'.impl.allocatedBlocks then live.erase p else live
  | _ => live

end Hisab.Memory
