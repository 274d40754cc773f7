import Hisab.Profiler.LockFreeQueue

/-!
# The chain of blocks

The blocks from `start_block_` to `end_block_`, numbered from the first block of all: block
`k` holds the slots of the elements `k * kNumSlots` to `k * kNumSlots + kNumSlots - 1` of all
that are ever pushed. What an access of one block, a new link and a freed block do to the
chain and to the slots.
-/

namespace Hisab.Profiler

open Base Function

/-- Which blocks the chain has, where they are, how many elements have been taken, and those
that are published and not taken. -/
structure Placement (T : Type) where
  first : Nat
  last : Nat
  address : Nat → Nat
  taken : Nat
  unread : List T

/-- How many elements have been published. -/
def Placement.published {T : Type} (p : Placement T) : Nat := p.taken + p.unread.length

/-- The block of that number is in the chain. -/
def Placement.Has {T : Type} (p : Placement T) (k : Nat) : Prop := p.first ≤ k ∧ k ≤ p.last

variable {T : Type} {n j k a : Nat} {blocks : Nat → Option (Block T)} {p : Placement T}
  {b : Block T} {v : Option T}

/-- The slot of element `j`. -/
def Placement.slotAt (p : Placement T) (n : Nat) (blocks : Nat → Option (Block T)) (j : Nat) :
    Option T :=
  (blocks (p.address (j / n))).bind fun b ↦ b.slots (j % n)

/-- The blocks of the chain are allocated at different addresses, start where their number
says, and each links to the next one. -/
structure Chained (n : Nat) (blocks : Nat → Option (Block T)) (p : Placement T) : Prop where
  le : p.first ≤ p.last
  inj : ∀ j k, p.Has j → p.Has k → p.address j = p.address k → j = k
  header : ∀ k, p.Has k → ∃ b, blocks (p.address k) = some b ∧ b.start = k * n % SizeT.modulus ∧
    b.next = if k < p.last then some (p.address (k + 1)) else none

theorem block_of_index (hk : k * n ≤ j) (hj : j < (k + 1) * n) : j / n = k ∧ j % n = j - k * n := by
  have hdiv : j / n = k := Nat.div_eq_of_lt_le hk hj
  have hmod := Nat.div_add_mod j n
  rw [hdiv, Nat.mul_comm] at hmod
  exact ⟨hdiv, by omega⟩

namespace Chained

theorem has_first (h : Chained n blocks p) : p.Has p.first := ⟨le_rfl, h.le⟩

theorem has_last (h : Chained n blocks p) : p.Has p.last := ⟨h.le, le_rfl⟩

/-- What lies outside the chain may change. -/
theorem outside (h : Chained n blocks p) (ha : ∀ k, p.Has k → p.address k ≠ a)
    (v : Option (Block T)) : Chained n (update blocks a v) p where
  le := h.le
  inj := h.inj
  header k hk := by
    rw [update_of_ne (ha k hk)]
    exact h.header k hk

/-- A slot of a block of the chain may change. -/
theorem writeSlot (h : Chained n blocks p) (hk : p.Has k)
    (hb : blocks (p.address k) = some b) (index : Nat) (v : Option T) :
    Chained n (update blocks (p.address k) (some (b.put index v))) p where
  le := h.le
  inj := h.inj
  header k' hk' := by
    by_cases heq : k' = k
    · subst heq
      obtain ⟨b', hb', hstart, hnext⟩ := h.header k' hk'
      obtain rfl : b' = b := Option.some.inj (hb'.symm.trans hb)
      exact ⟨_, update_self .., hstart, hnext⟩
    · have hne : p.address k' ≠ p.address k := fun hadr ↦ heq (h.inj k' k hk' hk hadr)
      rw [update_of_ne hne]
      exact h.header k' hk'

/-- A write changes the slot it is for and no other. -/
theorem slotAt_writeSlot (h : Chained n blocks p) {j₀ : Nat} (hj₀ : p.Has (j₀ / n))
    (hb : blocks (p.address (j₀ / n)) = some b) (v : Option T) (hj : p.Has (j / n)) :
    p.slotAt n (update blocks (p.address (j₀ / n)) (some (b.put (j₀ % n) v))) j =
      if j = j₀ then v else p.slotAt n blocks j := by
  by_cases hdiv : j / n = j₀ / n
  · rw [Placement.slotAt, hdiv, update_self]
    by_cases hmod : j % n = j₀ % n
    · have heq : j = j₀ := by rw [← Nat.div_add_mod j n, hdiv, hmod, Nat.div_add_mod]
      rw [if_pos heq, hmod]
      exact update_self ..
    · have hne : j ≠ j₀ := fun heq ↦ hmod (congrArg (· % n) heq)
      rw [if_neg hne, Placement.slotAt, hdiv, hb]
      exact update_of_ne hmod ..
  · have hadr : p.address (j / n) ≠ p.address (j₀ / n) := fun heq ↦ hdiv (h.inj _ _ hj hj₀ heq)
    have hne : j ≠ j₀ := fun heq ↦ hdiv (congrArg (· / n) heq)
    rw [if_neg hne, Placement.slotAt, update_of_ne hadr, Placement.slotAt]

/-- A slot of the chain does not depend on what lies outside. -/
theorem slotAt_outside (ha : ∀ k, p.Has k → p.address k ≠ a) (v : Option (Block T))
    (hj : p.Has (j / n)) : p.slotAt n (update blocks a v) j = p.slotAt n blocks j := by
  rw [Placement.slotAt, update_of_ne (ha _ hj), Placement.slotAt]

end Chained

/-- The chain with the block at `a` behind the last one. -/
def Placement.extend (p : Placement T) (a : Nat) : Placement T :=
  { p with last := p.last + 1, address := update p.address (p.last + 1) a }

theorem Placement.extend_address (hk : p.Has k) : (p.extend a).address k = p.address k :=
  update_of_ne (by have := hk.2; omega) ..

theorem Placement.extend_address_last : (p.extend a).address (p.last + 1) = a := update_self ..

theorem Placement.has_extend (h : p.first ≤ p.last) :
    (p.extend a).Has k ↔ p.Has k ∨ k = p.last + 1 := by
  simp only [Has, extend]
  omega

namespace Chained

/-- A block that is allocated for the next number and linked to the last one extends the
chain. -/
theorem link (h : Chained n blocks p) (hb : blocks (p.address p.last) = some b)
    (ha : ∀ k, p.Has k → p.address k ≠ a) {c : Block T} (hc : blocks a = some c)
    (hstart : c.start = (p.last + 1) * n % SizeT.modulus) (hnext : c.next = none) :
    Chained n (update blocks (p.address p.last) (some { b with next := some a })) (p.extend a) where
  le := Nat.le_succ_of_le h.le
  inj j k hj hk heq := by
    rw [Placement.has_extend h.le] at hj hk
    rcases hj with hj | rfl <;> rcases hk with hk | rfl
    · rw [Placement.extend_address hj, Placement.extend_address hk] at heq
      exact h.inj j k hj hk heq
    · rw [Placement.extend_address hj, Placement.extend_address_last] at heq
      exact absurd heq (ha j hj)
    · rw [Placement.extend_address hk, Placement.extend_address_last] at heq
      exact absurd heq.symm (ha k hk)
    · rfl
  header k hk := by
    rw [Placement.has_extend h.le] at hk
    have hlast : (p.extend a).last = p.last + 1 := rfl
    rcases hk with hk | rfl
    · obtain ⟨b', hb', hstart', hnext'⟩ := h.header k hk
      have hlt : k < p.last + 1 := Nat.lt_succ_of_le hk.2
      rw [Placement.extend_address hk, hlast, if_pos hlt]
      by_cases heq : k = p.last
      · subst heq
        obtain rfl : b' = b := Option.some.inj (hb'.symm.trans hb)
        refine ⟨_, update_self .., hstart', ?_⟩
        rw [Placement.extend_address_last]
      · have hne : p.address k ≠ p.address p.last := fun hadr ↦
          heq (h.inj k p.last hk h.has_last hadr)
        rw [update_of_ne hne]
        have hhas : p.Has (k + 1) := ⟨by have := hk.1; omega, by omega⟩
        refine ⟨b', hb', hstart', ?_⟩
        rw [hnext', if_pos (by omega), Placement.extend_address hhas]
    · rw [Placement.extend_address_last, update_of_ne (ha p.last h.has_last).symm, hlast, if_neg (lt_irrefl _)]
      exact ⟨c, hc, hstart, hnext⟩

/-- A new link leaves the slots of the blocks before it as they are. -/
theorem slotAt_link (h : Chained n blocks p) (hb : blocks (p.address p.last) = some b)
    (hj : p.Has (j / n)) :
    (p.extend a).slotAt n (update blocks (p.address p.last) (some { b with next := some a })) j =
      p.slotAt n blocks j := by
  rw [Placement.slotAt, Placement.extend_address hj, Placement.slotAt]
  by_cases heq : j / n = p.last
  · rw [heq, update_self, hb, Option.bind_some, Option.bind_some]
  · have hne : p.address (j / n) ≠ p.address p.last := fun hadr ↦ heq (h.inj _ _ hj h.has_last hadr)
    rw [update_of_ne hne]

/-- The chain without its first block. -/
theorem leave (h : Chained n blocks p) (hlt : p.first < p.last) :
    Chained n blocks { p with first := p.first + 1 } where
  le := hlt
  inj j k hj hk := h.inj j k ⟨Nat.le_of_succ_le hj.1, hj.2⟩ ⟨Nat.le_of_succ_le hk.1, hk.2⟩
  header k hk := h.header k ⟨Nat.le_of_succ_le hk.1, hk.2⟩

/-- The first block is not in the chain that is left. -/
theorem leave_outside (h : Chained n blocks p)
    (hk : ({ p with first := p.first + 1 } : Placement T).Has k) :
    p.address k ≠ p.address p.first := fun heq ↦ by
  have := h.inj k p.first ⟨Nat.le_of_succ_le hk.1, hk.2⟩ h.has_first heq
  have := hk.1
  simp only at this
  omega

end Chained
end Hisab.Profiler
