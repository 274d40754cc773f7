import Hisab.Profiler.BlockChain

/-!
# The queue holds what is published and not taken

The invariant of `LockFreeQueue`. The elements that are published and not taken stand in the
slots of the chain from `start_` to `end_`, the slots before them are empty, and both indices
are the representatives modulo `2^64` of the true ones: the blocks that live fit in the
address space, so the two are less than `2^64` apart.
-/

namespace Hisab.Profiler

open Base

variable {T : Type} {layout : BlockLayout} {s : QueueState T} {p : Placement T}
  {blocks blocks' : Nat → Option (Block T)}

/-- What holds of the chain while the producer is there. -/
def ProducerPc.Ok (n : Nat) (blocks : Nat → Option (Block T)) (p : Placement T) :
    ProducerPc T → Prop
  | .idle => p.last * n ≤ p.published ∧ p.published < (p.last + 1) * n
  | .allocating x last => last = (p.published + 1) % SizeT.modulus ∧
      p.published + 1 = (p.last + 1) * n ∧ p.slotAt n blocks p.published = some x
  | .linking x last newBlock => last = (p.published + 1) % SizeT.modulus ∧
      p.published + 1 = (p.last + 1) * n ∧ p.slotAt n blocks p.published = some x ∧
      (∃ c, blocks newBlock = some c ∧ c.start = last ∧ c.next = none) ∧
      ∀ k, p.Has k → p.address k ≠ newBlock
  | .publishing x last => last = (p.published + 1) % SizeT.modulus ∧
      p.last * n ≤ p.published + 1 ∧ p.published + 1 < (p.last + 1) * n ∧
      p.slotAt n blocks p.published = some x

/-- The `end` of a call was the published one when it was read. -/
def Placement.SeenEnd (p : Placement T) (last : Nat) : Prop :=
  ∃ seen, last = seen % SizeT.modulus ∧ p.taken ≤ seen ∧ seen ≤ p.published

/-- What holds of the chain while the consumer is there. -/
def ConsumerPc.Ok (n : Nat) (blocks : Nat → Option (Block T)) (p : Placement T) :
    ConsumerPc T → Prop
  | .idle => p.taken < (p.first + 1) * n
  | .taking _ last => p.taken < (p.first + 1) * n ∧ p.SeenEnd last ∧ last ≠ p.taken % SizeT.modulus
  | .leaving _ last _ => p.taken = (p.first + 1) * n ∧ p.SeenEnd last
  | .deleting _ last _ oldBlock => p.taken < (p.first + 1) * n ∧ p.SeenEnd last ∧
      (∃ b, blocks oldBlock = some b ∧ ∀ i < n, b.slots i = none) ∧
      ∀ k, p.Has k → p.address k ≠ oldBlock
  | .returning _ last _ => p.taken < (p.first + 1) * n ∧ p.SeenEnd last

/-- The producer depends on the end of the chain and on the block it is about to link. -/
theorem ProducerPc.Ok.congr {n : Nat} {p' : Placement T} {pc : ProducerPc T} (h : pc.Ok n blocks p)
    (hlast : p'.last = p.last) (hpublished : p'.published = p.published)
    (hslot : p'.slotAt n blocks' p.published = p.slotAt n blocks p.published)
    (hchain : ∀ k, p'.Has k → p.Has k ∧ p'.address k = p.address k)
    (hnew : ∀ x last a, pc = .linking x last a → blocks' a = blocks a) : pc.Ok n blocks' p' := by
  cases pc with
  | idle => rwa [Ok, hlast, hpublished]
  | allocating x last => rwa [Ok, hlast, hpublished, hslot]
  | linking x last a =>
    rw [Ok, hlast, hpublished, hslot, hnew x last a rfl]
    obtain ⟨hidx, hfull, hx, hblock, haway⟩ := h
    refine ⟨hidx, hfull, hx, hblock, fun k hk ↦ ?_⟩
    rw [(hchain k hk).2]
    exact haway k (hchain k hk).1
  | publishing x last => rwa [Ok, hlast, hpublished, hslot]

theorem Placement.SeenEnd.mono {p' : Placement T} {last : Nat} (h : p.SeenEnd last)
    (htaken : p'.taken = p.taken) (hpublished : p.published ≤ p'.published) :
    p'.SeenEnd last := by
  obtain ⟨seen, hseen, hle, hpub⟩ := h
  exact ⟨seen, hseen, htaken ▸ hle, Nat.le_trans hpub hpublished⟩

/-- The consumer depends on the start of the chain and on the block it is about to free. -/
theorem ConsumerPc.Ok.congr {n : Nat} {p' : Placement T} {pc : ConsumerPc T} (h : pc.Ok n blocks p)
    (hfirst : p'.first = p.first) (htaken : p'.taken = p.taken)
    (hpublished : p.published ≤ p'.published)
    (hold : ∀ call last x a, pc = .deleting call last x a → blocks' a = blocks a ∧ ∀ k, p'.Has k → p'.address k ≠ a)
    : pc.Ok n blocks' p' := by
  cases pc with
  | idle => rwa [Ok, hfirst, htaken]
  | taking call last =>
    rw [Ok, hfirst, htaken]
    exact ⟨h.1, h.2.1.mono htaken hpublished, h.2.2⟩
  | leaving call last x =>
    rw [Ok, hfirst, htaken]
    exact ⟨h.1, h.2.mono htaken hpublished⟩
  | deleting call last x a =>
    obtain ⟨hblock, haway⟩ := hold call last x a rfl
    rw [Ok, hfirst, htaken, hblock]
    exact ⟨h.1, h.2.1.mono htaken hpublished, h.2.2.1, haway⟩
  | returning call last x =>
    rw [Ok, hfirst, htaken]
    exact ⟨h.1, h.2.mono htaken hpublished⟩

/-- The blocks of the producer that are not in the chain yet. -/
def ProducerPc.spare : ProducerPc T → Nat
  | .linking _ _ _ => 1
  | _ => 0

/-- The blocks of the consumer that are no longer in the chain. -/
def ConsumerPc.spare : ConsumerPc T → Nat
  | .deleting _ _ _ _ => 1
  | _ => 0

/-- The state agrees with the placement of the elements. -/
structure QueueInv (layout : BlockLayout) (s : QueueState T) (p : Placement T) : Prop where
  chained : Chained layout.kNumSlots s.blocks p
  startBlock : s.startBlock = p.address p.first
  endBlock : s.endBlock = p.address p.last
  start : s.start = p.taken % SizeT.modulus
  endIndex : s.endIndex = p.published % SizeT.modulus
  run : (fifo T).Run [] s.history p.unread
  hand : dequeued s.history = s.received ++ s.consumer.inHand
  unread : ∀ j < p.unread.length, p.slotAt layout.kNumSlots s.blocks (p.taken + j) = p.unread[j]?
  read : ∀ j, p.first * layout.kNumSlots ≤ j → j < p.taken →
    p.slotAt layout.kNumSlots s.blocks j = none
  first_le : p.first * layout.kNumSlots ≤ p.taken
  live : s.liveBlocks = p.last - p.first + 1 + s.producer.spare + s.consumer.spare
  room : s.liveBlocks * layout.kBlockSize ≤ SizeT.modulus
  producer : s.producer.Ok layout.kNumSlots s.blocks p
  consumer : s.consumer.Ok layout.kNumSlots s.blocks p
  apart : ∀ x last newBlock call last' y oldBlock, s.producer = .linking x last newBlock →
    s.consumer = .deleting call last' y oldBlock → oldBlock ≠ newBlock

namespace QueueInv

/-- The slots of the chain have different indices modulo `2^64`. -/
theorem span (h : QueueInv layout s p) :
    (p.last + 1) * layout.kNumSlots < p.first * layout.kNumSlots + SizeT.modulus := by
  have hle := h.chained.le
  have hcount : p.last - p.first + 1 ≤ s.liveBlocks := by
    have := h.live
    omega
  have hlt : (p.last - p.first + 1) * layout.kNumSlots <
      (p.last - p.first + 1) * layout.kBlockSize :=
    Nat.mul_lt_mul_of_pos_left layout.kNumSlots_lt (Nat.succ_pos _)
  have hroom := Nat.le_trans (Nat.mul_le_mul_right layout.kBlockSize hcount) h.room
  have hsplit : (p.last + 1) * layout.kNumSlots =
      p.first * layout.kNumSlots + (p.last - p.first + 1) * layout.kNumSlots := by
    rw [← Nat.add_mul]
    congr 1
    omega
  omega

theorem published_lt (h : QueueInv layout s p) : p.published < (p.last + 1) * layout.kNumSlots := by
  have hp := h.producer
  cases hpc : s.producer with
  | idle => rw [hpc] at hp; exact hp.2
  | allocating x last | linking x last newBlock => rw [hpc] at hp; have := hp.2.1; omega
  | publishing x last => rw [hpc] at hp; have := hp.2.2.1; omega

theorem taken_le (p : Placement T) : p.taken ≤ p.published := Nat.le_add_right ..

/-- The blocks of the elements from the first slot on are in the chain. -/
theorem has_block (h : QueueInv layout s p) {j : Nat} (hfirst : p.first * layout.kNumSlots ≤ j)
    (hj : j ≤ p.published) : p.Has (j / layout.kNumSlots) := by
  have hpos := layout.kNumSlots_pos
  have hlt := h.published_lt
  refine ⟨(Nat.le_div_iff_mul_le hpos).mpr hfirst, Nat.le_of_lt_succ ?_⟩
  exact (Nat.div_lt_iff_lt_mul hpos).mpr (Nat.lt_of_le_of_lt hj hlt)

/-- A step outside of the slots from the first one on to the published end keeps the
elements where they are. -/
theorem slots_congr (h : QueueInv layout s p) {blocks : Nat → Option (Block T)} {q : Placement T}
    (heq : ∀ j, p.first * layout.kNumSlots ≤ j → j ≤ p.published →
      q.slotAt layout.kNumSlots blocks j = p.slotAt layout.kNumSlots s.blocks j) :
    (∀ j < p.unread.length, q.slotAt layout.kNumSlots blocks (p.taken + j) = p.unread[j]?) ∧
    (∀ j, p.first * layout.kNumSlots ≤ j → j < p.taken →
      q.slotAt layout.kNumSlots blocks j = none) := by
  have hle := h.first_le
  refine ⟨fun j hj ↦ ?_, fun j hfirst hj ↦ ?_⟩
  · rw [heq _ (by omega) (by rw [Placement.published]; omega)]
    exact h.unread j hj
  · rw [heq j hfirst (by rw [Placement.published]; omega)]
    exact h.read j hfirst hj

end QueueInv
end Hisab.Profiler
