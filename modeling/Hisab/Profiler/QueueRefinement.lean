import Hisab.Profiler.QueueInvariant

/-!
# The queue refines first in, first out

Each step of the producer and of the consumer meets no fault and keeps the invariant, so in
every interleaving the operations that have taken effect are a run of the abstract queue.
-/

namespace Hisab.Profiler

open Base Function Nat QueueState SizeT Placement List

variable {T : Type} {layout : BlockLayout} {s : QueueState T} {p : Placement T}

theorem QueueState.block_eq {address : Nat} {b : Block T} (hb : s.blocks address = some b) :
    s.block address = .ok b := by
  rw [block, hb]

namespace QueueInv

/-! ### The producer -/

/-- `emplace` writes the slot of the next element to be published. -/
theorem emplace (h : QueueInv layout s p) (hpc : s.producer = .idle) (x : T) :
    ∃ s', s.emplace layout x = .ok s' ∧ QueueInv layout s' p := by
  have hlt := h.published_lt
  have hfirst := h.first_le
  have htaken := taken_le p
  have hidle := h.producer
  rw [hpc] at hidle
  have hdist : p.last * layout.kNumSlots ≤ p.published := hidle.1
  have hmul : (p.last + 1) * layout.kNumSlots = p.last * layout.kNumSlots + layout.kNumSlots :=
    Nat.add_one_mul ..
  have hpos := layout.kNumSlots_lt
  have haddr := layout.addressable
  obtain ⟨b, hb, hstart, hnext⟩ := h.chained.header p.last h.chained.has_last
  obtain ⟨hdiv, hmod⟩ := block_of_index hdist hlt
  have hindex : sub s.endIndex b.start = p.published % layout.kNumSlots := by
    rw [h.endIndex, hstart, sub_mod hdist (by omega), hmod]
  have hlast : add s.endIndex 1 = (p.published + 1) % modulus := by rw [h.endIndex, SizeT.add_mod]
  have hfull : sub ((p.published + 1) % modulus) b.start =
      p.published + 1 - p.last * layout.kNumSlots := by
    rw [hstart, sub_mod (by omega) (by omega)]
  have hrun : s.emplace layout x = .ok { s.setBlock (p.address p.last)
      (b.put (p.published % layout.kNumSlots) (some x)) with
      producer := if p.published + 1 - p.last * layout.kNumSlots = layout.kNumSlots then
        .allocating x ((p.published + 1) % modulus)
        else .publishing x ((p.published + 1) % modulus) } := by
    have hin : ¬ layout.kNumSlots ≤ p.published % layout.kNumSlots := by omega
    simp only [QueueState.emplace, h.endBlock, block_eq hb, bind, Except.bind, hindex,
      if_neg hin, hlast, hfull, pure, Except.pure]
  refine ⟨_, hrun, ?_⟩
  have hhas : p.Has (p.published / layout.kNumSlots) := hdiv ▸ h.chained.has_last
  have hslot : ∀ j, p.Has (j / layout.kNumSlots) → p.slotAt layout.kNumSlots
      (update s.blocks (p.address p.last)
        (some (b.put (p.published % layout.kNumSlots) (some x)))) j =
      if j = p.published then some x else p.slotAt layout.kNumSlots s.blocks j := fun j hj ↦ by
    have := h.chained.slotAt_writeSlot hhas (by rwa [hdiv]) (some x) hj
    rwa [hdiv] at this
  have hblocks : ∀ a, (∃ c, s.blocks a = some c) → (∀ k, p.Has k → p.address k ≠ a) →
      update s.blocks (p.address p.last)
        (some (b.put (p.published % layout.kNumSlots) (some x))) a = s.blocks a :=
    fun a _ haway ↦ update_of_ne (haway _ h.chained.has_last).symm ..
  exact {
    chained := h.chained.writeSlot h.chained.has_last hb _ _
    startBlock := h.startBlock
    endBlock := h.endBlock
    start := h.start
    endIndex := h.endIndex
    run := h.run
    hand := h.hand
    unread := fun j hj ↦ by
      have hne : p.taken + j ≠ p.published := by rw [published]; omega
      have hle : p.taken + j ≤ p.published := by rw [published]; omega
      exact (hslot _ (h.has_block (by omega) hle)).trans ((if_neg hne).trans (h.unread j hj))
    read := fun j hj hjt ↦ by
      exact (hslot _ (h.has_block hj (by omega))).trans
        ((if_neg (by omega)).trans (h.read j hj hjt))
    first_le := h.first_le
    live := by
      have hlive := h.live
      rw [hpc] at hlive
      rw [show ({ s.setBlock _ _ with producer := _ } : QueueState T).liveBlocks =
        s.liveBlocks from rfl, hlive]
      split <;> rfl
    room := h.room
    producer := by
      have hx := (hslot _ hhas).trans (if_pos rfl)
      split
      · exact ⟨rfl, by omega, hx⟩
      · exact ⟨rfl, by omega, by omega, hx⟩
    consumer := h.consumer.congr rfl rfl le_rfl fun call last y a hcons ↦ by
      have hdel := h.consumer
      rw [hcons] at hdel
      obtain ⟨c, hc, -⟩ := hdel.2.2.1
      exact ⟨hblocks a ⟨c, hc⟩ hdel.2.2.2, hdel.2.2.2⟩
    apart := fun y last newBlock call last' z oldBlock hprod ↦ by split at hprod <;> cases hprod }

/-- A free address is outside of the chain. -/
theorem address_ne (h : QueueInv layout s p) {a : Nat} (ha : s.blocks a = none) {k : Nat}
    (hk : p.Has k) : p.address k ≠ a := by
  rintro rfl
  obtain ⟨b, hb, -⟩ := h.chained.header k hk
  rw [ha] at hb
  cases hb

variable {x : T}

theorem allocate (h : QueueInv layout s p) {last a : Nat} (hpc : s.producer = .allocating x last)
    (ha : s.blocks a = none) (hroom : (s.liveBlocks + 1) * layout.kBlockSize ≤ SizeT.modulus) :
    QueueInv layout (s.allocate x last a) p := by
  have haway : ∀ k, p.Has k → p.address k ≠ a := fun k hk ↦ h.address_ne ha hk
  have hslots := h.slots_congr fun j hj hle ↦
    Chained.slotAt_outside haway (some { start := last }) (h.has_block hj hle)
  have hprod := h.producer
  have hdel : ∀ call last' y old, s.consumer = .deleting call last' y old → old ≠ a := by
    rintro call last' y old hc rfl
    have := h.consumer
    rw [hc] at this
    obtain ⟨b, hb, -⟩ := this.2.2.1
    rw [ha] at hb
    cases hb
  rw [hpc] at hprod
  exact {
    chained := h.chained.outside haway _
    startBlock := h.startBlock
    endBlock := h.endBlock
    start := h.start
    endIndex := h.endIndex
    run := h.run
    hand := h.hand
    unread := hslots.1
    read := hslots.2
    first_le := h.first_le
    live := by
      have hlive := h.live
      rw [hpc] at hlive
      simp only [QueueState.allocate, setBlock, ProducerPc.spare] at hlive ⊢
      omega
    room := hroom
    producer := by
      have hlast := h.has_block (le_trans h.first_le (taken_le p)) le_rfl
      refine ⟨hprod.1, hprod.2.1, (Chained.slotAt_outside haway _ hlast).trans hprod.2.2, ?_, haway⟩
      exact ⟨_, update_self a _ _, rfl, rfl⟩
    consumer := h.consumer.congr rfl rfl le_rfl fun call last' y old hc ↦ by
      refine ⟨update_of_ne (hdel call last' y old hc) .., ?_⟩
      have := h.consumer
      rw [hc] at this
      exact this.2.2.2
    apart := fun y last' newBlock call last'' z old hp hc ↦ by
      obtain ⟨-, -, rfl⟩ := ProducerPc.linking.inj hp
      exact hdel call last'' z old hc }

variable {last : Nat}

/-- `push` throws; its element is not published. -/
theorem allocationFails (h : QueueInv layout s p) (hpc : s.producer = .allocating x last) :
    QueueInv layout { s with producer := .idle } p := by
  have hprod := h.producer
  have hlive := h.live
  have hmul : (p.last + 1) * layout.kNumSlots = p.last * layout.kNumSlots + layout.kNumSlots :=
    Nat.add_one_mul ..
  have hpos := layout.kNumSlots_pos
  rw [hpc] at hprod hlive
  have hfull := hprod.2.1
  exact { h with
    live := hlive
    producer := ⟨by omega, by omega⟩
    apart := fun y last' newBlock call last'' z old hp ↦ by cases hp }

/-- The new block becomes the last one of the chain. -/
theorem link (h : QueueInv layout s p) {last a : Nat} (hpc : s.producer = .linking x last a) :
    ∃ s', s.link x last a = .ok s' ∧ QueueInv layout s' (p.extend a) := by
  have hprod := h.producer
  have hlive := h.live
  have hpos := layout.kNumSlots_pos
  rw [hpc] at hprod hlive
  obtain ⟨hidx, hfull, hx, ⟨c, hc, hcstart, hcnext⟩, haway⟩ := hprod
  obtain ⟨b, hb, -⟩ := h.chained.header p.last h.chained.has_last
  have hrun : s.link x last a = .ok { s.setBlock (p.address p.last) { b with next := some a } with
      endBlock := a
      producer := .publishing x last } := by
    simp only [QueueState.link, h.endBlock, block_eq hb, bind, Except.bind, pure, Except.pure]
  have hslot : ∀ j, p.first * layout.kNumSlots ≤ j → j ≤ p.published →
      (p.extend a).slotAt layout.kNumSlots
        (update s.blocks (p.address p.last) (some { b with next := some a })) j =
        p.slotAt layout.kNumSlots s.blocks j := fun j hj hle ↦
    h.chained.slotAt_link hb (h.has_block hj hle)
  have hslots := h.slots_congr hslot
  refine ⟨_, hrun, ?_⟩
  exact {
    chained := h.chained.link hb haway hc (by rw [hcstart, hidx, hfull]) hcnext
    startBlock := h.startBlock.trans (extend_address h.chained.has_first).symm
    endBlock := extend_address_last.symm
    start := h.start
    endIndex := h.endIndex
    run := h.run
    hand := h.hand
    unread := hslots.1
    read := hslots.2
    first_le := h.first_le
    live := by
      have hle := h.chained.le
      simp only [setBlock, Placement.extend, ProducerPc.spare] at hlive ⊢
      omega
    room := h.room
    producer := by
      have hmul : (p.last + 1 + 1) * layout.kNumSlots =
        (p.last + 1) * layout.kNumSlots + layout.kNumSlots := Nat.add_one_mul ..
      have hpub : (p.extend a).published = p.published := rfl
      have hlast : (p.extend a).last = p.last + 1 := rfl
      refine ⟨hidx, ?_, ?_, (hslot _ (le_trans h.first_le (taken_le p)) le_rfl).trans hx⟩ <;>
        rw [hlast] <;> omega
    consumer := h.consumer.congr rfl rfl le_rfl fun call last' y old hc ↦ by
      have hdel := h.consumer
      rw [hc] at hdel
      have hold := hdel.2.2.2
      refine ⟨update_of_ne (hold _ h.chained.has_last).symm .., fun k hk ↦ ?_⟩
      rcases (has_extend h.chained.le).mp hk with hk | rfl
      · rw [extend_address hk]
        exact hold k hk
      · rw [extend_address_last]
        exact (h.apart x last a call last' y old hpc hc).symm
    apart := fun y last' newBlock call last'' z old hp ↦ by cases hp }

/-- The element of the slot behind the published ones is published. -/
theorem publish (h : QueueInv layout s p) (hpc : s.producer = .publishing x last) :
    QueueInv layout (s.publish x last) { p with unread := p.unread ++ [x] } := by
  have hprod := h.producer
  have hlive := h.live
  rw [hpc] at hprod hlive
  obtain ⟨hidx, hlow, hhigh, hx⟩ := hprod
  have hpub : ({ p with unread := p.unread ++ [x] } : Placement T).published = p.published + 1 := by
    simp only [published, length_append, length_singleton]
    omega
  exact { h with
    chained := ⟨h.chained.le, h.chained.inj, h.chained.header⟩
    endIndex := by rw [hpub]; exact hidx
    run := h.run.append (.single rfl)
    hand := by simpa [QueueState.publish] using h.hand
    unread := fun j hj ↦ by
      simp only [length_append, length_singleton] at hj
      by_cases heq : j = p.unread.length
      · subst heq
        rw [getElem?_concat_length]
        exact hx
      · rw [getElem?_append_left (by omega)]
        exact h.unread j (by omega)
    live := hlive
    producer := by
      simp only [ProducerPc.Ok, hpub]
      exact ⟨hlow, hhigh⟩
    consumer := h.consumer.congr rfl rfl (by omega) fun call last' y old hc ↦ by
      have hdel := h.consumer
      rw [hc] at hdel
      exact ⟨rfl, hdel.2.2.2⟩
    apart := fun y last' newBlock call last'' z old hp ↦ by cases hp }

/-! ### The consumer -/

variable {call : ConsumerCall}

/-- The slot at `start_` holds the first element that is published and not taken. -/
theorem take (h : QueueInv layout s p) (hpc : s.consumer = .taking call last) :
    ∃ s' p', s.take layout call last = .ok s' ∧ QueueInv layout s' p' := by
  have hspan := h.span
  have hlt := h.published_lt
  have hfirst := h.first_le
  have htaken := taken_le p
  have hcons := h.consumer
  have hlive := h.live
  have hhand := h.hand
  rw [hpc] at hcons hlive hhand
  obtain ⟨hin, ⟨seen, hseen, hle, hpub⟩, hne⟩ := hcons
  have hmul : (p.first + 1) * layout.kNumSlots = p.first * layout.kNumSlots + layout.kNumSlots :=
    Nat.add_one_mul ..
  have hlater : p.taken < seen := by
    refine lt_of_le_of_ne hle fun heq ↦ hne ?_
    rw [hseen, heq]
  obtain ⟨x, rest, hrest⟩ : ∃ x rest, p.unread = x :: rest := by
    cases hq : p.unread with
    | nil =>
      rw [published, hq, length_nil] at hpub
      omega
    | cons x rest => exact ⟨x, rest, rfl⟩
  obtain ⟨b, hb, hstart, hnext⟩ := h.chained.header p.first h.chained.has_first
  obtain ⟨hdiv, hmod⟩ := block_of_index hfirst hin
  have hhas : p.Has (p.taken / layout.kNumSlots) := hdiv ▸ h.chained.has_first
  have hslotx : b.slots (p.taken % layout.kNumSlots) = some x := by
    have := h.unread 0 (by rw [hrest]; exact succ_pos _)
    rwa [hrest, add_zero, slotAt, hdiv, hb] at this
  have hindex : sub s.start b.start = p.taken % layout.kNumSlots := by
    rw [h.start, hstart, sub_mod hfirst (by omega), hmod]
  have hnew : add s.start 1 = (p.taken + 1) % modulus := by rw [h.start, SizeT.add_mod]
  have hend : sub ((p.taken + 1) % modulus) b.start = p.taken + 1 - p.first * layout.kNumSlots := by
    rw [hstart, sub_mod (by omega) (by omega)]
  have hrun : s.take layout call last = .ok { s.setBlock (p.address p.first)
      (b.put (p.taken % layout.kNumSlots) none) with
      start := (p.taken + 1) % modulus
      history := s.history ++ [FifoEvent.dequeue (some x)]
      consumer := if p.taken + 1 - p.first * layout.kNumSlots = layout.kNumSlots then
        .leaving call last x else .returning call last x } := by
    have hin' : ¬ layout.kNumSlots ≤ p.taken % layout.kNumSlots := by omega
    simp only [QueueState.take, h.startBlock, block_eq hb, bind, Except.bind, hindex,
      if_neg hin', hslotx, hnew, hend, pure, Except.pure, setBlock]
  have hslot : ∀ j, p.Has (j / layout.kNumSlots) → p.slotAt layout.kNumSlots
      (update s.blocks (p.address p.first) (some (b.put (p.taken % layout.kNumSlots) none))) j =
      if j = p.taken then none else p.slotAt layout.kNumSlots s.blocks j := fun j hj ↦ by
    have := h.chained.slotAt_writeSlot hhas (by rwa [hdiv]) none hj
    rwa [hdiv] at this
  have hpublished : ({ p with taken := p.taken + 1, unread := rest } : Placement T).published =
      p.published := by
    simp only [published, hrest, length_cons]
    omega
  have hseenEnd : ({ p with taken := p.taken + 1, unread := rest } : Placement T).SeenEnd last :=
    ⟨seen, hseen, hlater, by rw [hpublished]; exact hpub⟩
  have hunread : p.published = p.taken + (rest.length + 1) := by rw [published, hrest, length_cons]
  refine ⟨_, { p with taken := p.taken + 1, unread := rest }, hrun, ?_⟩
  exact {
    chained :=
      have hc := h.chained.writeSlot h.chained.has_first hb (p.taken % layout.kNumSlots) none
      ⟨hc.le, hc.inj, hc.header⟩
    startBlock := h.startBlock
    endBlock := h.endBlock
    start := rfl
    endIndex := by rw [hpublished]; exact h.endIndex
    run := h.run.append (.single hrest)
    hand := by
      have hnone : dequeued s.history = s.received := hhand.trans (append_nil _)
      rw [dequeued_append, hnone]
      split <;> rfl
    unread := fun j hj ↦ by
      have hj' : j < rest.length := hj
      have hhas' := h.has_block (j := p.taken + 1 + j) (by omega) (by omega)
      refine (hslot _ hhas').trans ((if_neg (by omega)).trans ?_)
      have := h.unread (j + 1) (by rw [hrest, length_cons]; omega)
      rw [hrest] at this
      rwa [add_assoc, add_comm 1 j]
    read := fun j hj hjt ↦ by
      refine (hslot _ (h.has_block hj (le_of_lt_succ (by simp only at hjt; omega)))).trans ?_
      split
      · rfl
      · next hne' =>
        simp only at hjt
        exact h.read j hj (by omega)
    first_le := le_succ_of_le hfirst
    live := by split <;> exact hlive
    room := h.room
    producer := h.producer.congr rfl hpublished
      ((hslot _ (h.has_block (le_trans hfirst htaken) le_rfl)).trans (if_neg (by omega)))
      (fun k hk ↦ ⟨hk, rfl⟩) fun y last' a hp ↦ by
        have hprod := h.producer
        rw [hp] at hprod
        exact update_of_ne (hprod.2.2.2.2 _ h.chained.has_first).symm ..
    consumer := by
      split
      · exact ⟨by simp only; omega, hseenEnd⟩
      · exact ⟨by simp only; omega, hseenEnd⟩
    apart := fun y last' newBlock call' last'' z old hp hc ↦ by split at hc <;> cases hc }

/-- The first block is full and its elements are taken, so a next block is linked to it. -/
theorem leave (h : QueueInv layout s p) (hpc : s.consumer = .leaving call last x) :
    ∃ s', s.leave call last x = .ok s' ∧ QueueInv layout s' { p with first := p.first + 1 } := by
  have hlt := h.published_lt
  have htaken := taken_le p
  have hcons := h.consumer
  have hlive := h.live
  have hhand := h.hand
  rw [hpc] at hcons hlive hhand
  obtain ⟨hfull, hseen⟩ := hcons
  have hmul : (p.first + 1 + 1) * layout.kNumSlots =
      (p.first + 1) * layout.kNumSlots + layout.kNumSlots := Nat.add_one_mul ..
  have hmul' : (p.first + 1) * layout.kNumSlots = p.first * layout.kNumSlots + layout.kNumSlots :=
    Nat.add_one_mul ..
  have hpos := layout.kNumSlots_pos
  have hnext : p.first < p.last := by
    have : (p.first + 1) * layout.kNumSlots < (p.last + 1) * layout.kNumSlots := by omega
    have := lt_of_mul_lt_mul_right this
    omega
  obtain ⟨b, hb, hstart, hlink⟩ := h.chained.header p.first h.chained.has_first
  rw [if_pos hnext] at hlink
  have hrun : s.leave call last x = .ok { s with
      startBlock := p.address (p.first + 1)
      consumer := .deleting call last x (p.address p.first) } := by
    simp only [QueueState.leave, h.startBlock, block_eq hb, bind, Except.bind, hlink,
      pure, Except.pure]
  refine ⟨_, hrun, ?_⟩
  exact { h with
    chained := h.chained.leave hnext
    startBlock := rfl
    hand := hhand
    read := fun j hj hjt ↦ absurd hjt (by simp only at hj ⊢; omega)
    first_le := le_of_eq hfull.symm
    live := by
      simp only [ConsumerPc.spare] at hlive ⊢
      omega
    producer := h.producer.congr rfl rfl rfl
      (fun k hk ↦ ⟨⟨le_of_succ_le hk.1, hk.2⟩, rfl⟩) fun _ _ _ _ ↦ rfl
    consumer := by
      refine ⟨by simp only; omega, hseen, ⟨b, hb, fun i hi ↦ ?_⟩, fun k hk ↦
        h.chained.leave_outside hk⟩
      obtain ⟨hdiv, hmod⟩ := block_of_index (n := layout.kNumSlots) (k := p.first)
        (j := p.first * layout.kNumSlots + i) (by omega) (by omega)
      have hnone := h.read (p.first * layout.kNumSlots + i) (by omega) (by omega)
      rwa [slotAt, hdiv, hmod, hb, Nat.add_sub_cancel_left] at hnone
    apart := fun y last' newBlock call' last'' z old hp hc ↦ by
      obtain ⟨-, -, -, rfl⟩ := ConsumerPc.deleting.inj hc
      have hprod := h.producer
      rw [hp] at hprod
      exact hprod.2.2.2.2 _ h.chained.has_first }

/-- The freed block is outside of the chain, and the producer is not about to link it. -/
theorem delete (h : QueueInv layout s p) {last a : Nat} (hpc : s.consumer = .deleting call last x a)
    : ∃ s', s.delete call last x a = .ok s' ∧ QueueInv layout s' p := by
  have hcons := h.consumer
  have hlive := h.live
  have hhand := h.hand
  rw [hpc] at hcons hlive hhand
  obtain ⟨hin, hseen, ⟨b, hb, hempty⟩, haway⟩ := hcons
  have hrun : s.delete call last x a = .ok { s with
      blocks := update s.blocks a none
      liveBlocks := s.liveBlocks - 1
      consumer := .returning call last x } := by
    simp only [QueueState.delete, block_eq hb, bind, Except.bind, pure, Except.pure]
  have hslots := h.slots_congr fun j hj hle ↦
    Chained.slotAt_outside haway none (h.has_block hj hle)
  refine ⟨_, hrun, ?_⟩
  exact { h with
    chained := h.chained.outside haway none
    hand := hhand
    unread := hslots.1
    read := hslots.2
    live := by
      simp only [ConsumerPc.spare] at hlive ⊢
      omega
    room := le_trans (mul_le_mul_right _ (sub_le ..)) h.room
    producer := h.producer.congr rfl rfl
      (Chained.slotAt_outside haway none (h.has_block (le_trans h.first_le (taken_le p)) le_rfl))
      (fun k hk ↦ ⟨hk, rfl⟩) fun y last' newBlock hp ↦
        update_of_ne (h.apart y last' newBlock call last x a hp hpc).symm ..
    consumer := ⟨hin, hseen⟩
    apart := fun y last' newBlock call' last'' z old hp hc ↦ nomatch hc }

theorem returnElement (h : QueueInv layout s p) (hpc : s.consumer = .returning call last x) :
    QueueInv layout (s.returnElement call last x) p := by
  have hcons := h.consumer
  have hlive := h.live
  have hhand := h.hand
  rw [hpc] at hcons hlive hhand
  exact { h with
    hand := by
      have hempty : (s.returnElement call last x).consumer.inHand = [] := by
        simp only [QueueState.returnElement]
        split <;> rfl
      rw [hempty, append_nil]
      exact hhand
    live := by
      simp only [QueueState.returnElement]
      split <;> exact hlive
    consumer := by
      simp only [QueueState.returnElement]
      split
      · next hmore => exact ⟨hcons.1, hcons.2, h.start ▸ Ne.symm hmore.2⟩
      · exact hcons.1
    apart := fun y last' newBlock call' last'' z old hp hc ↦ by
      simp only [QueueState.returnElement] at hc
      split at hc <;> cases hc }

end QueueInv

/-! ### All interleavings -/

end Hisab.Profiler
