import Hisab.Memory.FreeSteps

/-!
# Waiting for events

A block used on other streams waits in the event queues: one entry goes in for every such
stream, and the block is freed with the last of its entries. An event handle is always
either in one entry or ready for reuse.
-/

namespace Hisab.Memory
open Hisab.Base ExtentMap Function List Limbo RangeSum Prod

/-- Where a block being freed stands: on its way until its first event is recorded. -/
def Limbo.held (b : BlockId) (B : CacheBlock) : Limbo :=
  if B.eventCount = 0 then .freeing b B.size else .none

namespace Impl

/-- One more entry in the queue of its stream. -/
theorem emplaceEvent_perm (stream : Stream) (entry : Event × BlockId)
    (queues : List (Stream × EventQueue)) :
    ((emplaceEvent stream entry queues).flatMap Prod.snd).Perm
      (entry :: queues.flatMap Prod.snd) := by
  induction queues with
  | nil => exact .refl _
  | cons q rest ih =>
    obtain ⟨st, entries⟩ := q
    unfold emplaceEvent
    split
    · simp only [flatMap_cons, append_assoc]
      exact perm_middle
    · exact (ih.append_left entries).trans perm_middle

variable {s : Impl} {l : Limbo} {b : BlockId} {B : CacheBlock} {d : DriverAnswers} {stream : Stream}
  {pool : List Event}

/-! ### One event more -/

/-- The state with event `e` recorded behind the work of `stream` for block `b`. -/
def enqueued (s : Impl) (b : BlockId) (B : CacheBlock) (stream : Stream) (e : Event)
    (pool : List Event) (n : Nat) : Impl :=
  { s with
    eventPool := pool
    nextEvent := n
    recorded := update s.recorded e (stream, s.submitted stream)
    cudaEvents := emplaceEvent stream (e, b) s.cudaEvents
    heap := update s.heap b (some { B with eventCount := B.eventCount + 1 })
    history := .queued b :: s.history }

/-- An acquired event is out of the pool or new. -/
def Acquired (s : Impl) (e : Event) (pool : List Event) (n : Nat) : Prop :=
  (s.eventPool.Perm (e :: pool) ∧ n = s.nextEvent) ∨
    (pool = s.eventPool ∧ e = s.nextEvent ∧ n = s.nextEvent + 1)

theorem acquireEventLocked_cases (d : DriverAnswers) (s : Impl) (stream : Stream) :
    (∃ x, s.acquireEventLocked d stream = (.error x, s) ∧ d.create stream ≠ .success) ∨
    ∃ e pool n, Acquired s e pool n ∧
      s.acquireEventLocked d stream = (.ok e, { s with eventPool := pool, nextEvent := n }) := by
  unfold acquireEventLocked
  cases hl : s.eventPool.getLast? with
  | some e =>
    refine .inr ⟨e, s.eventPool.dropLast, s.nextEvent, .inl ⟨?_, rfl⟩, rfl⟩
    obtain ⟨ys, hys⟩ := getLast?_eq_some_iff.mp hl
    rw [hys, dropLast_concat]
    exact perm_append_singleton ..
  | none =>
    unfold throwOnCudaError
    by_cases hc : d.create stream = .success
    · simp only [hc]
      exact .inr ⟨_, s.eventPool, _, .inr ⟨rfl, rfl, rfl⟩, rfl⟩
    · simp only [hc]
      exact .inl ⟨_, rfl, hc⟩

private theorem queueEntries_enqueued {e : Event} {n : Nat} :
    (s.enqueued b B stream e pool n).queueEntries.Perm ((e, b) :: s.queueEntries) :=
  emplaceEvent_perm ..

private theorem handles_enqueued {e : Event} {n : Nat}
    (h : s.eventHandles.Perm (List.range s.nextEvent)) (ha : Acquired s e pool n) :
    (s.enqueued b B stream e pool n).eventHandles.Perm (List.range n) := by
  have hpool : (s.enqueued b B stream e pool n).eventHandles.Perm
      (e :: (s.queueEntries.map fst ++ pool)) :=
    (queueEntries_enqueued.map fst).append_right pool
  refine hpool.trans ?_
  rcases ha with ⟨hp, rfl⟩ | ⟨rfl, rfl, rfl⟩
  · exact (perm_middle.symm.trans (hp.symm.append_left _)).trans h
  · rw [range_succ]
    exact ((List.Perm.cons _ h).trans (perm_append_singleton ..).symm)

namespace WellFormed

theorem enqueued (h : s.WellFormed (.held b B)) (hb : s.heap b = some B)
    (hal : B.allocated = false) (stream : Stream) {e : Event} {pool : List Event}
    {n : Nat} (hacq : Acquired s e pool n) :
    (s.enqueued b B stream e pool n).WellFormed .none ∧
      ∀ c, c ≠ b → Unaffected (.held b B) .none s (s.enqueued b B stream e pool n) c := by
  have ha := h.accounted
  have hat := h.placed.at_block b
  have hcount := hat.count B hb
  have hne : B.eventCount + 1 ≠ 0 := by omega
  have hX : (s.enqueued b B stream e pool n).heap b =
      some { B with eventCount := B.eventCount + 1 } := by simp [Impl.enqueued]
  have hqueued : (s.enqueued b B stream e pool n).queuedBlocks.Perm (b :: s.queuedBlocks) :=
    queueEntries_enqueued.map snd
  have hblock (c : BlockId) (hc : c ≠ b) : (held b B).block ≠ some c := by
    unfold Limbo.held
    split <;> simp [hc.symm]
  have hu (c : BlockId) (hc : c ≠ b) :
      Unaffected (.held b B) .none s (s.enqueued b B stream e pool n) c := by
    constructor
    case heap => simp [Impl.enqueued, hc]
    case count => rw [hqueued.count_eq, count_cons_of_ne hc.symm]
    case history => simp [Impl.enqueued, BlockPhase.after, BlockPhase.next, hc.symm]
    case before => exact hblock c hc
    all_goals simp [Impl.enqueued]
  have hext : (s.enqueued b B stream e pool n).extents = s.extents := extents_update hb rfl
  have hnotpool (k : PoolKind) : b ∉ s.pools k := by
    rw [hat.pool hb]
    rintro ⟨_, hi, hl⟩
    simp [Limbo.held, hi.2] at hl
  refine ⟨⟨by rw [hext]; exact h.layout, h.segment, ?_, coalesced_mono h.coalesced hext ?_, ?_⟩, hu⟩
  · refine h.placed.change hu (.of_some hX (h.lt hb) ?_ ?_ ?_ ?_ ?_ ?_ ?_) h.placed.pool_nodup
      (handles_enqueued h.placed.handles hacq)
    · intro k
      change b ∈ s.pools k ↔ _
      simp [hnotpool, CacheBlock.Idle, hne]
    · intro p
      change s.allocatedBlocks.lookup p = some b ↔ _
      simp [hat.live hb]
    · exact fun _ ↦ hat.no_uses B hb hal
    · simp [hal]
    · simp
    · rw [hqueued.count_eq, count_cons_self]
      push_cast
      omega
    · have hl := hat.lifecycle
      rw [phaseOf_of hb] at hl
      rw [phaseOf_of hX]
      have hphase : BlockPhase.after b s.history = some (.freeing B.eventCount.toNat) := by
        by_cases he : B.eventCount = 0
        · simpa [hal, he, Limbo.held] using hl
        · simpa [hal, he] using hl
      have hsucc : B.eventCount.toNat + 1 = (B.eventCount + 1).toNat := by omega
      simp [Impl.enqueued, BlockPhase.after, BlockPhase.next, hphase, hal, hne, hsucc]
  · rintro c ⟨C, hC, hi, _⟩
    have hc : c ≠ b := by
      rintro rfl
      rw [hX] at hC
      cases hC
      exact hne hi.2
    exact (hu c hc).mergeable ⟨C, hC, hi, by simp⟩
  · refine ha.change hu (h.lt hb) (.inl rfl) ?_ ?_ ?_ ha.segments ha.no_underflow
    · rw [weight_of hb, weight_of hX]
      by_cases he : B.eventCount = 0
      · simp [Impl.enqueued, Limbo.held, he, cachedBytes, CacheBlock.Idle, hal]
      · simp [Impl.enqueued, Limbo.held, he, hne, cachedBytes, CacheBlock.Idle]
    · rw [weight_of hb, weight_of hX]
      rfl
    · rw [weight_of hb, weight_of hX]
      rfl

end WellFormed

/-- An acquired event is in no queue. -/
private theorem Acquired.fresh {e : Event} {n : Nat}
    (h : s.eventHandles.Perm (List.range s.nextEvent)) (ha : Acquired s e pool n) (c : BlockId) :
    (e, c) ∉ s.queueEntries := by
  intro hm
  have hin : e ∈ s.queueEntries.map fst := mem_map_of_mem hm
  rcases ha with ⟨hp, _⟩ | ⟨_, rfl, _⟩
  · have hnd : s.eventHandles.Nodup := h.nodup_iff.mpr nodup_range
    exact (nodup_append.mp hnd).2.2 e hin e (hp.mem_iff.mpr (by simp)) rfl
  · have := h.mem_iff.mp (mem_append_left _ hin)
    exact absurd (mem_range.mp this) (Nat.lt_irrefl _)

/-- What recording events for block `b` leaves alone. -/
structure Queues (s s' : Impl) (b : BlockId) : Prop where
  evolves : Evolves (fun _ ↦ False) s s'
  heap : ∀ c, c ≠ b → s'.heap c = s.heap c
  segments : s'.driverSegments = s.driverSegments
  allocations : s'.allocatedBlocks = s.allocatedBlocks

theorem Queues.refl (s : Impl) (b : BlockId) : Queues s s b := ⟨.refl s, fun _ _ ↦ rfl, rfl, rfl⟩

theorem Queues.trans {t r : Impl} (h : Queues s t b) (k : Queues t r b) : Queues s r b :=
  ⟨h.evolves.trans k.evolves, fun c hc ↦ (k.heap c hc).trans (h.heap c hc),
    k.segments.trans h.segments, k.allocations.trans h.allocations⟩

private theorem queues_enqueued {e : Event} {n : Nat} (hb : s.heap b = some B)
    (hal : B.allocated = false) (hfresh : ∀ c, (e, c) ∉ s.queueEntries) :
    Queues s (s.enqueued b B stream e pool n) b := by
  have hother (c : BlockId) (hc : c ≠ b) : (s.enqueued b B stream e pool n).heap c = s.heap c := by
    simp [enqueued, hc]
  refine ⟨⟨fun c C hC hlive ↦ ?_, fun c C e' hC he ↦ .inr ⟨?_, ?_, ?_⟩, rfl⟩, hother, rfl, rfl⟩
  · have hc : c ≠ b := by
      rintro rfl
      rw [hb] at hC
      cases hC
      rw [hal] at hlive
      cases hlive
    rw [hother c hc, hC, Option.map_some]
  · exact queueEntries_enqueued.mem_iff.mpr (mem_cons_of_mem _ he)
  · have hne : e' ≠ e := by
      rintro rfl
      exact hfresh c he
    simp [enqueued, hne]
  · by_cases hc : c = b
    · subst hc
      rw [hb] at hC
      cases hC
      exact ⟨{ B with eventCount := B.eventCount + 1 }, by simp [enqueued], rfl, rfl⟩
    · exact ⟨C, by rw [hother c hc, hC], rfl, rfl⟩

/-- What a failing `cudaEventRecord` throws. -/
def RecordFailure (x : Exn) : Prop := ∃ code, x = .runtimeError "cudaEventRecord" code

/-- Either nothing happens, because an event could not be had, or an event is recorded. -/
theorem insertEvent_cases (hb : s.heap b = some B) {result : Except Exn Unit} {r : Impl}
    (hr : s.insertEvent d b stream = (result, r)) :
    (∃ x, result = .error x ∧ r = s) ∨
    (∃ x, result = .error x ∧ RecordFailure x ∧ d.record stream ≠ .success) ∨
    ∃ e pool n, Acquired s e pool n ∧ result = .ok () ∧ r = s.enqueued b B stream e pool n := by
  unfold insertEvent at hr
  rcases acquireEventLocked_cases d s stream with ⟨x, ha, _⟩ | ⟨e, pool, n, hacq, ha⟩
  · rw [ha] at hr
    cases hr
    exact .inl ⟨x, rfl, rfl⟩
  · rw [ha] at hr
    by_cases hrec : d.record stream = .success
    · simp only [hrec, throwOnCudaError, if_true] at hr
      cases hr
      refine .inr (.inr ⟨e, pool, n, hacq, rfl, ?_⟩)
      simp [modify, log, Impl.enqueued, hb]
    · simp only [throwOnCudaError, if_neg hrec] at hr
      cases hr
      exact .inr (.inl ⟨_, rfl, ⟨_, rfl⟩, hrec⟩)

/-- The block waits for one event more with every stream, up to the first event that cannot
be had. -/
theorem insertEventsLoop_spec {streams : List Stream} {result : Except Exn Unit} {r : Impl}
    (h : s.WellFormed (.held b B)) (hb : s.heap b = some B) (hal : B.allocated = false)
    (hr : insertEventsLoop d b streams s = (result, r))
    (hrec : ∀ x, result = .error x → RecordFailure x → ∀ st, d.record st = .success) :
    ∃ n : Nat, r.WellFormed (.held b { B with eventCount := B.eventCount + n }) ∧
      r.heap b = some { B with eventCount := B.eventCount + n } ∧ Queues s r b ∧
      (result = .ok () → n = streams.length ∧ ∀ st ∈ streams, ∃ e,
        (e, b) ∈ r.queueEntries ∧ r.recorded e = (st, s.submitted st)) := by
  induction streams generalizing s B with
  | nil =>
    cases hr
    refine ⟨0, ?_, ?_, .refl _ b, fun _ ↦ ⟨rfl, by simp⟩⟩
    · simpa using h
    · simpa using hb
  | cons stream streams ih =>
    unfold insertEventsLoop at hr
    rcases hi : s.insertEvent d b stream with ⟨first, t⟩
    rw [hi] at hr
    rcases insertEvent_cases hb hi with ⟨x, rfl, rfl⟩ | ⟨x, rfl, hx, hne⟩ |
        ⟨e, pool, n, hacq, rfl, rfl⟩
    · cases hr
      refine ⟨0, ?_, ?_, .refl _ b, nofun⟩
      · simpa using h
      · simpa using hb
    · cases hr
      exact absurd (hrec x rfl hx stream) hne
    · obtain ⟨hwf, _⟩ := h.enqueued hb hal stream hacq
      have hX : (s.enqueued b B stream e pool n).heap b =
          some { B with eventCount := B.eventCount + 1 } := by simp [Impl.enqueued]
      have hheld : held b { B with eventCount := B.eventCount + 1 } = .none := by
        have := (h.placed.at_block b).count B hb
        refine if_neg ?_
        simp only
        omega
      have hq : Queues s (s.enqueued b B stream e pool n) b :=
        queues_enqueued hb hal (hacq.fresh h.placed.handles)
      obtain ⟨k, hwf', hb', hq', hok⟩ := ih (hheld.symm ▸ hwf) hX hal hr
      have hcount : B.eventCount + 1 + (k : Int) = B.eventCount + ((k + 1 : Nat) : Int) := by omega
      rw [hcount] at hwf' hb'
      refine ⟨k + 1, hwf', hb', hq.trans hq', fun he ↦ ?_⟩
      obtain ⟨hk, hst⟩ := hok he
      refine ⟨by rw [hk, length_cons], fun st hm ↦ ?_⟩
      rcases mem_cons.mp hm with rfl | hm
      · -- the entry made here stays while the others are made
        rcases hq'.evolves.waiting b _ e hX (queueEntries_enqueued.mem_iff.mpr (by simp)) with
          hf | ⟨hin, hrecorded, _⟩
        · exact hf.elim
        · exact ⟨e, hin, by rw [hrecorded]; simp [Impl.enqueued]⟩
      · exact hst st hm

/-! ### One event less -/

/-- The state of `retire_event` before the block may be freed. -/
def retired (s : Impl) (e : Event) (b : BlockId) (B : CacheBlock) : Impl :=
  { s with
    eventPool := s.eventPool ++ [e]
    heap := update s.heap b (some { B with eventCount := B.eventCount - 1 })
    history := .drained b :: s.history }

theorem retireEvent_eq (hb : s.heap b = some B) (e : Event) :
    s.retireEvent e b = if B.eventCount - 1 = 0 then (s.retired e b B).freeBlockLocked b
      else s.retired e b B := by
  have hmod : (({ s with eventPool := s.eventPool ++ [e] } : Impl).modify b
      (fun b ↦ { b with eventCount := b.eventCount - 1 })).log (.drained b) = s.retired e b B := by
    simp [modify, log, retired, hb]
  have hd : (s.retired e b B).deref b = { B with eventCount := B.eventCount - 1 } :=
    deref_of (by simp [retired])
  simp only [retireEvent, hmod, hd]

namespace WellFormed

theorem retired {qs : List (Stream × EventQueue)} (h : s.WellFormed .none)
    (hb : s.heap b = some B) {e : Event}
    (hq : s.queueEntries.Perm ((e, b) :: qs.flatMap Prod.snd)) :
    ((s.withQueues qs).retired e b B).WellFormed
        (.held b { B with eventCount := B.eventCount - 1 }) ∧
      ∀ c, c ≠ b → Unaffected .none (.held b { B with eventCount := B.eventCount - 1 }) s
        ((s.withQueues qs).retired e b B) c := by
  have ha := h.accounted
  have hat := h.placed.at_block b
  have hqb : s.queuedBlocks.Perm (b :: ((s.withQueues qs).retired e b B).queuedBlocks) := hq.map snd
  have hcount := hat.count B hb
  rw [hqb.count_eq, count_cons_self] at hcount
  have hwait := h.waiting (hq.mem_iff.mpr (mem_cons_self ..)) hb
  have hne : B.eventCount ≠ 0 := by omega
  have hal := hwait.2
  have hX : ((s.withQueues qs).retired e b B).heap b =
      some { B with eventCount := B.eventCount - 1 } := by simp [Impl.retired]
  have hblock (c : BlockId) (hc : c ≠ b) :
      (held b { B with eventCount := B.eventCount - 1 }).block ≠ some c := by
    unfold Limbo.held
    split <;> simp [hc.symm]
  have hu (c : BlockId) (hc : c ≠ b) :
      Unaffected .none (.held b { B with eventCount := B.eventCount - 1 }) s
        ((s.withQueues qs).retired e b B) c := by
    constructor
    case heap => simp [Impl.retired, withQueues, hc]
    case count => rw [hqb.count_eq, count_cons_of_ne hc.symm]
    case history => simp [Impl.retired, withQueues, BlockPhase.after, BlockPhase.next, hc.symm]
    case after => exact hblock c hc
    all_goals simp [Impl.retired, withQueues]
  have hext : ((s.withQueues qs).retired e b B).extents = s.extents := extents_update hb rfl
  have hnotpool (k : PoolKind) : b ∉ s.pools k := by
    rw [hat.pool hb]
    exact fun hp ↦ hne hp.2.1.2
  refine ⟨⟨by rw [hext]; exact h.layout, h.segment, ?_, coalesced_mono h.coalesced hext ?_, ?_⟩, hu⟩
  · refine h.placed.change hu (.of_some hX (h.lt hb) ?_ ?_ (hat.no_uses B hb) ?_ ?_ ?_ ?_)
      h.placed.pool_nodup ?_
    · intro k
      change b ∈ s.pools k ↔ _
      simp only [hnotpool, false_iff, not_and, CacheBlock.Idle]
      rintro - ⟨-, he⟩
      simp [Limbo.held, he]
    · intro p
      change s.allocatedBlocks.lookup p = some b ↔ _
      simp [hat.live hb, hal]
    · simp [hal]
    · intro hl
      refine ⟨hal, ?_⟩
      by_contra he
      simp [Limbo.held, he] at hl
    · simp only
      omega
    · have hl := hat.lifecycle
      rw [phaseOf_of hb] at hl
      rw [phaseOf_of hX]
      have hphase : BlockPhase.after b s.history =
          some (.freeing ((B.eventCount - 1).toNat + 1)) := by
        have hsucc : (B.eventCount - 1).toNat + 1 = B.eventCount.toNat := by omega
        rw [hsucc]
        simpa [hal, hne] using hl
      by_cases he : B.eventCount - 1 = 0
      · simp [Impl.retired, withQueues, BlockPhase.after, BlockPhase.next, hphase, hal, he,
          Limbo.held]
      · simp [Impl.retired, withQueues, BlockPhase.after, BlockPhase.next, hphase, hal, he]
    · have hh : s.eventHandles.Perm (e :: ((qs.flatMap snd).map fst ++ s.eventPool)) :=
        (hq.map fst).append_right s.eventPool
      refine List.Perm.trans ?_ (hh.symm.trans h.placed.handles)
      change ((qs.flatMap snd).map fst ++ (s.eventPool ++ [e])).Perm _
      rw [← append_assoc]
      exact perm_append_singleton ..
  · rintro c ⟨C, hC, hi, hx⟩
    have hc : c ≠ b := by
      rintro rfl
      rw [hX] at hC
      cases hC
      have he : B.eventCount - 1 = 0 := hi.2
      exact hx (by simp [Limbo.held, he])
    exact (hu c hc).mergeable ⟨C, hC, hi, hx⟩
  · refine ha.change hu (h.lt hb) (.inl rfl) ?_ ?_ ?_ ha.segments ha.no_underflow
    · rw [weight_of hb, weight_of hX]
      by_cases he : B.eventCount - 1 = 0
      · simp [Impl.retired, withQueues, Limbo.held, he, hne, cachedBytes, CacheBlock.Idle, hal]
      · simp [Impl.retired, withQueues, Limbo.held, he, hne, cachedBytes, CacheBlock.Idle]
    · rw [weight_of hb, weight_of hX]
      rfl
    · rw [weight_of hb, weight_of hX]
      rfl

/-- Taking the entry of an event out of the queues and retiring the event: the block waits
on, or it was the last event and the block is freed. -/
theorem retireEvent {qs : List (Stream × EventQueue)} (h : s.WellFormed .none) {e : Event}
    (hq : s.queueEntries.Perm ((e, b) :: qs.flatMap Prod.snd)) :
    ((s.withQueues qs).retireEvent e b).WellFormed .none ∧
      Evolves (· = e) s ((s.withQueues qs).retireEvent e b) ∧
      ((s.withQueues qs).retireEvent e b).cudaEvents = qs ∧
      ((s.withQueues qs).retireEvent e b).recorded = s.recorded ∧
      ((s.withQueues qs).retireEvent e b).driverSegments = s.driverSegments ∧
      ((s.withQueues qs).retireEvent e b).allocatedBlocks = s.allocatedBlocks := by
  have hm : (e, b) ∈ s.queueEntries := hq.mem_iff.mpr (by simp)
  obtain ⟨B, hb⟩ := (h.placed.at_block b).queued_live (mem_map_of_mem hm)
  obtain ⟨hwf, hu⟩ := h.retired hb hq
  have hX : ((s.withQueues qs).retired e b B).heap b =
      some { B with eventCount := B.eventCount - 1 } := by simp [Impl.retired]
  have hstep : Evolves (· = e) s ((s.withQueues qs).retired e b B) := by
    refine ⟨fun c C hC hal ↦ ?_, fun c C e' hC he' ↦ ?_, rfl⟩
    · have hc : c ≠ b := by
        rintro rfl
        rw [hb] at hC
        cases hC
        rw [(h.waiting hm hb).2] at hal
        cases hal
      rw [(hu c hc).heap, hC, Option.map_some]
    · by_cases hee : e' = e
      · exact .inl hee
      · refine .inr ⟨?_, rfl, ?_⟩
        · have := hq.mem_iff.mp he'
          rcases mem_cons.mp this with heq | hm'
          · exact absurd (congrArg fst heq) hee
          · exact hm'
        · by_cases hc : c = b
          · subst hc
            rw [hb] at hC
            cases hC
            exact ⟨_, hX, rfl, rfl⟩
          · rcases (hu c hc).heap_cases with ⟨hn, _⟩ | ⟨C', p, n, hC', hX'⟩
            · rw [hn] at hC
              cases hC
            · rw [hC] at hC'
              cases hC'
              exact ⟨_, hX', rfl, rfl⟩
  rw [retireEvent_eq (s := s.withQueues qs) hb]
  split
  · next he =>
    have hheld : held b { B with eventCount := B.eventCount - 1 } = .freeing b B.size := if_pos he
    rw [hheld] at hwf
    obtain ⟨hfree, hkeep⟩ := hwf.freeBlockLocked (B := { B with eventCount := B.eventCount - 1 }) hX
    have hsame := freeBlockLocked_sameEvents ((s.withQueues qs).retired e b B) b
    exact ⟨hfree, hstep.trans
      (.of_keepsBusy hwf hkeep hsame.queues hsame.recorded hsame.submitted), hsame.queues, hsame.recorded,
      freeBlockLocked_driverSegments .., hsame.allocations⟩
  · next he =>
    have hheld : held b { B with eventCount := B.eventCount - 1 } = .none := if_neg he
    exact ⟨hheld ▸ hwf, hstep, rfl, rfl, rfl, rfl⟩

end WellFormed
end Impl
end Hisab.Memory
