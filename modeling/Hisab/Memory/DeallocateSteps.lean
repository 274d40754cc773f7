import Hisab.Memory.OperationSteps

/-!
# Handing memory back

`record_stream` adds a stream to a live block, and `deallocate` frees the block at once or
leaves one event behind the work of each of its streams. What these operations do to the
other blocks and to the entries in the queues is all the program can rely on across them.
-/

namespace Hisab.Memory
open Hisab.Base ExtentMap CachingConfig Function CacheBlock

namespace Impl

variable {s t r : Impl} {l l' : Limbo} {b : BlockId} {B : CacheBlock} {done : Event → Prop}
  {given : Nat → Prop} {d : DriverAnswers}

/-- What a step may do to live blocks and to queue entries: a live block not `given` back
stays, with the streams it has been used on, and so does an entry, with its event and the
place of its block, unless the event is `done`. -/
structure Retains (done : Event → Prop) (given : Nat → Prop) (s s' : Impl) : Prop where
  live : ∀ c C, s.heap c = some C → C.allocated = true → ¬ given C.ptr →
    ∃ C', s'.heap c = some C' ∧ C'.allocated = true ∧ C'.ptr = C.ptr ∧ C'.size = C.size ∧
      C'.stream = C.stream ∧ ∀ st ∈ C.streamUses, st ∈ C'.streamUses
  waiting : ∀ b B e, s.heap b = some B → (e, b) ∈ s.queueEntries → done e ∨
    ((e, b) ∈ s'.queueEntries ∧ s'.recorded e = s.recorded e ∧
      ∃ B', s'.heap b = some B' ∧ B'.ptr = B.ptr ∧ B'.size = B.size)

theorem exists_of_unlinked (h : (s.heap b).map CacheBlock.unlinked = some B.unlinked) :
    ∃ X, s.heap b = some X ∧ X.allocated = B.allocated ∧ X.ptr = B.ptr ∧ X.size = B.size ∧
      X.stream = B.stream ∧ X.streamUses = B.streamUses := by
  obtain ⟨X, hX, hu⟩ := Option.map_eq_some_iff.mp h
  have h₁ := congrArg allocated hu
  have h₂ := congrArg ptr hu
  have h₃ := congrArg size hu
  have h₄ := congrArg stream hu
  have h₅ := congrArg streamUses hu
  exact ⟨X, hX, h₁, h₂, h₃, h₄, h₅⟩

namespace Retains

theorem mono {done' : Event → Prop} (h : Retains done given s t) (hd : ∀ e, done e → done' e) :
    Retains done' given s t :=
  ⟨h.live, fun b B e hB he ↦ (h.waiting b B e hB he).imp_left (hd e)⟩

theorem of_evolves (h : Evolves done s t) : Retains done given s t := by
  refine ⟨fun c C hC hal _ ↦ ?_, h.waiting⟩
  obtain ⟨X, hX, h₁, h₂, h₃, h₄, h₅⟩ := exists_of_unlinked (h.live c C hC hal)
  exact ⟨X, hX, h₁.trans hal, h₂, h₃, h₄, fun st hm ↦ h₅ ▸ hm⟩

theorem trans (h : Retains done given s t) (k : Retains done given t r) :
    Retains done given s r := by
  refine ⟨fun c C hC hal hg ↦ ?_, fun b B e hB he ↦ ?_⟩
  · obtain ⟨X, hX, hXal, hp, hs, hst, hu⟩ := h.live c C hC hal hg
    obtain ⟨Y, hY, hYal, hp', hs', hst', hu'⟩ := k.live c X hX hXal (hp ▸ hg)
    exact ⟨Y, hY, hYal, hp'.trans hp, hs'.trans hs, hst'.trans hst, fun st hm ↦ hu' st (hu st hm)⟩
  · rcases h.waiting b B e hB he with hd | ⟨he', hr, X, hX, hp, hs⟩
    · exact .inl hd
    · rcases k.waiting b X e hX he' with hd | ⟨he'', hr', Y, hY, hp', hs'⟩
      · exact .inl hd
      · exact .inr ⟨he'', hr'.trans hr, Y, hY, hp'.trans hp, hs'.trans hs⟩

/-- A change of the one live block that is given back. -/
theorem of_unaffected (h : s.WellFormed l) (hb : s.heap b = some B) (hal : B.allocated = true)
    (hu : ∀ c, c ≠ b → Unaffected l l' s t c) (hq : t.cudaEvents = s.cudaEvents)
    (hr : t.recorded = s.recorded) : Retains done (· = B.ptr) s t := by
  have hkeep {c : BlockId} {C : CacheBlock} (hC : s.heap c = some C) (hc : c ≠ b) :=
    exists_of_unlinked (by rw [(hu c hc).heap, hC, Option.map_some])
  refine ⟨fun c C hC hlive hg ↦ ?_, fun c C e hC he ↦ .inr ⟨?_, by rw [hr], ?_⟩⟩
  · obtain ⟨X, hX, h₁, h₂, h₃, h₄, h₅⟩ := hkeep hC (by
      rintro rfl
      rw [hb] at hC
      cases hC
      exact hg rfl)
    exact ⟨X, hX, h₁.trans hlive, h₂, h₃, h₄, fun st hm ↦ h₅ ▸ hm⟩
  · rw [queueEntries, hq]
    exact he
  · obtain ⟨X, hX, _, h₂, h₃, _⟩ := hkeep hC (by
      rintro rfl
      have := (h.waiting he hb).2
      rw [hal] at this
      cases this)
    exact ⟨X, hX, h₂, h₃⟩

end Retains

/-! ### Using a block on another stream -/

private def usedOn (s : Impl) (b : BlockId) (B : CacheBlock) (uses : List Stream) : Impl :=
  { s with heap := update s.heap b (some { B with streamUses := uses }) }

/-- A live block may name any streams. -/
private theorem WellFormed.usedOn (h : s.WellFormed .none) (hb : s.heap b = some B)
    (hal : B.allocated = true) (uses : List Stream) :
    (s.usedOn b B uses).WellFormed .none ∧
      ∀ c, c ≠ b → Unaffected .none .none s (s.usedOn b B uses) c := by
  have ha := h.accounted
  have hat := h.placed.at_block b
  have hX : (s.usedOn b B uses).heap b = some { B with streamUses := uses } := by simp [Impl.usedOn]
  have hu (c : BlockId) (hc : c ≠ b) : Unaffected .none .none s (s.usedOn b B uses) c :=
    ⟨by simp [Impl.usedOn, hc], Nat.le_refl _, fun _ ↦ .rfl, fun _ ↦ .rfl, rfl, rfl, by simp,
      by simp⟩
  have hext : (s.usedOn b B uses).extents = s.extents := extents_update hb rfl
  refine ⟨⟨by rw [hext]; exact h.layout, h.segment, ?_, coalesced_mono h.coalesced hext ?_, ?_⟩, hu⟩
  · refine h.placed.change hu (.of_some hX (h.lt hb) (fun k ↦ hat.pool hb k)
      (fun p ↦ hat.live hb p) ?_ (hat.allocated_events B hb) (by simp) (hat.count B hb) ?_)
      h.placed.pool_nodup h.placed.handles
    · simp [hal]
    · have hl := hat.lifecycle
      rw [phaseOf_of hb] at hl
      rw [phaseOf_of hX]
      exact hl
  · rintro c ⟨C, hC, hi, hx⟩
    have hc : c ≠ b := by
      rintro rfl
      rw [hX] at hC
      cases hC
      rw [hal] at hi
      cases hi.1
    exact (hu c hc).mergeable ⟨C, hC, hi, hx⟩
  · have hw (f : Nat → CacheBlock → Nat) (hf : f b { B with streamUses := uses } = f b B) :
        RangeSum.weight (s.usedOn b B uses).heap f b = RangeSum.weight s.heap f b := by
      rw [RangeSum.weight_of hX, RangeSum.weight_of hb, hf]
    refine ha.change hu (h.lt hb) (.inl rfl) ?_ ?_ ?_ ha.segments ha.no_underflow
    · rw [hw _ rfl]
      rfl
    · rw [hw _ rfl]
      rfl
    · rw [hw _ rfl]
      rfl

/-- The live block at an address the table knows. -/
theorem WellFormed.live_of_lookup (h : s.WellFormed l) {p : Nat}
    (hp : s.allocatedBlocks.lookup p = some b) :
    ∃ B, s.heap b = some B ∧ B.allocated = true ∧ B.ptr = p :=
  ((h.placed.at_block b).allocated_iff p).mp hp

/-- After `record_stream` the block names the stream, unless it is its own or `nullptr`. -/
theorem recordStream_spec (done : Event → Prop) (given : Nat → Prop) (h : s.WellFormed .none) (p : Nat) (stream : Stream) :
    (s.recordStream p stream).2.WellFormed .none ∧
      Retains done given s (s.recordStream p stream).2 ∧
      (s.recordStream p stream).2.submitted = s.submitted ∧
      (s.recordStream p stream).2.driverSegments = s.driverSegments ∧
      ∀ b B, s.allocatedBlocks.lookup p = some b → s.heap b = some B → p ≠ 0 → stream ≠ 0 →
        stream ≠ B.stream → ∃ X, (s.recordStream p stream).2.heap b = some X ∧
          stream ∈ X.streamUses := by
  have hsame : Retains done given s s := .of_evolves (.refl s)
  unfold recordStream
  split
  · next hz =>
    exact ⟨h, hsame, rfl, rfl, fun b B _ _ hp hst ↦ by rcases hz with hz | hz <;> contradiction⟩
  · cases hp : s.allocatedBlocks.lookup p with
    | none => exact ⟨h, hsame, rfl, rfl, nofun⟩
    | some b =>
      obtain ⟨B, hb, hal, rfl⟩ := h.live_of_lookup hp
      dsimp only
      rw [deref_of hb]
      split
      · next hst =>
        refine ⟨h, hsame, rfl, rfl, fun c C hc hC _ _ hne ↦ ?_⟩
        cases hc
        rw [hb] at hC
        cases hC
        exact absurd hst hne
      · have heq : s.modify b (fun b ↦ { b with streamUses := insertStream stream b.streamUses }) =
            s.usedOn b B (insertStream stream B.streamUses) := by
          simp [modify, Impl.usedOn, hb]
        rw [heq]
        obtain ⟨hwf, hu⟩ := h.usedOn hb hal (insertStream stream B.streamUses)
        have hX : (s.usedOn b B (insertStream stream B.streamUses)).heap b =
            some { B with streamUses := insertStream stream B.streamUses } := by
          simp [Impl.usedOn]
        refine ⟨hwf, ⟨fun c C hC hlive _ ↦ ?_, fun c C e hC he ↦ .inr ⟨he, rfl, ?_⟩⟩, rfl, rfl,
          fun c C hc hC _ _ _ ↦ ?_⟩
        · by_cases hc : c = b
          · subst hc
            rw [hb] at hC
            cases hC
            exact ⟨_, hX, hal, rfl, rfl, rfl, fun st hm ↦ mem_insertStream.mpr (.inr hm)⟩
          · exact ⟨C, by simpa [Impl.usedOn, hc] using hC, hlive, rfl, rfl, rfl, fun _ hm ↦ hm⟩
        · by_cases hc : c = b
          · subst hc
            rw [hb] at hC
            cases hC
            exact ⟨_, hX, rfl, rfl⟩
          · exact ⟨C, by simpa [Impl.usedOn, hc] using hC, rfl, rfl⟩
        · cases hc
          exact ⟨_, hX, mem_insertStream.mpr (.inl rfl)⟩

/-! ### Freeing -/

/-- The memory `[p, p + size)` belongs to a block with an event in the queues that was
recorded behind `work`. -/
def Quarantined (s : Impl) (b : BlockId) (p size : Nat) (work : Stream × Nat) : Prop :=
  ∃ e B, (e, b) ∈ s.queueEntries ∧ s.recorded e = work ∧ s.heap b = some B ∧ B.ptr = p ∧
    B.size = size

/-- Memory stays in quarantine until its event is done. -/
theorem Quarantined.retains {p size : Nat} {work : Stream × Nat}
    (h : s.Quarantined b p size work) (hr : Retains done given s t) :
    (∃ e, done e ∧ s.recorded e = work) ∨ t.Quarantined b p size work := by
  obtain ⟨e, B, he, hw, hB, rfl, rfl⟩ := h
  rcases hr.waiting b B e hB he with hd | ⟨he', hrec, X, hX, hp, hs⟩
  · exact .inl ⟨e, hd, hw⟩
  · exact .inr ⟨e, X, he', hrec.trans hw, hX, hp, hs⟩

/-- What freeing the live block at `p` leaves. -/
structure Frees (done : Event → Prop) (s : Impl) (p : Nat) (reply : Reply) (r : Impl) : Prop where
  wellFormed : r.WellFormed .none
  retains : Retains done (· = p) s r
  submitted : r.submitted = s.submitted
  segments : ∀ base raw, r.driverSegments.lookup base = some raw →
    s.driverSegments.lookup base = some raw
  outcome : reply = .done ∨ ∃ x, reply = .threw x
  held : ∀ b, r.allocatedBlocks.lookup p = some b → Retains done (fun _ ↦ False) s r
  deferred : reply = .done → ∀ b B, s.allocatedBlocks.lookup p = some b → s.heap b = some B →
    ∀ st ∈ B.streamUses, r.Quarantined b p B.size (st, s.submitted st)

namespace Frees

variable {p : Nat} {reply : Reply}

theorem of_progress (hp : Progress done s r) (hthrew : ∃ x, reply = .threw x) :
    Frees done s p reply r := by
  refine ⟨hp.wellFormed, .of_evolves hp.evolves, hp.evolves.submitted, hp.segments, .inr hthrew,
    fun _ _ ↦ .of_evolves hp.evolves, ?_⟩
  rintro rfl
  obtain ⟨x, hx⟩ := hthrew
  cases hx

/-- Draining queues before the free. -/
theorem after (hp : Progress done s t) (h : Frees (fun _ ↦ False) t p reply r)
    (hwf : s.WellFormed .none) : Frees done s p reply r := by
  refine ⟨h.wellFormed, (Retains.of_evolves hp.evolves).trans
    (h.retains.mono (fun _ ↦ False.elim)), h.submitted.trans hp.evolves.submitted,
    fun base raw hr ↦ hp.segments _ _ (h.segments _ _ hr), h.outcome,
    fun b hb ↦ (Retains.of_evolves hp.evolves).trans ((h.held b hb).mono (fun _ ↦ False.elim)),
    ?_⟩
  intro hd b B hlookup hB st hm
  obtain ⟨B', hB', hal, _⟩ := hwf.live_of_lookup hlookup
  rw [hB] at hB'
  cases hB'
  obtain ⟨X, hX, _, _, hsize, _, huses⟩ := exists_of_unlinked (hp.evolves.live b B hB hal)
  have := h.deferred hd b X (by rw [hp.allocations, hlookup]) hX st (huses ▸ hm)
  rwa [hsize, hp.evolves.submitted] at this

/-- Trimming after the free. -/
theorem before (h : Frees done s p reply t) (hp : Progress (fun _ ↦ False) t r) :
    Frees done s p reply r := by
  refine ⟨hp.wellFormed, h.retains.trans (.of_evolves (hp.evolves.mono (fun _ ↦ False.elim))),
    hp.evolves.submitted.trans h.submitted,
    fun base raw hr ↦ h.segments _ _ (hp.segments _ _ hr), h.outcome,
    fun b hb ↦ (h.held b (hp.allocations ▸ hb)).trans
      (.of_evolves (hp.evolves.mono (fun _ ↦ False.elim))), ?_⟩
  intro hd b B hlookup hB st hm
  have hkeep : Retains _ (fun _ ↦ False) t r := .of_evolves hp.evolves
  rcases (h.deferred hd b B hlookup hB st hm).retains hkeep with ⟨_, hf, _⟩ | hq
  · exact hf.elim
  · exact hq

end Frees

/-- Leaving an event behind every stream; the block goes to its pool after all if not even
one could be had. -/
theorem insertEventsLocked_frees {result : Except Exn Unit} {hint : Stream}
    (h : s.WellFormed .none) (hb : s.heap b = some B) (hal : B.allocated = true)
    (hguard : deviceGuard d.insertGuard = .ok ()) (hne : usesWith B hint ≠ [])
    (hr : (s.beginFree B.ptr b hint).insertEventsLocked d b = (result, r))
    (hrec : ∀ x, result = .error x → RecordFailure x → ∀ st, d.record st = .success) :
    r.WellFormed .none ∧ Retains (fun _ ↦ False) (· = B.ptr) s r ∧ r.submitted = s.submitted ∧
      r.driverSegments = s.driverSegments ∧
      r.allocatedBlocks = s.allocatedBlocks.erase B.ptr ∧
      (result = .ok () → ∀ st ∈ usesWith B hint,
        r.Quarantined b B.ptr B.size (st, s.submitted st)) := by
  have hheap := beginFree_heap hb hint
  obtain ⟨hev, hrecd, hsub, hseg, hall⟩ := beginFree_fixed s B.ptr b hint
  have htaken := h.beginWait hb hal hint
  have hd : (s.beginFree B.ptr b hint).deref b =
      { B with allocated := false, streamUses := usesWith B hint } :=
    deref_of (by rw [hheap, update_self])
  unfold insertEventsLocked at hr
  rw [hguard, hd] at hr
  dsimp only at hr
  generalize ht : (s.beginFree B.ptr b hint).modify b (fun b ↦ { b with streamUses := [] }) = t
    at hr htaken
  have hX : t.heap b = some { B with allocated := false, streamUses := [] } := by
    rw [htaken.heap, update_self]
  have hcount := (h.placed.at_block b).allocated_events B hb hal
  have hheld : Limbo.held b { B with allocated := false, streamUses := [] } =
      .freeing b B.size := if_pos hcount
  have hstart : Retains (fun _ ↦ False) (· = B.ptr) s t := by
    subst ht
    exact .of_unaffected h hb hal htaken.unaffected hev hrecd
  have hsub' : t.submitted = s.submitted := by
    subst ht
    exact hsub
  have hseg' : t.driverSegments = s.driverSegments := by
    subst ht
    exact hseg
  have hall' : t.allocatedBlocks = s.allocatedBlocks.erase B.ptr := by
    subst ht
    exact hall
  rcases hl : insertEventsLoop d b (usesWith B hint) t with ⟨x | _, u⟩
  · obtain ⟨n, hwf, hY, hq, _⟩ := insertEventsLoop_spec (hheld ▸ htaken.wellFormed) hX rfl hl
      (fun y hy hfail ↦ by
        cases hy
        refine hrec x ?_ hfail
        rw [hl] at hr
        dsimp only at hr
        split at hr <;> cases hr <;> rfl)
    rw [hl] at hr
    dsimp only at hr
    rw [deref_of hY] at hr
    split at hr
    · next hz =>
      cases hr
      have hfree : Limbo.held b { B with
          allocated := false, streamUses := [], eventCount := B.eventCount + n } =
            .freeing b B.size := if_pos hz
      rw [hfree] at hwf
      obtain ⟨hwf', hkeep⟩ := hwf.freeBlockLocked (B := { B with
        allocated := false, streamUses := [], eventCount := B.eventCount + n }) hY
      have hsame := freeBlockLocked_sameEvents u b
      refine ⟨hwf', (hstart.trans (.of_evolves hq.evolves)).trans (.of_evolves
        (.of_keepsBusy hwf hkeep hsame.queues hsame.recorded hsame.submitted)),
        (hsame.submitted.trans hq.evolves.submitted).trans hsub',
        ((freeBlockLocked_driverSegments ..).trans hq.segments).trans hseg',
        (hsame.allocations.trans hq.allocations).trans hall', nofun⟩
    · next hz =>
      cases hr
      have hnone : Limbo.held b { B with
          allocated := false, streamUses := [], eventCount := B.eventCount + n } = .none :=
        if_neg hz
      exact ⟨hnone ▸ hwf, hstart.trans (.of_evolves hq.evolves), hq.evolves.submitted.trans hsub',
        hq.segments.trans hseg', hq.allocations.trans hall', nofun⟩
  · obtain ⟨n, hwf, hY, hq, hok⟩ := insertEventsLoop_spec (hheld ▸ htaken.wellFormed) hX rfl hl
      (fun y hy ↦ by cases hy)
    rw [hl] at hr
    cases hr
    obtain ⟨hn, hst⟩ := hok rfl
    have hpos : 0 < n := by
      rw [hn]
      exact List.length_pos_iff.mpr hne
    have hnone : Limbo.held b { B with
        allocated := false, streamUses := [], eventCount := B.eventCount + n } = .none := by
      refine if_neg ?_
      simp only
      omega
    refine ⟨hnone ▸ hwf, hstart.trans (.of_evolves hq.evolves), hq.evolves.submitted.trans hsub',
      hq.segments.trans hseg', hq.allocations.trans hall', fun _ st hm ↦ ?_⟩
    obtain ⟨e, he, hrecorded⟩ := hst st hm
    exact ⟨e, _, he, by rw [hrecorded, hsub'], hY, rfl, rfl⟩

theorem mem_usesWith {st : Stream} (hint : Stream) (h : st ∈ B.streamUses) :
    st ∈ usesWith B hint := by
  unfold usesWith
  split
  · exact mem_insertStream.mpr (.inr h)
  · exact h

/-- How `deallocate` ends from where the block has been found: the block is free, its events cannot
be inserted, or it waits for them. -/
inductive HandsBack (d : DriverAnswers) (s : Impl) (b : BlockId) (B : CacheBlock) (hint : Stream) :
    Reply → Impl → Prop
  | free : usesWith B hint = [] → ((s.beginFree B.ptr b hint).deref b).streamUses.isEmpty = true →
      ((s.beginFree B.ptr b hint).freeBlockLocked b).WellFormed .none →
      HandsBack d s b B hint .done ((s.beginFree B.ptr b hint).freeBlockLocked b).trimCacheLocked
  | failed {x : Exn} {t : Impl} : usesWith B hint ≠ [] →
      ((s.beginFree B.ptr b hint).deref b).streamUses.isEmpty = false →
      (s.beginFree B.ptr b hint).insertEventsLocked d b = (.error x, t) →
      HandsBack d s b B hint (.threw x) t
  | waits {t : Impl} : usesWith B hint ≠ [] →
      ((s.beginFree B.ptr b hint).deref b).streamUses.isEmpty = false →
      (s.beginFree B.ptr b hint).insertEventsLocked d b = (.ok (), t) → t.WellFormed .none →
      HandsBack d s b B hint .done t.trimCacheLocked

theorem handsBack_deallocateBlock {reply : Reply} {hint : Stream} (h : s.WellFormed .none)
    (hb : s.heap b = some B) (hal : B.allocated = true)
    (hguard : deviceGuard d.insertGuard = .ok ())
    (hr : s.deallocateBlock d B.ptr b hint = (reply, r)) : HandsBack d s b B hint reply r := by
  have hd : (s.beginFree B.ptr b hint).deref b =
      { B with allocated := false, streamUses := usesWith B hint } :=
    deref_of (by rw [beginFree_heap hb, update_self])
  rw [deallocateBlock_eq] at hr
  by_cases huses : usesWith B hint = []
  · have hempty : ((s.beginFree B.ptr b hint).deref b).streamUses.isEmpty = true := by
      rw [hd, huses, List.isEmpty_nil]
    rw [if_pos hempty] at hr
    cases hr
    have htaken := h.beginFree hb hal hint huses
    have hX : (s.beginFree B.ptr b hint).heap b =
        some { B with allocated := false, streamUses := [] } := by
      rw [htaken.heap, update_self]
    exact .free huses hempty (htaken.wellFormed.freeBlockLocked
      (B := { B with allocated := false, streamUses := [] }) hX).1
  · have hempty : ((s.beginFree B.ptr b hint).deref b).streamUses.isEmpty = false := by
      simpa [hd] using huses
    simp only [hempty] at hr
    rcases hi : (s.beginFree B.ptr b hint).insertEventsLocked d b with ⟨x | _, t⟩
    · rw [hi] at hr
      cases hr
      exact .failed huses hempty hi
    · rw [hi] at hr
      cases hr
      exact .waits huses hempty hi (insertEventsLocked_frees h hb hal hguard huses hi nofun).1

/-- `deallocate` from where the block has been found. -/
theorem deallocateBlock_frees {reply : Reply} {hint : Stream} (h : s.WellFormed .none)
    (hb : s.heap b = some B) (hal : B.allocated = true)
    (hguard : deviceGuard d.insertGuard = .ok ())
    (hr : s.deallocateBlock d B.ptr b hint = (reply, r))
    (hrec : ∀ x, reply = .threw x → RecordFailure x → ∀ st, d.record st = .success) :
    Frees (fun _ ↦ False) s B.ptr reply r := by
  cases handsBack_deallocateBlock h hb hal hguard hr with
  | free huses _ hwf =>
    obtain ⟨hev, hrecd, hsub, hseg, hall⟩ := beginFree_fixed s B.ptr b hint
    have htaken := h.beginFree hb hal hint huses
    have hX : (s.beginFree B.ptr b hint).heap b =
        some { B with allocated := false, streamUses := [] } := by
      rw [htaken.heap, update_self]
    obtain ⟨-, hkeep⟩ := htaken.wellFormed.freeBlockLocked
      (B := { B with allocated := false, streamUses := [] }) hX
    have hsame := freeBlockLocked_sameEvents (s.beginFree B.ptr b hint) b
    refine .before ⟨hwf, (Retains.of_unaffected h hb hal htaken.unaffected hev hrecd).trans
      (.of_evolves (.of_keepsBusy htaken.wellFormed hkeep hsame.queues hsame.recorded
        hsame.submitted)), hsame.submitted.trans hsub, fun _ _ hx ↦ ?_, .inl rfl,
      fun c hc ↦ ?_, ?_⟩ (trimCacheLocked_progress hwf).1
    · rwa [freeBlockLocked_driverSegments, hseg] at hx
    · rw [hsame.allocations, hall, AList.lookup_erase] at hc
      cases hc
    · intro _ c C hlookup hC st hm
      have hcb := ((h.placed.at_block b).live hb B.ptr).mpr ⟨hal, rfl⟩
      rw [hlookup] at hcb
      cases hcb
      rw [hC] at hb
      cases hb
      have := mem_usesWith hint hm
      rw [huses] at this
      cases this
  | @failed x _ huses _ hi =>
    obtain ⟨hwf, hret, hsub, hseg, hall, _⟩ := insertEventsLocked_frees h hb hal hguard huses hi
      (fun y hy ↦ by cases hy; exact hrec x rfl)
    refine ⟨hwf, hret, hsub, fun _ _ hx ↦ hseg ▸ hx, .inr ⟨x, rfl⟩, fun c hc ↦ ?_, nofun⟩
    rw [hall, AList.lookup_erase] at hc
    cases hc
  | waits huses _ hi _ =>
    obtain ⟨hwf, hret, hsub, hseg, hall, hq⟩ := insertEventsLocked_frees h hb hal hguard huses hi
      nofun
    refine .before ⟨hwf, hret, hsub, fun _ _ hx ↦ hseg ▸ hx, .inl rfl, fun c hc ↦ ?_, ?_⟩
      (trimCacheLocked_progress hwf).1
    · rw [hall, AList.lookup_erase] at hc
      cases hc
    intro _ c C hlookup hC st hm
    have hcb := ((h.placed.at_block b).live hb B.ptr).mpr ⟨hal, rfl⟩
    rw [hlookup] at hcb
    cases hcb
    rw [hC] at hb
    cases hb
    exact hq rfl st (mem_usesWith hint hm)

/-- `deallocate`. -/
theorem deallocate_frees {p : Nat} {reply : Reply} {hint : Stream} (h : s.WellFormed .none)
    (hguard : deviceGuard d.insertGuard = .ok ()) (hr : s.deallocate d p hint = (reply, r))
    (hrec : ∀ x, reply = .threw x → RecordFailure x → ∀ st, d.record st = .success) :
    Frees (Completes d) s p reply r := by
  unfold deallocate at hr
  split at hr
  · next hp =>
    cases hr
    refine ⟨h, .of_evolves (.refl s), rfl, fun _ _ hx ↦ hx, .inl rfl,
      fun _ _ ↦ .of_evolves (.refl s), fun _ b B hlookup ↦ ?_⟩
    obtain ⟨B', hB', _, hptr⟩ := h.live_of_lookup hlookup
    have := (h.bounds hB').1
    omega
  · rcases hpe : s.processEventsLocked d with ⟨x | _, t⟩
    · rw [hpe] at hr
      cases hr
      obtain ⟨hp, _⟩ := processEventsLocked_progress h hpe
      exact .of_progress (hp.mono (fun _ ↦ .inl)) ⟨x, rfl⟩
    · rw [hpe] at hr
      obtain ⟨hp, _⟩ := processEventsLocked_progress h hpe
      refine .after (hp.mono (fun _ ↦ .inl)) ?_ h
      dsimp only at hr
      split at hr
      · cases hr
        exact .of_progress (.refl hp.wellFormed) ⟨_, rfl⟩
      · next b hlookup =>
        obtain ⟨B, hB, hal, rfl⟩ := hp.wellFormed.live_of_lookup hlookup
        rw [deref_of hB, hal] at hr
        exact deallocateBlock_frees hp.wellFormed hB hal hguard hr hrec

end Impl
end Hisab.Memory
