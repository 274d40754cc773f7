import Hisab.Memory.DrainFrames
import Hisab.Memory.FreeRelations
import Hisab.Memory.HostAllocations

/-!
# A failing `allocate`

When an exception leaves `allocate`, the live allocations are as before and every block and segment
is still tracked, unless a host allocation has failed while a block was in no container or a
segment of the driver without a record.
-/

namespace Hisab.Memory
open Hisab.Base ExtentMap CachingConfig Function Impl List CacheBlock

/-- The host allocations that may fail without a loss. -/
def HostSite.harmless : HostSite → Bool
  | .recycle | .freedTrace | .flushRecycle | .flushFreedTrace | .oomTrace | .metadata => true
  | .pool | .flushPool | .releaseTrace | .driverSegments | .segmentTrace | .front | .remainder
  | .allocatedBlocks | .allocTrace => false

/-- Those of them after which the event queues are in order. -/
def HostSite.clean : HostSite → Bool
  | .recycle | .freedTrace | .oomTrace | .metadata => true
  | _ => false

/-- No host allocation has failed, or a harmless one. -/
def Fault.harmless : Fault → Bool
  | .exn _ => true
  | .host site => site.harmless

namespace Impl

variable {s t r : Impl} {b : BlockId} {B : CacheBlock} {k : PoolKind} {d : DriverAnswers}
  {l : Limbo} {queues : List (Stream × EventQueue)} {mapped : Option RawSegment} {n : Nat}
  {f : Fault} {stream : Stream} {rounded size n : Nat} {request : SegmentRequest}

/-- The block is in `allocated_blocks_`, in its pool, or waits in an event queue. -/
def Tracked (s : Impl) (b : BlockId) (B : CacheBlock) : Prop :=
  (∃ p, s.allocatedBlocks.lookup p = some b) ∨ b ∈ s.pools B.pool ∨
    b ∈ s.queuedBlocks ∧ 0 < B.eventCount

/-- The live allocations are the same ones, at the same places. -/
structure LiveStays (s r : Impl) : Prop where
  table : r.allocatedBlocks = s.allocatedBlocks
  bytes : r.stats.bytesAllocated = s.stats.bytesAllocated
  live : ∀ c C, s.heap c = some C → C.allocated = true → ∃ X, r.heap c = some X ∧
    X.allocated = true ∧ X.ptr = C.ptr ∧ X.size = C.size ∧ X.stream = C.stream

/-- Nothing is lost from `s` to `r`: the live allocations stay, every block is tracked, the cached
bytes are those of the pools, every recorded segment has a block, and the segment that the driver
has mapped for the call, if any, is recorded. -/
structure LosesNothing (s : Impl) (mapped : Option RawSegment) (r : Impl) : Prop where
  live : LiveStays s r
  blocks : ∀ b B, r.heap b = some B → r.Tracked b B
  cached : r.bytesCached = ((r.pools .small ++ r.pools .large).map (fun b ↦ (r.deref b).size)).sum
  segments : ∀ base raw, r.driverSegments.lookup base = some raw →
    ∃ b B, r.heap b = some B ∧ B.segmentBase = base
  recorded : ∀ raw, mapped = some raw → r.driverSegments.lookup raw.ptr = some raw

/-- Some block is in no container. -/
def Lost (r : Impl) : Prop := ∃ b B, r.heap b = some B ∧ ¬r.Tracked b B

/-- The state is one of the invariant once stale entries leave the queues. -/
def Settled (r : Impl) : Prop :=
  ∃ queues : List (Stream × EventQueue), (r.withQueues queues).WellFormed .none ∧
    ∀ entry ∈ queues.flatMap Prod.snd, entry ∈ r.queueEntries

namespace LiveStays

theorem of_heap (hh : t.heap = s.heap) (ht : t.allocatedBlocks = s.allocatedBlocks)
    (hb : t.stats.bytesAllocated = s.stats.bytesAllocated) : LiveStays s t := by
  refine ⟨ht, hb, fun c C hC hal ↦ ⟨C, ?_, hal, rfl, rfl, rfl⟩⟩
  rw [hh]
  exact hC

theorem refl (s : Impl) : LiveStays s s := of_heap rfl rfl rfl

theorem trans (h : LiveStays s t) (k : LiveStays t r) : LiveStays s r := by
  refine ⟨k.table.trans h.table, k.bytes.trans h.bytes, fun c C hC hal ↦ ?_⟩
  obtain ⟨X, hX, hXal, hptr, hsize, hstream⟩ := h.live c C hC hal
  obtain ⟨Y, hY, hYal, hptr', hsize', hstream'⟩ := k.live c X hX hXal
  exact ⟨Y, hY, hYal, hptr'.trans hptr, hsize'.trans hsize, hstream'.trans hstream⟩

/-- One block is assigned to, but for what makes it live. -/
theorem of_update {X : CacheBlock} (hB : s.heap b = some B) (hal : X.allocated = B.allocated)
    (hptr : X.ptr = B.ptr) (hsize : X.size = B.size) (hstream : X.stream = B.stream)
    (hh : t.heap = update s.heap b (some X)) (ht : t.allocatedBlocks = s.allocatedBlocks)
    (hb : t.stats.bytesAllocated = s.stats.bytesAllocated) : LiveStays s t := by
  refine ⟨ht, hb, fun c C hC hC' ↦ ?_⟩
  by_cases hcb : c = b
  · subst hcb
    rw [hB] at hC
    cases hC
    exact ⟨X, by rw [hh, update_self], hal.trans hC', hptr, hsize, hstream⟩
  · exact ⟨C, by rw [hh, update_of_ne hcb, hC], hC', rfl, rfl, rfl⟩

end LiveStays

theorem freeClosed_liveStays : FreeClosed LiveStays := by
  constructor
  case refl => exact .refl
  case trans => exact fun _ _ _ h k ↦ h.trans k
  case queues => exact fun _ _ ↦ .of_heap rfl rfl rfl
  case counted => exact fun _ _ ↦ .of_heap rfl rfl rfl
  case cleared =>
    intro s b
    cases hB : s.heap b with
    | none =>
      apply LiveStays.of_heap (s := s) (t := s.modify b (fun B ↦ { B with streamUses := [] })) _ rfl rfl
      funext c
      by_cases hcb : c = b
      · subst hcb
        simp [modify, hB]
      · simp [modify, hcb]
    | some B =>
      apply LiveStays.of_update (t := s.modify b (fun B ↦ { B with streamUses := [] }))
        (X := { B with streamUses := [] }) hB rfl rfl rfl rfl _ rfl rfl
      simp [modify, hB]
  case retired =>
    intro s e b B hB
    exact .of_update (X := { B with eventCount := B.eventCount - 1 }) hB rfl rfl rfl rfl rfl rfl rfl
  case enqueued =>
    intro s b B stream e pool n hB
    exact .of_update (X := { B with eventCount := B.eventCount + 1 }) hB rfl rfl rfl rfl rfl rfl rfl
  case free =>
    intro s b B h hB
    obtain ⟨-, hbusy⟩ := h.freeBlockLocked hB
    refine ⟨(freeBlockLocked_sameEvents s b).allocations, by rw [freeBlockLocked_stats],
      fun c C hC hal ↦ ?_⟩
    have hidle : ¬C.Idle := by
      rintro ⟨hfalse, -⟩
      rw [hal] at hfalse
      cases hfalse
    obtain ⟨X, hX, hu⟩ := Option.map_eq_some_iff.mp (hbusy c C hC hidle)
    have hXal := congrArg allocated hu
    have hptr := congrArg ptr hu
    have hsize := congrArg size hu
    have hstream := congrArg stream hu
    exact ⟨X, hX, hXal.trans hal, hptr, hsize, hstream⟩

theorem releaseClosed_liveStays : ReleaseClosed LiveStays := by
  constructor
  case refl => exact .refl
  case trans => exact fun _ _ _ h k ↦ h.trans k
  case release =>
    intro s b B k h hB hm hsplit
    obtain ⟨hreleases, -⟩ := releaseBlock_releases h hB hm hsplit
    refine ⟨rfl, rfl, fun c C hC hal ↦ ?_⟩
    rcases hreleases.heap c with hsame | ⟨-, X, hX, hidle⟩
    · exact ⟨C, hsame.trans hC, hal, rfl, rfl, rfl⟩
    · rw [hC] at hX
      cases hX
      rw [hidle.1] at hal
      cases hal

/-! ### Settled and lost -/

theorem WellFormed.settled (h : s.WellFormed .none) : s.Settled := ⟨s.cudaEvents, h, fun _ he ↦ he⟩

theorem Settled.losesNothing (h : r.Settled) (hk : LiveStays s r) : LosesNothing s .none r := by
  obtain ⟨queues, hwf, hqueues⟩ := h
  refine ⟨hk, fun b B hB ↦ ?_, hwf.bytesExact.cached, fun base raw hraw ↦ ?_, fun raw hx ↦ ?_⟩
  · obtain ⟨c, hc, -⟩ := (hwf.inPlace hB).one
    cases c with
    | allocatedBlocks => exact .inl hc
    | pool k =>
      obtain ⟨rfl, -⟩ := (hwf.inPlace hB).pooled k hc
      exact .inr (.inl hc)
    | cudaEvents =>
      obtain ⟨-, hpos⟩ := (hwf.inPlace hB).waiting hc
      obtain ⟨entry, he, rfl⟩ := mem_map.mp hc
      exact .inr (.inr ⟨mem_map_of_mem (hqueues entry he), hpos⟩)
  · obtain ⟨c, E, hE, hbase⟩ := hwf.layout.head base raw.size (by
      change Option.map RawSegment.size (r.driverSegments.lookup base) = _
      rw [hraw, Option.map_some])
    obtain ⟨C, hC, rfl⟩ := exists_of_extents hE
    exact ⟨c, C, hC, hbase.2⟩
  · cases hx

/-- A block on its way is in no container. -/
theorem WellFormed.not_tracked (h : (r.withQueues queues).WellFormed l) (hl : l.block = some b)
    (hB : r.heap b = some B) : ¬r.Tracked b B := by
  have hat := h.placed.at_block b
  have hidle : B.Idle := h.idle hl hB
  rintro (⟨p, hp⟩ | hm | ⟨-, hpos⟩)
  · obtain ⟨X, hX, hal, -⟩ := (hat.allocated_iff p).mp hp
    change r.heap b = some X at hX
    rw [hB] at hX
    cases hX
    rw [hidle.1] at hal
    cases hal
  · obtain ⟨X, -, -, -, hfree⟩ := (hat.pool_iff B.pool).mp hm
    exact hfree hl
  · rw [hidle.2] at hpos
    exact absurd hpos (Int.lt_irrefl 0)

theorem WellFormed.lost (h : (r.withQueues queues).WellFormed l) (hl : l.block = some b) :
    r.Lost := by
  obtain ⟨B, hB, -⟩ := (h.placed.at_block b).limbo_idle hl
  exact ⟨b, B, hB, h.not_tracked hl hB⟩

theorem Lost.not_losesNothing (h : r.Lost) : ¬LosesNothing s mapped r := by
  obtain ⟨b, B, hB, hnot⟩ := h
  exact fun hx ↦ hnot (hx.blocks b B hB)

/-- A block is lost, the live allocations have changed, or the segment that the driver has mapped
has no record or no block. -/
def Broken (mapped : Option RawSegment) (s r : Impl) : Prop :=
  r.Lost ∨ r.allocatedBlocks ≠ s.allocatedBlocks ∨
    ∃ raw, mapped = some raw ∧ (r.driverSegments.lookup raw.ptr ≠ some raw ∨
      ∀ b B, r.heap b = some B → B.segmentBase ≠ raw.ptr)

/-- What is left of `s` when `f` is thrown. -/
structure Faults (mapped : Option RawSegment) (s : Impl) (f : Fault) (r : Impl) : Prop where
  harmless : f.harmless = true → r.Settled ∧ LiveStays s r
  harmful : f.harmless = false → Broken mapped s r
  clean : ∀ site, f = .host site → site.clean = true → r.WellFormed .none ∧
    ∀ base raw, r.driverSegments.lookup base = some raw → s.driverSegments.lookup base = some raw

namespace Faults

variable {mapped : Option RawSegment} {f : Fault}

/-- Nothing is lost just where the failure is harmless. -/
theorem losesNothing_iff (h : Faults mapped s f r) (hm : f.harmless = true → mapped = .none) :
    LosesNothing s mapped r ↔ f.harmless = true := by
  constructor
  · intro hnothing
    by_contra hf
    rcases h.harmful (Bool.eq_false_iff.mpr hf) with
      hlost | htable | ⟨raw, hraw, hrecord | hblock⟩
    · exact hlost.not_losesNothing hnothing
    · exact htable hnothing.live.table
    · exact hrecord (hnothing.recorded raw hraw)
    · obtain ⟨b, B, hB, hbase⟩ := hnothing.segments _ _ (hnothing.recorded raw hraw)
      exact hblock b B hB hbase
  · intro hf
    obtain ⟨hsettled, hlive⟩ := h.harmless hf
    rw [hm hf]
    exact hsettled.losesNothing hlive

theorem of_wellFormed (h : r.WellFormed .none) (hk : LiveStays s r) (hf : f.harmless = true)
    (hseg : ∀ base raw, r.driverSegments.lookup base = some raw →
      s.driverSegments.lookup base = some raw) : Faults mapped s f r := by
  refine ⟨fun _ ↦ ⟨h.settled, hk⟩, fun hx ↦ ?_, fun _ _ _ ↦ ⟨h, hseg⟩⟩
  exact absurd (hx.symm.trans hf) Bool.false_ne_true

theorem of_lost {site : HostSite} (h : r.Lost) (hs : site.harmless = false)
    (hc : site.clean = false) : Faults mapped s (.host site) r := by
  refine ⟨fun hx ↦ ?_, fun _ ↦ .inl h, fun site' hs' hx ↦ ?_⟩
  · exact absurd (hs.symm.trans hx) Bool.false_ne_true
  · cases hs'
    exact absurd (hc.symm.trans hx) Bool.false_ne_true

theorem after (hk : LiveStays s t) (hseg : ∀ base raw,
    t.driverSegments.lookup base = some raw → s.driverSegments.lookup base = some raw)
    (h : Faults mapped t f r) : Faults mapped s f r := by
  refine ⟨fun hf ↦ ?_, fun hf ↦ ?_, fun site hs hc ↦ ?_⟩
  · obtain ⟨hsettled, hlive⟩ := h.harmless hf
    exact ⟨hsettled, hk.trans hlive⟩
  · rcases h.harmful hf with hlost | htable | hraw
    · exact .inl hlost
    · exact .inr (.inl (by rw [← hk.table]; exact htable))
    · exact .inr (.inr hraw)
  · obtain ⟨hwf, hsegs⟩ := h.clean site hs hc
    exact ⟨hwf, fun base raw hx ↦ hseg base raw (hsegs base raw hx)⟩

end Faults

/-! ### Draining -/

theorem WellFormed.mergeNeighbours (h : s.WellFormed (.freeing b B.size)) (hb : s.heap b = some B) :
    (s.mergeNeighbours b).WellFormed (.freeing b B.size) := by
  obtain ⟨D, hm, hprev⟩ := h.mergePrev hb
  obtain ⟨X, hm', -, -⟩ := hm.wellFormed.mergeNext hm.heap hprev
  unfold Impl.mergeNeighbours
  rw [deref_of hb]
  dsimp only
  rw [deref_of hm.heap]
  exact hm'.wellFormed

theorem hostRetireEvent_eq (hb : s.heap b = some B) (poolSite traceSite : HostSite) (e : Event)
    (n : Nat) :
    s.hostRetireEvent poolSite traceSite e b n =
      if B.eventCount - 1 = 0 then (s.retired e b B).hostFreeBlockLocked poolSite traceSite b n
      else (.ok ((), n), s.retired e b B) := by
  have hmod : (({ s with eventPool := s.eventPool ++ [e] } : Impl).modify b
      (fun b ↦ { b with eventCount := b.eventCount - 1 })).log (.drained b) = s.retired e b B := by
    simp [modify, log, retired, hb]
  have hd : (s.retired e b B).deref b = { B with eventCount := B.eventCount - 1 } :=
    deref_of (by simp [retired])
  simp only [hostRetireEvent, hmod, hd]

/-- When the insertion into the pool fails the block is out of everything; when the trace fails it
is done. -/
theorem hostRetireEvent_fault {e : Event} {poolSite traceSite : HostSite} (h : s.WellFormed .none)
    (hq : s.queueEntries.Perm ((e, b) :: queues.flatMap Prod.snd))
    (hr : (s.withQueues queues).hostRetireEvent poolSite traceSite e b n = (.error f, r)) :
    (f = .host poolSite ∧ ∃ l : Limbo, l.block = some b ∧ r.WellFormed l) ∨
      (f = .host traceSite ∧ r = (s.withQueues queues).retireEvent e b) := by
  have hm : (e, b) ∈ s.queueEntries := hq.mem_iff.mpr (by simp)
  obtain ⟨B, hB⟩ := (h.placed.at_block b).queued_live (mem_map_of_mem hm)
  obtain ⟨hretired, -⟩ := h.retired hB hq
  have hX : ((s.withQueues queues).retired e b B).heap b =
      some { B with eventCount := B.eventCount - 1 } := by simp [retired]
  rw [hostRetireEvent_eq (s := s.withQueues queues) hB] at hr
  rw [retireEvent_eq (s := s.withQueues queues) hB]
  by_cases hz : B.eventCount - 1 = 0
  · rw [if_pos hz] at hr ⊢
    have hheld : Limbo.held b { B with eventCount := B.eventCount - 1 } =
        .freeing b B.size := if_pos hz
    rw [hheld] at hretired
    rcases n with _ | _ | n
    · cases hr
      have hmerged := hretired.mergeNeighbours (B := { B with eventCount := B.eventCount - 1 }) hX
      exact .inl ⟨rfl, .freeing b B.size, rfl, hmerged⟩
    · cases hr
      exact .inr ⟨rfl, rfl⟩
    · cases hr
  · rw [if_neg hz] at hr
    cases hr

variable {before after : List (Stream × EventQueue)}

theorem queueEntries_perm {e : Event} {q : EventQueue}
    (hq : s.cudaEvents = before ++ (stream, (e, b) :: q) :: after) :
    s.queueEntries.Perm ((e, b) :: (before ++ (stream, q) :: after).flatMap Prod.snd) := by
  rw [queueEntries, hq]
  simp only [flatMap_append]
  exact perm_middle

theorem hostDrainQueue_faults {q : EventQueue} (h : s.WellFormed .none)
    (hq : s.cudaEvents = before ++ (stream, q) :: after)
    (hr : hostDrainQueue d before stream after q n s = (.error f, r)) : Faults .none s f r := by
  induction q generalizing n s with
  | nil => cases hr
  | cons entry q ih =>
    obtain ⟨e, b⟩ := entry
    have hperm := queueEntries_perm hq
    have hkeeps := freeClosed_liveStays.retireEvent h hperm
    obtain ⟨hnext, -, hqs, -, hseg, -⟩ := h.retireEvent hperm
    unfold hostDrainQueue at hr
    cases ha : d.query e with
    | success =>
      simp only [ha] at hr
      cases n with
      | zero =>
        cases hr
        exact .of_wellFormed h (.refl _) rfl (fun _ _ hx ↦ hx)
      | succ n =>
        have hagrees := hostRetireEvent_agrees .pool .freedTrace
          (s.withQueues (before ++ (stream, q) :: after)) e b n
        rcases hret : (s.withQueues (before ++ (stream, q) :: after)).hostRetireEvent .pool
          .freedTrace e b n with ⟨g | ⟨u, n'⟩, t⟩
        · have hfault := hostRetireEvent_fault h hperm hret
          rw [withQueues] at hret
          dsimp only at hr
          rw [hret] at hr
          cases hr
          rcases hfault with ⟨rfl, l, hl, hwf⟩ | ⟨rfl, rfl⟩
          · have hself : (r.withQueues r.cudaEvents).WellFormed l := hwf
            exact .of_lost (hself.lost hl) rfl rfl
          · exact .of_wellFormed hnext hkeeps rfl (fun _ _ hx ↦ hseg ▸ hx)
        · cases hagrees.1 u n' t hret
          rw [withQueues] at hret
          dsimp only at hr
          rw [hret] at hr
          exact (ih hnext hqs hr).after hkeeps (fun _ _ hx ↦ hseg ▸ hx)
    | notReady =>
      simp only [ha] at hr
      cases hr
    | memoryAllocation | other code =>
      simp only [ha] at hr
      cases hr
      exact .of_wellFormed h (.refl _) rfl (fun _ _ hx ↦ hx)

theorem hostProcessQueues_faults {before queues : List (Stream × EventQueue)}
    (h : s.WellFormed .none) (hq : s.cudaEvents = before ++ queues)
    (hr : hostProcessQueues d before queues n s = (.error f, r)) : Faults .none s f r := by
  induction queues generalizing n s before with
  | nil => cases hr
  | cons queue queues ih =>
    obtain ⟨stream, q⟩ := queue
    unfold hostProcessQueues at hr
    have hagrees := hostDrainQueue_agrees (d := d) before stream queues q n s
    rcases hd : hostDrainQueue d before stream queues q n s with ⟨g | ⟨q', n'⟩, t⟩
    · rw [hd] at hr
      cases hr
      exact hostDrainQueue_faults h hq hd
    · rw [hd] at hr
      have hdrained := hagrees.1 q' n' t hd
      obtain ⟨hp, -, hqs⟩ := drainQueue_progress h hq hdrained
      have hkeeps := freeClosed_liveStays.drainQueue (d := d) h hq
      rw [hdrained] at hkeeps
      cases q' with
      | nil =>
        have hempty : ((before ++ queues).flatMap Prod.snd).Perm t.queueEntries := by
          rw [queueEntries, hqs [] rfl]
          simp
        have hreq : Progress (fun _ ↦ False) t (t.withQueues (before ++ queues)) :=
          .requeue hp.wellFormed hempty
        have hrequeued : LiveStays t (t.withQueues (before ++ queues)) := .of_heap rfl rfl rfl
        exact (ih hreq.wellFormed rfl hr).after (hkeeps.trans hrequeued) hp.segments
      | cons entry q' => exact (ih hp.wellFormed (by simp [hqs _ rfl]) hr).after hkeeps hp.segments

theorem hostProcessEventsLocked_faults (h : s.WellFormed .none)
    (hr : s.hostProcessEventsLocked d n = (.error f, r)) : Faults .none s f r := by
  unfold hostProcessEventsLocked at hr
  cases hguard : deviceGuard d.processGuard with
  | error e =>
    rw [hguard] at hr
    cases hr
    exact .of_wellFormed h (.refl _) rfl (fun _ _ hx ↦ hx)
  | ok u =>
    rw [hguard] at hr
    exact hostProcessQueues_faults h rfl hr

/-! ### Flushing -/

theorem mergeNeighbours_withQueues (s : Impl) (queues : List (Stream × EventQueue)) (b : BlockId) :
    (s.withQueues queues).mergeNeighbours b = (s.mergeNeighbours b).withQueues queues := by
  have hd (t : Impl) (b : BlockId) : (t.withQueues queues).deref b = t.deref b := rfl
  simp only [mergeNeighbours, hd, tryMergeLocked_withQueues]

/-- The queues do not matter to the retirement of an event. -/
theorem hostRetireEvent_withQueues (s : Impl) (queues : List (Stream × EventQueue))
    (poolSite traceSite : HostSite) (e : Event) (b : BlockId) (n : Nat) :
    (s.withQueues queues).hostRetireEvent poolSite traceSite e b n =
      ((s.hostRetireEvent poolSite traceSite e b n).1,
        (s.hostRetireEvent poolSite traceSite e b n).2.withQueues queues) := by
  let t := (({ s with eventPool := s.eventPool ++ [e] } : Impl).modify b
    (fun b ↦ { b with eventCount := b.eventCount - 1 })).log (.drained b)
  have hl : (s.withQueues queues).hostRetireEvent poolSite traceSite e b n =
      if (t.deref b).eventCount = 0 then
        (t.withQueues queues).hostFreeBlockLocked poolSite traceSite b n
      else (.ok ((), n), t.withQueues queues) := rfl
  have hs : s.hostRetireEvent poolSite traceSite e b n =
      if (t.deref b).eventCount = 0 then t.hostFreeBlockLocked poolSite traceSite b n
      else (.ok ((), n), t) := rfl
  rw [hl, hs]
  split
  · match n with
    | 0 => simp only [hostFreeBlockLocked, mergeNeighbours_withQueues]
    | 1 | n + 2 => simp only [hostFreeBlockLocked, freeBlockLocked_withQueues]
  · rfl

/-- The trace of a freed block comes last. -/
theorem hostRetireEvent_traced {poolSite traceSite : HostSite} {e : Event}
    (hne : poolSite ≠ traceSite)
    (hr : s.hostRetireEvent poolSite traceSite e b n = (.error (.host traceSite), r)) :
    r = s.retireEvent e b := by
  unfold hostRetireEvent at hr
  unfold retireEvent
  dsimp only at hr ⊢
  split at hr
  · next hz =>
    rw [if_pos hz]
    match n with
    | 0 =>
      cases hr
      exact absurd rfl hne
    | 1 =>
      cases hr
      rfl
    | n + 2 => cases hr
  · cases hr

/-- A failure that leaves the state settled, though not with its queues in order. -/
theorem Faults.of_settled (h : r.Settled) (hk : LiveStays s r) (hf : f.harmless = true)
    (hc : ∀ site, f = .host site → site.clean = false) : Faults .none s f r := by
  refine ⟨fun _ ↦ ⟨h, hk⟩, fun hx ↦ ?_, fun site hs hx ↦ ?_⟩
  · exact absurd (hx.symm.trans hf) Bool.false_ne_true
  · exact absurd ((hc site hs).symm.trans hx) Bool.false_ne_true

/-- The invariant is that of the state whose queue is cut down to the entries still to come. -/
theorem hostSynchronizeQueue_faults {after : List (Stream × EventQueue)} {q : EventQueue}
    (h : (s.withQueues ((stream, q) :: after)).WellFormed .none)
    (hsub : ∀ entry ∈ List.flatMap Prod.snd ((stream, q) :: after), entry ∈ s.queueEntries)
    (hr : hostSynchronizeQueue d q n s = (.error f, r)) : Faults .none s f r := by
  induction q generalizing n s with
  | nil => cases hr
  | cons entry q ih =>
    obtain ⟨e, b⟩ := entry
    have hsettled : s.Settled := ⟨_, h, hsub⟩
    have hentries : (s.withQueues ((stream, (e, b) :: q) :: after)).queueEntries.Perm
        ((e, b) :: flatMap Prod.snd ((stream, q) :: after)) := .refl _
    have hkeeps := freeClosed_liveStays.retireEvent h hentries
    obtain ⟨hnext, -, -, -, hseg, -⟩ := h.retireEvent hentries
    have hcomm : ((s.withQueues ((stream, (e, b) :: q) :: after)).withQueues
        ((stream, q) :: after)).retireEvent e b =
          (s.retireEvent e b).withQueues ((stream, q) :: after) :=
      retireEvent_withQueues s _ e b
    rw [hcomm] at hkeeps hnext hseg
    have hretired : LiveStays s (s.retireEvent e b) := ⟨hkeeps.table, hkeeps.bytes, hkeeps.live⟩
    have hsub' : ∀ entry ∈ flatMap Prod.snd ((stream, q) :: after),
        entry ∈ (s.retireEvent e b).queueEntries := by
      intro entry hm
      rw [queueEntries, retireEvent_cudaEvents]
      exact hsub entry (mem_cons_of_mem _ hm)
    unfold hostSynchronizeQueue at hr
    cases hsync : throwOnCudaError (d.synchronize e) "cudaEventSynchronize" with
    | error x =>
      rw [hsync] at hr
      cases hr
      exact .of_settled hsettled (.refl _) rfl fun _ hx ↦ by cases hx
    | ok u =>
      rw [hsync] at hr
      cases n with
      | zero =>
        cases hr
        refine .of_settled hsettled (.refl _) rfl (fun _ hx ↦ ?_)
        cases hx
        rfl
      | succ n =>
        dsimp only at hr
        have hagrees := hostRetireEvent_agrees .flushPool .flushFreedTrace s e b n
        have hqueues := hostRetireEvent_withQueues s ((stream, q) :: after) .flushPool
          .flushFreedTrace e b n
        rcases hret : s.hostRetireEvent .flushPool .flushFreedTrace e b n with ⟨g | ⟨u, n'⟩, t⟩
        · rw [hret] at hr hqueues
          cases hr
          rcases hostRetireEvent_fault h hentries hqueues with ⟨rfl, l, hl, hwf⟩ | ⟨rfl, -⟩
          · exact .of_lost (hwf.lost hl) rfl rfl
          · cases hostRetireEvent_traced (by decide) hret
            refine .of_settled ⟨_, hnext, hsub'⟩ hretired rfl (fun _ hx ↦ ?_)
            cases hx
            rfl
        · rw [hret] at hr
          cases hagrees.1 u n' t hret
          exact (ih hnext hsub' hr).after hretired (fun _ _ hx ↦ hseg ▸ hx)

theorem hostSynchronizeQueues_faults (h : s.WellFormed .none) (hq : s.cudaEvents = queues)
    (hr : hostSynchronizeQueues d queues n s = (.error f, r)) : Faults .none s f r := by
  induction queues generalizing n s with
  | nil => cases hr
  | cons queue queues ih =>
    obtain ⟨stream, q⟩ := queue
    have hself : s.withQueues ((stream, q) :: queues) = s := by
      rw [← hq]
      rfl
    have hsub : ∀ entry ∈ flatMap Prod.snd ((stream, q) :: queues), entry ∈ s.queueEntries := by
      intro entry hm
      rw [queueEntries, hq]
      exact hm
    unfold hostSynchronizeQueues at hr
    have hagrees := hostSynchronizeQueue_agrees (d := d) q n s
    rcases hd : hostSynchronizeQueue d q n s with ⟨g | ⟨u, n'⟩, t⟩
    · rw [hd] at hr
      cases hr
      exact hostSynchronizeQueue_faults (hself.symm ▸ h) hsub hd
    · rw [hd] at hr
      have hdone := hagrees.1 u n' t hd
      obtain ⟨hp, -⟩ := synchronizeQueue_progress (hself.symm ▸ h) hdone
      have hkeeps := freeClosed_liveStays.synchronizeQueue (d := d) (hself.symm ▸ h)
      rw [hdone] at hkeeps
      have hcut : LiveStays t (t.withQueues queues) := .of_heap rfl rfl rfl
      exact (ih hp.wellFormed rfl hr).after (hkeeps.trans hcut) hp.segments

theorem hostSynchronizeAndFreeEventsLocked_faults (h : s.WellFormed .none)
    (hr : s.hostSynchronizeAndFreeEventsLocked d n = (.error f, r)) : Faults .none s f r := by
  have hcounted : LiveStays s { s with stats := { s.stats with
      numSyncAllStreams := SizeT.add s.stats.numSyncAllStreams 1 } } := .of_heap rfl rfl rfl
  have hwf : ({ s with stats := { s.stats with
      numSyncAllStreams := SizeT.add s.stats.numSyncAllStreams 1 } } : Impl).WellFormed .none :=
    h.congr rfl
  unfold hostSynchronizeAndFreeEventsLocked at hr
  cases hguard : deviceGuard d.synchronizeGuard with
  | error e =>
    rw [hguard] at hr
    cases hr
    exact .of_wellFormed hwf hcounted rfl (fun _ _ hx ↦ hx)
  | ok u =>
    rw [hguard] at hr
    exact (hostSynchronizeQueues_faults hwf rfl hr).after hcounted (fun _ _ hx ↦ hx)

/-- The trace of a segment given back comes when its block has left the pool. -/
theorem hostReleaseBlock_lost (h : s.WellFormed .none) (hB : s.heap b = some B)
    (hm : b ∈ s.pools k) :
    (((s.subBytesCached (s.deref b).size).poolErase k b).unlistSegment b).Lost := by
  have hat := h.placed.at_block b
  obtain ⟨hk, hidle, -⟩ := (hat.pool hB k).mp hm
  refine ⟨b, B, hB, ?_⟩
  rintro (⟨p, hp⟩ | hpool | ⟨-, hpos⟩)
  · obtain ⟨hal, -⟩ := (hat.live hB p).mp hp
    rw [hidle.1] at hal
    cases hal
  · rw [hk] at hpool
    change b ∈ update s.pools k (OrderedSet.erase s.blockLt b (s.pools k)) k at hpool
    rw [update_self] at hpool
    exact ((h.mem_erase hm b).mp hpool).2 rfl
  · rw [hidle.2] at hpos
    exact absurd hpos (Int.lt_irrefl 0)

theorem hostReleasePool_faults {l : List BlockId} (h : s.WellFormed .none) (hnd : l.Nodup)
    (hl : ∀ b ∈ l, b ∈ s.pools k) (hr : hostReleasePool k l n s = (.error f, r)) :
    Faults .none s f r := by
  induction l generalizing n s with
  | nil => cases hr
  | cons b l ih =>
    obtain ⟨hbl, hnd'⟩ := nodup_cons.mp hnd
    have hm := hl b (by simp)
    obtain ⟨B, hB, -⟩ := h.pool_live hm
    unfold hostReleasePool at hr
    by_cases hs : (s.deref b).isSplit = true
    · rw [if_pos hs] at hr
      exact ih h hnd' (fun c hc ↦ hl c (by simp [hc])) hr
    · rw [if_neg hs] at hr
      cases n with
      | zero =>
        cases hr
        exact .of_lost (hostReleaseBlock_lost h hB hm) rfl rfl
      | succ n =>
        rw [deref_of hB] at hs
        have hsplit : B.isSplit = false := Bool.eq_false_iff.mpr hs
        obtain ⟨hreleases, -⟩ := releaseBlock_releases h hB hm hsplit
        have hkeeps := releaseClosed_liveStays.release s b B k h hB hm hsplit
        refine (ih hreleases.wellFormed hnd' (fun c hc ↦ ?_) hr).after hkeeps hreleases.segments
        have hcb : c ∉ [b] := fun hx ↦ hbl (mem_singleton.mp hx ▸ hc)
        rw [(hreleases.unaffected c hcb).pools]
        exact hl c (by simp [hc])

/-- A flush that gets through, or what is left of it. -/
theorem hostReleaseCachedBlocksLocked_faults (h : s.WellFormed .none)
    (hr : s.hostReleaseCachedBlocksLocked d n = (.error f, r)) : Faults .none s f r := by
  unfold hostReleaseCachedBlocksLocked at hr
  have hagrees := hostSynchronizeAndFreeEventsLocked_agrees (d := d) s n
  rcases hd : s.hostSynchronizeAndFreeEventsLocked d n with ⟨g | ⟨u, n'⟩, t⟩
  · rw [hd] at hr
    cases hr
    exact hostSynchronizeAndFreeEventsLocked_faults h hd
  · rw [hd] at hr
    have hdone := hagrees.1 u n' t hd
    obtain ⟨hp, -⟩ := synchronizeAndFreeEventsLocked_progress h hdone nofun
    have hkeeps := freeClosed_liveStays.synchronizeAndFreeEventsLocked (d := d) h
    rw [hdone] at hkeeps
    dsimp only at hr
    have hsmall := hostReleasePool_agrees .small (t.pools .small) n' t
    have hnd := hp.wellFormed.placed.pool_nodup
    rcases hd' : hostReleasePool .small (t.pools .small) n' t with ⟨g | ⟨u', n''⟩, t'⟩
    · rw [hd'] at hr
      cases hr
      exact (hostReleasePool_faults hp.wellFormed (hnd _) (fun _ hb ↦ hb) hd').after hkeeps
        hp.segments
    · rw [hd'] at hr
      cases hsmall.1 u' n'' t' hd'
      obtain ⟨hreleases, -⟩ := releasePoolBlocksLocked_releases hp.wellFormed .small
      have hreleased := releaseClosed_liveStays.foldl hp.wellFormed (hnd .small) (fun _ hb ↦ hb)
      have hlast := hostReleasePool_faults hreleases.wellFormed
        (hreleases.wellFormed.placed.pool_nodup _) (fun _ hb ↦ hb) hr
      exact (hlast.after hreleased hreleases.segments).after hkeeps hp.segments

/-! ### Handing out -/

/-- Trimming does not touch the live allocations, wherever it ends. -/
theorem hostTrimCacheLocked_table (s : Impl) (n : Nat) :
    (s.hostTrimCacheLocked n).2.allocatedBlocks = s.allocatedBlocks := by
  have hloop (m n : Nat) (s : Impl) :
      (hostTrimLoop m n s).2.allocatedBlocks = s.allocatedBlocks := by
    induction m generalizing n s with
    | zero => rfl
    | succ m ih =>
      unfold hostTrimLoop
      split
      · split
        · rfl
        · cases n with
          | zero => rfl
          | succ n => exact ih n _
      · rfl
  unfold hostTrimCacheLocked
  split
  · rfl
  · exact hloop ..

theorem Faults.of_broken {site : HostSite} (h : Broken mapped s r) (hs : site.harmless = false)
    (hc : site.clean = false) : Faults mapped s (.host site) r := by
  refine ⟨fun hx ↦ ?_, fun _ ↦ h, fun site' hs' hx ↦ ?_⟩
  · exact absurd (hs.symm.trans hx) Bool.false_ne_true
  · cases hs'
    exact absurd (hc.symm.trans hx) Bool.false_ne_true

theorem publishBlock_table {c : BlockId} {C : CacheBlock} (hC : s.heap c = some C)
    (hnew : C.ptr ∉ s.allocatedBlocks) (size : Nat) :
    (s.publishBlock c size).allocatedBlocks ≠ s.allocatedBlocks := by
  have hd : (s.modify c (fun b ↦ { b with allocated := true, requestedSize := size })).deref c =
      { C with allocated := true, requestedSize := size } := by
    simp [deref, modify, hC]
  have htable : (s.publishBlock c size).allocatedBlocks = s.allocatedBlocks.insert C.ptr c := by
    change (if ((s.modify c _).deref c).ptr ∈ s.allocatedBlocks then s.allocatedBlocks else
      s.allocatedBlocks.insert ((s.modify c _).deref c).ptr c) = _
    rw [hd]
    exact if_neg hnew
  rw [htable]
  intro heq
  have hmem : C.ptr ∈ s.allocatedBlocks.insert C.ptr c := (AList.mem_insert _).mpr (.inl rfl)
  rw [heq] at hmem
  exact hnew hmem

/-- The address of a block that is not live is no key of the table. -/
theorem WellFormed.ptr_not_live (h : s.WellFormed (.taken b)) (hb : s.heap b = some B) :
    B.ptr ∉ s.allocatedBlocks := by
  intro hm
  obtain ⟨c, hc⟩ := Option.isSome_iff_exists.mp (AList.lookup_isSome.mpr hm)
  obtain ⟨C, hC, hal, hptr⟩ := ((h.placed.at_block c).allocated_iff B.ptr).mp hc
  cases h.ptr_inj hC hb hptr
  rw [hb] at hC
  cases hC
  have hidle := h.idle rfl hb
  rw [hidle.1] at hal
  cases hal

/-- A block that is in no container stays so while its fields are set. -/
theorem lost_of_absent {X : CacheBlock} (hX : r.heap b = some X)
    (htable : ∀ p, r.allocatedBlocks.lookup p ≠ some b) (hpool : ∀ k, b ∉ r.pools k)
    (hcount : X.eventCount = 0) : r.Lost := by
  refine ⟨b, X, hX, ?_⟩
  rintro (⟨p, hp⟩ | hm | ⟨-, hpos⟩)
  · exact htable p hp
  · exact hpool _ hm
  · rw [hcount] at hpos
    exact absurd hpos (Int.lt_irrefl 0)

/-- The block in hand is in no container. -/
theorem WellFormed.taken_absent (h : s.WellFormed (.taken b)) :
    (∀ p, s.allocatedBlocks.lookup p ≠ some b) ∧ ∀ k, b ∉ s.pools k := by
  obtain ⟨B, hB, hidle⟩ := (h.placed.at_block b).limbo_idle rfl
  constructor
  · intro p hp
    obtain ⟨X, hX, hal, -⟩ := ((h.placed.at_block b).allocated_iff p).mp hp
    rw [hB] at hX
    cases hX
    rw [hidle.1] at hal
    cases hal
  · intro k hm
    obtain ⟨X, -, -, -, hfree⟩ := ((h.placed.at_block b).pool_iff k).mp hm
    exact hfree rfl

/-- What is split off is in no container until it is published. -/
theorem WellFormed.splitBlock_absent (h : s.WellFormed (.taken b)) (hb : s.heap b = some B)
    {rounded : Nat} (hle : rounded ≤ B.size) :
    (s.splitBlock b rounded).heap s.nextBlock = some (front B b rounded) ∧
      (∀ p, (s.splitBlock b rounded).allocatedBlocks.lookup p ≠ some s.nextBlock) ∧
      ∀ k, s.nextBlock ∉ (s.splitBlock b rounded).pools k := by
  have hnone := h.nextBlock_none
  rw [h.splitBlock_cut hb hle]
  refine ⟨by simp [cut, splitHeap], fun p hp ↦ ?_, fun k hm ↦ ?_⟩
  · obtain ⟨X, hX, -⟩ := ((h.placed.at_block s.nextBlock).allocated_iff p).mp hp
    rw [hnone] at hX
    cases hX
  · have hold (j : PoolKind) (hj : s.nextBlock ∈ s.pools j) : False := by
      obtain ⟨X, hX, -⟩ := h.pool_live hj
      rw [hnone] at hX
      cases hX
    change s.nextBlock ∈ update s.pools B.pool _ k at hm
    rw [update_apply] at hm
    split at hm
    · rcases OrderedSet.mem_of_mem_insert hm with hnew | hm
      · rw [hnew, hb] at hnone
        cases hnone
      · exact hold _ hm
    · exact hold _ hm

/-- Until its remainder is back in the pool a split moves no block between containers. -/
theorem splitOff_containers (s : Impl) (b : BlockId) (rounded : Nat) :
    (s.splitOff b rounded).allocatedBlocks = s.allocatedBlocks ∧
      (s.splitOff b rounded).pools = s.pools := by
  simp only [splitOff, modify?_eq]
  exact ⟨rfl, rfl⟩

theorem splitOff_heap (hb : s.heap b = some B) (hne : b ≠ s.nextBlock) (rounded : Nat) :
    ∃ X, (s.splitOff b rounded).heap b = some X ∧ X.eventCount = B.eventCount := by
  simp only [splitOff, modify?_eq, modify, newBlock, update_self]
  rw [update_of_ne hne, hb]
  split
  · exact ⟨_, rfl, rfl⟩
  · exact ⟨_, rfl, rfl⟩

/-- From where the block is attached to the table: nobody holds it, or the call has handed it out
before it throws. -/
theorem hostPublishBlock_faults {c : BlockId} {C : CacheBlock} {size n : Nat}
    (ht : t.allocatedBlocks = s.allocatedBlocks) (hC : t.heap c = some C)
    (htable : ∀ p, t.allocatedBlocks.lookup p ≠ some c) (hpool : ∀ k, c ∉ t.pools k)
    (hcount : C.eventCount = 0) (hnew : C.ptr ∉ s.allocatedBlocks)
    (hr : t.hostPublishBlock c size n = (.error f, r)) : Faults mapped s f r := by
  match n with
  | 0 =>
    cases hr
    apply Faults.of_broken (.inl _) rfl rfl
    apply lost_of_absent
      (r := t.modify c (fun b ↦ { b with allocated := true, requestedSize := size }))
      (X := { C with allocated := true, requestedSize := size }) _ htable hpool hcount
    simp [modify, hC]
  | 1 =>
    cases hr
    apply Faults.of_broken (.inr (.inl _)) rfl rfl
    rw [← ht] at hnew ⊢
    exact publishBlock_table hC hnew size
  | n + 2 => cases hr

theorem hostAllocFoundBlockLocked_faults (h : s.WellFormed (.taken b)) (hb : s.heap b = some B)
    (hle : rounded ≤ B.size) (hr : s.hostAllocFoundBlockLocked b rounded size n = (.error f, r)) :
    Faults mapped s f r := by
  have hidle : B.Idle := h.idle rfl hb
  have hnew := h.ptr_not_live hb
  obtain ⟨htable, hpool⟩ := h.taken_absent
  unfold hostAllocFoundBlockLocked at hr
  by_cases hs : s.shouldSplit b rounded = true
  · rw [if_pos hs] at hr
    match n with
    | 0 =>
      cases hr
      exact .of_broken (.inl (lost_of_absent hb htable hpool hidle.2)) rfl rfl
    | 1 =>
      cases hr
      obtain ⟨X, hX, hcount⟩ := splitOff_heap hb (Nat.ne_of_lt (h.lt hb)) rounded
      obtain ⟨hsame, hpools⟩ := splitOff_containers s b rounded
      refine .of_broken (.inl (lost_of_absent hX (fun p ↦ ?_) (fun k ↦ ?_) ?_)) rfl rfl
      · rw [hsame]
        exact htable p
      · rw [hpools]
        exact hpool k
      · exact hcount.trans hidle.2
    | n + 2 =>
      obtain ⟨hfront, htable', hpool'⟩ := h.splitBlock_absent hb hle
      exact hostPublishBlock_faults (splitBlock_sameEvents s b rounded).1.allocations hfront
        htable' hpool' rfl hnew hr
  · rw [if_neg hs] at hr
    exact hostPublishBlock_faults rfl hb htable hpool hidle.2 hnew hr

/-- Once carved, the block is in the table. -/
theorem allocFoundBlockLocked_table (h : s.WellFormed (.taken b)) (hb : s.heap b = some B)
    {rounded : Nat} (size : Nat) (hle : rounded ≤ B.size) :
    (s.allocFoundBlockLocked b rounded size).2.allocatedBlocks ≠ s.allocatedBlocks := by
  have hnew := h.ptr_not_live hb
  unfold allocFoundBlockLocked
  by_cases hs : s.shouldSplit b rounded = true
  · rw [if_pos hs]
    obtain ⟨hfront, -⟩ := h.splitBlock_absent hb hle
    have hsame := (splitBlock_sameEvents s b rounded).1.allocations
    rw [← hsame] at hnew ⊢
    exact publishBlock_table hfront hnew size
  · rw [if_neg hs]
    exact publishBlock_table hb hnew size

theorem hostTrimCacheLocked_fault (hr : s.hostTrimCacheLocked n = (.error f, r)) :
    f = .host .releaseTrace := by
  have hloop (m n : Nat) (s : Impl) (hr : hostTrimLoop m n s = (.error f, r)) :
      f = .host .releaseTrace := by
    induction m generalizing n s with
    | zero => cases hr
    | succ m ih =>
      unfold hostTrimLoop at hr
      split at hr
      · split at hr
        · cases hr
        · cases n with
          | zero =>
            cases hr
            rfl
          | succ n => exact ih n _ hr
      · cases hr
  unfold hostTrimCacheLocked at hr
  split at hr
  · cases hr
  · exact hloop _ _ _ hr

theorem hostFinishAllocate_faults (h : s.WellFormed (.taken b)) (hb : s.heap b = some B)
    (hle : rounded ≤ B.size) (hr : s.hostFinishAllocate b rounded size n = (.error f, r)) :
    Faults mapped s f r := by
  unfold hostFinishAllocate at hr
  have hagrees := hostAllocFoundBlockLocked_agrees s b rounded size n
  rcases hd : s.hostAllocFoundBlockLocked b rounded size n with ⟨g | ⟨p, n'⟩, t⟩
  · rw [hd] at hr
    cases hr
    exact hostAllocFoundBlockLocked_faults h hb hle hd
  · rw [hd] at hr
    have hdone := congrArg Prod.snd (hagrees.1 p n' t hd)
    dsimp only at hr hdone
    have htable := hostTrimCacheLocked_table t n'
    rcases ht : t.hostTrimCacheLocked n' with ⟨g | ⟨u, n''⟩, t'⟩
    · rw [ht] at hr htable
      cases hr
      cases hostTrimCacheLocked_fault ht
      apply Faults.of_broken (.inr (.inl _)) rfl rfl
      rw [htable, ← hdone]
      exact allocFoundBlockLocked_table h hb size hle
    · rw [ht] at hr
      cases hr

/-! ### The call -/

theorem hostFailOomLocked_faults (h : s.WellFormed .none)
    (hr : s.hostFailOomLocked n = (.error f, r)) : Faults .none s f r := by
  have hoom : s.failOomLocked.2.WellFormed .none := h.congr rfl
  have hkeeps : LiveStays s s.failOomLocked.2 := .of_heap rfl rfl rfl
  cases n with
  | zero | succ n =>
    cases hr
    exact .of_wellFormed hoom hkeeps rfl (fun _ _ hx ↦ hx)

theorem dropLock_frame (s : Impl) (request : SegmentRequest) :
    (s.dropLock request).2.heap = s.heap ∧
      (s.dropLock request).2.allocatedBlocks = s.allocatedBlocks ∧
      (s.dropLock request).2.stats.bytesAllocated = s.stats.bytesAllocated ∧
      (s.dropLock request).2.driverSegments = s.driverSegments := by
  unfold dropLock
  split
  · exact ⟨rfl, rfl, rfl, rfl⟩
  · exact ⟨rfl, rfl, rfl, rfl⟩

theorem hostDropLock_faults (h : s.WellFormed .none) (hr : s.hostDropLock request n = (.error f, r))
    : Faults .none s f r := by
  have hprogress : Progress (fun _ ↦ False) s (s.dropLock request).2 := dropLock_progress h request
  obtain ⟨hheap, htable, hbytes, -⟩ := dropLock_frame s request
  cases n with
  | zero =>
    cases hr
    exact .of_wellFormed hprogress.wellFormed (.of_heap hheap htable hbytes) rfl hprogress.segments
  | succ n => cases hr

/-- A flush that gets through. -/
theorem hostReleaseCachedBlocksLocked_ok {n n' : Nat} (h : s.WellFormed .none)
    (hr : s.hostReleaseCachedBlocksLocked d n = (.ok ((), n'), t)) :
    Progress (Completes d) s t ∧ LiveStays s t := by
  have hdone := (hostReleaseCachedBlocksLocked_agrees s n).1 () n' t hr
  obtain ⟨hp, -⟩ := releaseCachedBlocksLocked_progress h hdone nofun
  obtain ⟨u, -, hfrees, hreleases⟩ :=
    releaseCachedBlocksLocked_closed freeClosed_liveStays releaseClosed_liveStays h hdone
  rcases hreleases with rfl | ⟨-, hreleases⟩
  · exact ⟨hp, hfrees⟩
  · exact ⟨hp, hfrees.trans hreleases⟩

theorem hostMissCache_faults (h : s.WellFormed .none)
    (hr : s.hostMissCache d request n = (.error f, r)) : Faults .none s f r := by
  have hmiss : LiveStays s { s with stats := { s.stats with
      cacheMisses := SizeT.add s.stats.cacheMisses 1 } } := .of_heap rfl rfl rfl
  unfold hostMissCache at hr
  generalize hu : ({ s with stats := { s.stats with
    cacheMisses := SizeT.add s.stats.cacheMisses 1 } } : Impl) = u at hr hmiss
  have hwf : u.WellFormed .none := hu ▸ h.congr rfl
  have hseg : u.driverSegments = s.driverSegments := by rw [← hu]
  refine Faults.after hmiss (fun _ _ hx ↦ hseg ▸ hx) ?_
  by_cases hexceeds : u.reservedWouldExceedLocked request.allocSize = true
  · rw [if_pos hexceeds] at hr
    rcases hd : u.hostReleaseCachedBlocksLocked d n with ⟨g | ⟨u', n'⟩, t⟩
    · rw [hd] at hr
      cases hr
      exact hostReleaseCachedBlocksLocked_faults hwf hd
    · rw [hd] at hr
      obtain ⟨hp, hkeeps⟩ := hostReleaseCachedBlocksLocked_ok hwf hd
      dsimp only at hr
      split at hr
      · exact (hostFailOomLocked_faults hp.wellFormed hr).after hkeeps hp.segments
      · exact (hostDropLock_faults hp.wellFormed hr).after hkeeps hp.segments
  · rw [if_neg hexceeds] at hr
    exact hostDropLock_faults hwf hr

theorem take_liveStays (s : Impl) (k : PoolKind) (b : BlockId) :
    LiveStays s (s.take k b).countHit := .of_heap rfl rfl rfl

theorem hostRetryCache_faults {search : Bool} {size n : Nat} (h : s.WellFormed .none)
    (hr : s.hostRetryCache d search size stream n = (.error f, r)) : Faults .none s f r := by
  unfold hostRetryCache at hr
  dsimp only at hr
  cases search with
  | false => exact hostMissCache_faults h hr
  | true =>
    rcases getFreeBlockLocked_cases s (segmentRequest size stream).pool stream
      (segmentRequest size stream).rounded with hg | ⟨b, hg, hm, -, hle⟩
    · rw [hg] at hr
      exact hostMissCache_faults h hr
    · rw [hg] at hr
      obtain ⟨B, hB, -⟩ := h.pool_live hm
      rw [deref_of hB] at hle
      have htaken : (s.take (segmentRequest size stream).pool b).countHit.WellFormed (.taken b) :=
        (h.take hm).1.congr rfl
      have hfinish : Faults .none _ f r := hostFinishAllocate_faults htaken hB hle hr
      exact hfinish.after (take_liveStays s _ b) (fun _ _ hx ↦ hx)

/-- What is left when `allocate` throws. -/
theorem hostAllocate_faults {size n : Nat} (h : s.WellFormed .none)
    (hr : s.hostAllocate d size stream n = (.error f, r)) : Faults .none s f r := by
  unfold hostAllocate at hr
  by_cases hsize : size = 0
  · rw [if_pos hsize] at hr
    cases hr
    exact .of_wellFormed h (.refl _) rfl (fun _ _ hx ↦ hx)
  · rw [if_neg hsize] at hr
    rcases hd : s.hostProcessEventsLocked d n with ⟨g | ⟨u, n'⟩, t⟩
    · rw [hd] at hr
      cases hr
      exact hostProcessEventsLocked_faults h hd
    · rw [hd] at hr
      have hdone := (hostProcessEventsLocked_agrees s n).1 u n' t hd
      obtain ⟨hp, -⟩ := processEventsLocked_progress h hdone
      have hkeeps := freeClosed_liveStays.processEventsLocked (d := d) h
      rw [hdone] at hkeeps
      exact (hostRetryCache_faults hp.wellFormed hr).after hkeeps hp.segments

/-- Once a block is in hand no host allocation may fail. -/
theorem hostFinishAllocate_harmful (hr : s.hostFinishAllocate b rounded size n = (.error f, r)) :
    ∃ site, f = .host site ∧ site.harmless = false ∧ site.clean = false := by
  have hpublish (t : Impl) (c : BlockId) (n : Nat) {r : Impl}
      (hr : t.hostPublishBlock c size n = (.error f, r)) :
      ∃ site, f = .host site ∧ site.harmless = false ∧ site.clean = false := by
    match n with
    | 0 | 1 =>
      cases hr
      exact ⟨_, rfl, rfl, rfl⟩
    | n + 2 => cases hr
  unfold hostFinishAllocate at hr
  rcases hd : s.hostAllocFoundBlockLocked b rounded size n with ⟨g | ⟨p, n'⟩, t⟩
  · rw [hd] at hr
    cases hr
    unfold hostAllocFoundBlockLocked at hd
    split at hd
    · match n with
      | 0 | 1 =>
        cases hd
        exact ⟨_, rfl, rfl, rfl⟩
      | n + 2 => exact hpublish _ _ _ hd
    · exact hpublish _ _ _ hd
  · rw [hd] at hr
    dsimp only at hr
    rcases ht : t.hostTrimCacheLocked n' with ⟨g | ⟨u, n''⟩, t'⟩
    · rw [ht] at hr
      cases hr
      exact ⟨_, hostTrimCacheLocked_fault ht, rfl, rfl⟩
    · rw [ht] at hr
      cases hr

/-- The segment that comes with the driver's answer. -/
def mappedBy : MallocAnswer → Option RawSegment
  | .segment raw => some raw
  | _ => none

/-- The driver has mapped a segment: whatever host allocation fails now loses it or its block. -/
theorem hostResumeAllocate_segment_faults {raw : RawSegment} (h : s.WellFormed .none)
    (hv : request.Valid) (hptr : 0 < raw.ptr) (hsize : request.allocSize ≤ raw.size)
    (hbound : raw.ptr + raw.size ≤ SizeT.modulus)
    (hfree : ∀ base x, s.driverSegments.lookup base = some x → raw.ptr + raw.size ≤ base ∨ base + x.size ≤ raw.ptr)
    (hr : s.hostResumeAllocate d request (.segment raw) n = (.error f, r)) :
    Faults (some raw) s f r ∧ f.harmless = false := by
  have hle : request.rounded ≤ raw.size := Nat.le_trans hv.rounded_le hsize
  have hpos : 0 < raw.size := Nat.lt_of_lt_of_le hv.rounded_pos hle
  match n with
  | 0 =>
    cases hr
    refine ⟨.of_broken (.inr (.inr ⟨raw, rfl, .inl fun hx ↦ ?_⟩)) rfl rfl, rfl⟩
    have := hfree raw.ptr raw hx
    omega
  | 1 =>
    cases hr
    refine ⟨.of_broken (.inr (.inr ⟨raw, rfl, .inr fun c C hC hbase ↦ ?_⟩)) rfl rfl, rfl⟩
    obtain ⟨x, hx, hlo, hhi⟩ := h.layout.inside c C.extent (extents_of hC)
    obtain ⟨y, hy, rfl⟩ := Option.map_eq_some_iff.mp hx
    have hsize := h.layout.pos c _ (extents_of hC)
    have hapart := hfree _ y hy
    simp only [extent] at hlo hhi hsize hapart
    omega
  | n + 2 =>
    obtain ⟨hwf, hheap, -⟩ := h.registerSegment request hptr hpos hbound hfree
    have hfaults : Faults (some raw) (s.registerSegment request raw) f r :=
      hostFinishAllocate_faults hwf hheap hle hr
    obtain ⟨site, rfl, hharm, hclean⟩ := hostFinishAllocate_harmful hr
    exact ⟨.of_broken (hfaults.harmful hharm) hharm hclean, hharm⟩

theorem hostResumeAllocate_failed_faults {answer : MallocAnswer} (h : s.WellFormed .none)
    (hanswer : ∀ raw, answer ≠ .segment raw)
    (hr : s.hostResumeAllocate d request answer n = (.error f, r)) : Faults .none s f r := by
  cases answer with
  | segment raw => exact absurd rfl (hanswer raw)
  | failed err =>
    unfold hostResumeAllocate at hr
    dsimp only at hr
    by_cases herr : err ≠ .success ∧ err ≠ .memoryAllocation
    · rw [if_pos herr] at hr
      cases hr
      exact .of_wellFormed h (.refl _) rfl (fun _ _ hx ↦ hx)
    · rw [if_neg herr] at hr
      split at hr
      · exact hostFailOomLocked_faults h hr
      · rcases hd : s.hostReleaseCachedBlocksLocked d n with ⟨g | ⟨u, n'⟩, t⟩
        · rw [hd] at hr
          cases hr
          exact hostReleaseCachedBlocksLocked_faults h hd
        · rw [hd] at hr
          obtain ⟨hp, hkeeps⟩ := hostReleaseCachedBlocksLocked_ok h hd
          exact (hostDropLock_faults hp.wellFormed hr).after hkeeps hp.segments
  | guard answer =>
    unfold hostResumeAllocate at hr
    dsimp only at hr
    cases hguard : deviceGuard answer with
    | error e =>
      rw [hguard] at hr
      cases hr
      exact .of_wellFormed h (.refl _) rfl (fun _ _ hx ↦ hx)
    | ok u =>
      rw [hguard] at hr
      cases hr

end Impl
/-! ### Runs -/

/-- A step of a benign run with callbacks, or an `allocate` that ends because a host allocation
fails with the event queues in order. -/
inductive HostStep : Machine → Machine → Prop
  | call {m m' : Machine} {l : Operation × Reply} :
      callbackCudaAllocator.step (m, ()) l (m', ()) → HostStep m m'
  | allocate {m : Machine} {t : ThreadId} {size n : Nat} {stream : Stream} {d : DriverAnswers}
      {site : HostSite} {r : Impl} : m.threads t = .idle →
      m.impl.hostAllocate d size stream n = (.error (.host site), r) → site.clean = true →
      HostStep m { m with impl := r }
  | resume {m : Machine} {t : ThreadId} {request : SegmentRequest} {answer : MallocAnswer} {n : Nat}
      {d : DriverAnswers} {site : HostSite} {r : Impl} : m.threads t = .fromDriver request answer →
      m.impl.hostResumeAllocate d request answer n = (.error (.host site), r) →
      site.clean = true →
      HostStep m { impl := r, threads := update m.threads t .idle }

/-- The allocator in such runs. -/
def hostCudaAllocator : TransitionSystem Machine Unit where
  init := benignCudaAllocator.init
  step m _ m' := HostStep m m'

namespace Machine

variable {m m' : Machine}

/-- A thread that fails is back from `allocate`. -/
theorem Consistent.drop (h : m.Consistent) (t : ThreadId) :
    Consistent { m with threads := update m.threads t .idle } := by
  have hserves : Impl.Serves (fun _ ↦ True) .none m.impl 0 0 (.threw .badAlloc) m.impl :=
    .of_progress (.refl h.impl) nofun nofun
  exact h.settle hserves nofun

/-- What is left when the rest of an `allocate` throws. -/
theorem Consistent.resume_faults (h : m.Consistent) {t : ThreadId} {request : SegmentRequest}
    {answer : MallocAnswer} {d : DriverAnswers} {n : Nat} {f : Fault} {r : Impl}
    (ht : m.threads t = .fromDriver request answer)
    (hr : m.impl.hostResumeAllocate d request answer n = (.error f, r)) :
    Impl.Faults (Impl.mappedBy answer) m.impl f r ∧
      (f.harmless = true → Impl.mappedBy answer = .none) := by
  have hv := h.requests t request (by rw [ht]; rfl)
  cases answer with
  | segment raw =>
    have hp : (m.threads t).pending = some (request.allocSize, raw) := by rw [ht]; rfl
    obtain ⟨hptr, hsize, hbound, hfree⟩ := h.pending t _ raw hp
    obtain ⟨hfaults, hharm⟩ :=
      hostResumeAllocate_segment_faults h.impl hv hptr hsize hbound hfree hr
    exact ⟨hfaults, fun hx ↦ absurd (hharm.symm.trans hx) Bool.false_ne_true⟩
  | failed err | guard answer =>
    exact ⟨hostResumeAllocate_failed_faults h.impl (fun _ hx ↦ by cases hx) hr, fun _ ↦ rfl⟩

theorem Consistent.hostStep (h : m.Consistent) (hs : HostStep m m') : m'.Consistent := by
  cases hs with
  | call hs => exact CallbackStep.invariant (callbackInvariant_consistent _) h hs
  | allocate ht hr hc =>
    obtain ⟨hwf, hseg⟩ := (hostAllocate_faults h.impl hr).clean _ rfl hc
    exact h.of_impl hwf hseg
  | resume ht hr hc =>
    obtain ⟨hwf, hseg⟩ := (h.resume_faults ht hr).1.clean _ rfl hc
    exact (h.of_impl hwf hseg).drop _

end Machine

theorem consistent_of_host {m : Machine} (h : hostCudaAllocator.Reachable m) : m.Consistent := by
  apply TransitionSystem.Reachable.invariant _ _ h
  · rintro _ ⟨maxCachedBytes, rfl⟩
    exact Machine.initial_consistent maxCachedBytes
  · intro m _ m' hm hs
    exact hm.hostStep hs

/-- Whatever leaves `allocate`, before the driver call or after it, in the search or after the
callbacks: nothing is lost if and only if it is no exception from a host allocation, or from a
harmless one. -/
theorem failed_allocate_loses_nothing_iff {m : Machine} (h : hostCudaAllocator.Reachable m) :
    (∀ size stream d n f r, m.impl.hostAllocate d size stream n = (.error f, r) →
      (m.impl.LosesNothing .none r ↔ f.harmless = true)) ∧
    (∀ t size stream d s m' freed n f r, m.Misses t size stream d s →
      CallbackRun (fun _ _ u ↦ u) t ({ m with impl := s }, ()) (m', ()) →
      m'.impl.hostRetryCache d freed size stream n = (.error f, r) →
      (m'.impl.LosesNothing .none r ↔ f.harmless = true)) ∧
    (∀ t request answer d n f r, m.threads t = .fromDriver request answer →
      m.impl.hostResumeAllocate d request answer n = (.error f, r) →
      (m.impl.LosesNothing (Impl.mappedBy answer) r ↔ f.harmless = true)) := by
  have hm := consistent_of_host h
  refine ⟨?_, ?_, ?_⟩
  · intro size stream d n f r hr
    exact (hostAllocate_faults hm.impl hr).losesNothing_iff (fun _ ↦ rfl)
  · intro t size stream d s m' freed n f r hmiss hrun hr
    have hinvariant := callbackInvariant_consistent (fun _ _ (u : Unit) ↦ u)
    have hm' := CallbackRun.invariant hinvariant (hinvariant.drained _ _ _ _ hm hmiss.drained) hrun
    exact (hostRetryCache_faults hm'.impl hr).losesNothing_iff (fun _ ↦ rfl)
  · intro t request answer d n f r ht hr
    obtain ⟨hfaults, hmapped⟩ := hm.resume_faults ht hr
    exact hfaults.losesNothing_iff hmapped

theorem host_of_benign {m : Machine} (h : benignCudaAllocator.Reachable m) :
    hostCudaAllocator.Reachable m := by
  apply TransitionSystem.Reachable.invariant _ _ h
  · exact fun m hm ↦ .of_init hm
  · exact fun m l m' hm hs ↦ hm.step (l := ()) (HostStep.call (CallbackStep.plain hs))

theorem oneBlock_host_reachable : hostCudaAllocator.Reachable oneBlock :=
  host_of_benign (oneBlock_reachable.restrict_mono (fun m _ ho ↦ ho.benign m))

/-- No metadata for a new segment: nothing is lost. -/
theorem oneBlock_metadata_harmless :
    oneBlock.impl.LosesNothing .none (oneBlock.impl.hostAllocate {} 1000 3 0).2 :=
  ((failed_allocate_loses_nothing_iff oneBlock_host_reachable).1 1000 3 {} 0 (.host .metadata)
    (oneBlock.impl.hostAllocate {} 1000 3 0).2 rfl).mpr rfl

/-- No memory for the block to be split off: the cached block is in no container. -/
theorem failed_split_loses_block : ¬ ∀ m size stream d n f r, hostCudaAllocator.Reachable m →
    m.impl.hostAllocate d size stream n = (.error f, r) → m.impl.LosesNothing .none r := by
  intro hall
  have h := hall oneBlock 1000 1 {} 0 (.host .front)
    (oneBlock.impl.hostAllocate {} 1000 1 0).2 oneBlock_host_reachable rfl
  have htable : (oneBlock.impl.hostAllocate {} 1000 1 0).2.allocatedBlocks.entries =
      [⟨4096, 1⟩] := rfl
  rcases h.blocks 0 _ rfl with ⟨p, hp⟩ | hm | ⟨hm, -⟩
  · have hentry := AList.mem_lookup_iff.mp hp
    rw [htable] at hentry
    simp at hentry
  · cases hm
  · cases hm

end Hisab.Memory
