import Hisab.Memory.ReleaseSteps

/-!
# The operations keep the invariant

Each public operation of the allocator, from the invariant to the invariant, with what it
does to live blocks, to waiting blocks and to the segments. A driver call may fail
anywhere except where the state left behind is beyond repair: recording an event that has
been acquired, entering the device before the events of a block are inserted, and
synchronizing an event that is not the first of its queue.
-/

namespace Hisab.Memory
open Hisab.Base ExtentMap CachingConfig Function

namespace Impl

variable {s t r : Impl} {b : BlockId} {B : CacheBlock} {k : PoolKind} {done : Event → Prop}
  {d : DriverAnswers} {rounded : Nat}

/-! ### Handing a block out -/

theorem splitBlock_sameEvents (s : Impl) (b : BlockId) (n : Nat) :
    SameEvents s (s.splitBlock b n) ∧ (s.splitBlock b n).driverSegments = s.driverSegments := by
  simp only [splitBlock, modify?_eq]
  exact ⟨⟨rfl, rfl, rfl, rfl⟩, rfl⟩

/-- The memory at `p` is a live block of at least `size` bytes on `stream`. -/
def LiveAt (s : Impl) (p size : Nat) (stream : Stream) : Prop :=
  ∃ c C, s.heap c = some C ∧ C.allocated = true ∧ C.ptr = p ∧ size ≤ C.size ∧ C.stream = stream

/-- From the invariant with a block in hand to the invariant, without a new segment. -/
structure Publishes (s r : Impl) (p size : Nat) (stream : Stream) : Prop where
  wellFormed : r.WellFormed .none
  evolves : Evolves (fun _ ↦ False) s r
  segments : ∀ base raw, r.driverSegments.lookup base = some raw →
    s.driverSegments.lookup base = some raw
  live : r.LiveAt p size stream

private theorem publishBlock_publishes (h : s.WellFormed (.carved b)) (hb : s.heap b = some B)
    (size : Nat) (hle : rounded ≤ B.size) :
    Publishes s (s.publishBlock b size) B.ptr rounded B.stream := by
  obtain ⟨hwf, hheap, _, hu⟩ := h.publishBlock hb size
  refine ⟨hwf, .of_keepsBusy h (.of_unaffected (.carved b) .none
    (fun c C hC hi ↦ hu c ?_)) rfl rfl rfl, fun _ _ hr ↦ hr, b,
    { B with allocated := true, requestedSize := size }, ?_, rfl, rfl, hle, rfl⟩
  · rintro rfl
    rw [hb] at hC
    cases hC
    exact hi (h.idle rfl hb)
  · rw [hheap, update_self]

/-- A block is split only where something is left. -/
theorem WellFormed.lt_of_shouldSplit {l : Limbo} (h : s.WellFormed l) (hb : s.heap b = some B)
    (hle : rounded ≤ B.size) (hs : s.shouldSplit b rounded = true) : rounded < B.size := by
  have := h.bounds hb
  unfold shouldSplit at hs
  rw [deref_of hb, SizeT.sub_eq hle (by omega)] at hs
  cases hk : B.pool <;> simp only [hk, decide_eq_true_eq] at hs
  · have : 0 < kMinBlockSize := by decide
    omega
  · omega

/-- `alloc_found_block_locked` hands out the low part of the block, split if that pays. -/
theorem allocFoundBlockLocked_publishes (h : s.WellFormed (.taken b)) (hb : s.heap b = some B)
    (size : Nat) (hpos : 0 < rounded) (hle : rounded ≤ B.size) :
    (s.allocFoundBlockLocked b rounded size).1 = B.ptr ∧
      Publishes s (s.allocFoundBlockLocked b rounded size).2 B.ptr rounded B.stream := by
  have hidle := h.idle rfl hb
  unfold allocFoundBlockLocked
  split
  · next hs =>
    have hlt := h.lt_of_shouldSplit hb hle hs
    obtain ⟨hwf, hheap, hu⟩ := h.splitBlock hb hpos hlt
    obtain ⟨hsame, hseg⟩ := splitBlock_sameEvents s b rounded
    have hfront : (s.splitBlock b rounded).heap s.nextBlock = some (front B b rounded) := by
      rw [hheap]
      simp [splitHeap]
    have hp := publishBlock_publishes hwf hfront size (Nat.le_refl rounded)
    have hsplit : Evolves (fun _ ↦ False) s (s.splitBlock b rounded) := by
      refine .of_keepsBusy h (.of_unaffected (.taken b) (.carved s.nextBlock)
        (fun c C hC hi ↦ hu c ?_ ?_)) hsame.queues hsame.recorded hsame.submitted
      · rintro rfl
        rw [h.nextBlock_none] at hC
        cases hC
      · rintro rfl
        rw [hb] at hC
        cases hC
        exact hi hidle
    refine ⟨?_, hp.wellFormed, hsplit.trans hp.evolves, fun base raw hr ↦ hseg ▸ hp.segments _ _ hr,
      hp.live⟩
    obtain ⟨_, hheap', _⟩ := hwf.publishBlock hfront size
    have hd : ((s.splitBlock b rounded).publishBlock s.nextBlock size).deref s.nextBlock =
        { front B b rounded with allocated := true, requestedSize := size } :=
      deref_of (by rw [hheap', update_self])
    exact (congrArg CacheBlock.ptr hd :)
  · obtain ⟨_, hheap, _⟩ := h.carved.publishBlock hb size
    have hp := publishBlock_publishes h.carved hb size hle
    have hd : (s.publishBlock b size).deref b =
        { B with allocated := true, requestedSize := size } :=
      deref_of (by rw [hheap, update_self])
    exact ⟨(congrArg CacheBlock.ptr hd :), hp⟩

/-- A live block stays where it is. -/
theorem LiveAt.evolves {p size : Nat} {stream : Stream} (h : s.LiveAt p size stream)
    (he : Evolves done s t) : t.LiveAt p size stream := by
  obtain ⟨c, C, hC, hal, hp, hs, hst⟩ := h
  obtain ⟨X, hX, hu⟩ := Option.map_eq_some_iff.mp (he.live c C hC hal)
  have h₁ := congrArg CacheBlock.allocated hu
  have h₂ := congrArg CacheBlock.ptr hu
  have h₃ := congrArg CacheBlock.size hu
  have h₄ := congrArg CacheBlock.stream hu
  exact ⟨c, X, hX, h₁.trans hal, h₂.trans hp, h₃ ▸ hs, h₄.trans hst⟩

theorem finishAllocate_publishes (h : s.WellFormed (.taken b)) (hb : s.heap b = some B) (size : Nat)
    (hpos : 0 < rounded) (hle : rounded ≤ B.size) :
    (s.finishAllocate b rounded size).1 = .returned B.ptr ∧
      Publishes s (s.finishAllocate b rounded size).2 B.ptr rounded B.stream := by
  obtain ⟨hptr, hp⟩ := allocFoundBlockLocked_publishes h hb size hpos hle
  have ht : Progress (fun _ ↦ False) _ _ := (trimCacheLocked_progress hp.wellFormed).1
  refine ⟨by rw [finishAllocate, hptr], ht.wellFormed, hp.evolves.trans ht.evolves,
    fun base raw hr ↦ hp.segments _ _ (ht.segments _ _ hr), hp.live.evolves ht.evolves⟩

/-! ### Allocating -/

end Impl

/-- What a request keeps across the driver call: the segment it asks for holds the block it
will cut. -/
structure SegmentRequest.Valid (request : SegmentRequest) : Prop where
  rounded_pos : 0 < request.rounded
  size_le : request.size ≤ request.rounded
  rounded_le : request.rounded ≤ request.allocSize

theorem segmentRequest_valid {size : Nat} (h : RoundingFits size) (stream : Stream) :
    (Impl.segmentRequest size stream).Valid :=
  ⟨h.round_pos, h.le_round, h.le_segment⟩

namespace Impl

/-- A step of `allocate` for `size` bytes on `stream`, which `gained` a segment or none:
what it returns is live, what it asks of the driver is enough. -/
structure Serves (done : Event → Prop) (gained : Option RawSegment) (s : Impl) (size : Nat)
    (stream : Stream) (reply : Reply) (r : Impl) : Prop where
  wellFormed : r.WellFormed .none
  evolves : Evolves done s r
  segments : ∀ base raw, r.driverSegments.lookup base = some raw →
    s.driverSegments.lookup base = some raw ∨ (gained = some raw ∧ base = raw.ptr)
  returned : ∀ p, reply = .returned p → r.LiveAt p size stream
  unlocked : ∀ request, reply = .unlocked request → request.Valid

namespace Serves

variable {size : Nat} {stream : Stream} {reply : Reply}

theorem of_progress (hp : Progress done s r) (hret : ∀ p, reply ≠ .returned p)
    (hun : ∀ request, reply = .unlocked request → request.Valid) :
    Serves done .none s size stream reply r :=
  ⟨hp.wellFormed, hp.evolves, fun _ _ hr ↦ .inl (hp.segments _ _ hr),
    fun p h ↦ absurd h (hret p), hun⟩

theorem after (hp : Progress done s t) (hs : Serves done .none t size stream reply r) :
    Serves done .none s size stream reply r :=
  ⟨hs.wellFormed, hp.evolves.trans hs.evolves,
    fun _ _ hr ↦ (hs.segments _ _ hr).imp_left (hp.segments _ _), hs.returned, hs.unlocked⟩

end Serves

theorem dropLock_progress (h : s.WellFormed .none) (request : SegmentRequest) :
    Progress done s (s.dropLock request).2 := by
  unfold dropLock
  split
  · exact .of_core h rfl rfl rfl
  · exact .refl h

/-- Flushing before the driver is asked again, or given up on. -/
private theorem flushThen_serves (request : SegmentRequest) (next : Impl → Reply × Impl)
    {size : Nat} {stream : Stream} {reply : Reply} (h : s.WellFormed .none)
    (hr : (match s.releaseCachedBlocksLocked d with
      | (.error e, s) => (.threw e, s)
      | (.ok (), s) => next s) = (reply, r))
    (hf : ∀ x, reply = .threw x → SynchronizeFailure x → FrontFails d s.cudaEvents)
    (hnext : ∀ t : Impl, t.WellFormed .none → Progress (Completes d) t (next t).2 ∧
      ((next t).1 = .unlocked request ∨ (next t).1 = .threw .badAlloc)) (hv : request.Valid) :
    Serves (Completes d) .none s size stream reply r := by
  rcases hs : s.releaseCachedBlocksLocked d with ⟨x | _, t⟩
  · rw [hs] at hr
    cases hr
    obtain ⟨hp, _⟩ := releaseCachedBlocksLocked_progress h hs
      (fun y hy hfail ↦ by cases hy; exact hf x rfl hfail)
    exact .of_progress hp nofun nofun
  · rw [hs] at hr
    obtain ⟨hp, _⟩ := releaseCachedBlocksLocked_progress h hs nofun
    obtain ⟨hp', hreply⟩ := hnext t hp.wellFormed
    simp only at hr
    rw [hr] at hp' hreply
    refine .of_progress (hp.trans hp') ?_ ?_
    · rintro p rfl
      rcases hreply with hx | hx <;> cases hx
    · rintro request' rfl
      rcases hreply with hx | hx
      · cases hx
        exact hv
      · cases hx

theorem failOomLocked_progress (h : s.WellFormed .none) : Progress done s s.failOomLocked.2 :=
  .of_core h rfl rfl rfl

variable {request : SegmentRequest}

theorem missCache_serves {reply : Reply} {size : Nat} {stream : Stream} (h : s.WellFormed .none)
    (hv : request.Valid) (hr : s.missCache d request = (reply, r))
    (hf : ∀ x, reply = .threw x → SynchronizeFailure x → FrontFails d s.cudaEvents) :
    Serves (Completes d) .none s size stream reply r := by
  have hp : Progress (Completes d) s { s with stats := { s.stats with
      cacheMisses := SizeT.add s.stats.cacheMisses 1 } } := .of_core h rfl rfl rfl
  unfold missCache at hr
  dsimp only at hr
  refine .after hp ?_
  split at hr
  · refine flushThen_serves request (fun s ↦
      if s.reservedWouldExceedLocked request.allocSize then s.failOomLocked
      else s.dropLock request) hp.wellFormed hr hf (fun t ht ↦ ?_) hv
    split
    · exact ⟨failOomLocked_progress ht, .inr rfl⟩
    · exact ⟨dropLock_progress ht request, .inl rfl⟩
  · have hd : Progress (Completes d) _ _ := dropLock_progress hp.wellFormed request
    rw [hr] at hd
    refine .of_progress hd ?_ ?_
    · rintro p rfl
      cases hr
    · rintro request' rfl
      cases hr
      exact hv

def countHit (s : Impl) : Impl :=
  { s with stats := { s.stats with cacheHits := SizeT.add s.stats.cacheHits 1 } }

/-- The block found in the pool is handed out. -/
theorem hit_serves {size : Nat} {stream : Stream} {reply : Reply} (h : s.WellFormed .none)
    (hfit : RoundingFits size) (hm : b ∈ s.pools k) (hstream : (s.deref b).stream = stream)
    (hsize : roundRequestSize size ≤ (s.deref b).size)
    (hr : (s.take k b).countHit.finishAllocate b (roundRequestSize size) size = (reply, r)) :
    Serves done .none s size stream reply r := by
  obtain ⟨B, hB, _, hidle, _⟩ := h.pool_live hm
  obtain ⟨hwf, hu⟩ := h.take hm
  rw [deref_of hB] at hstream hsize
  have hwf' : (s.take k b).countHit.WellFormed (.taken b) := hwf.congr rfl
  have htake : Evolves done s (s.take k b).countHit := by
    refine .of_keepsBusy h (.of_unaffected .none (.taken b)
      (fun c C hC hi ↦ (hu c ?_).congr rfl rfl)) rfl rfl rfl
    rintro rfl
    rw [hB] at hC
    cases hC
    exact hi hidle
  obtain ⟨hreply, hpub⟩ := finishAllocate_publishes hwf' hB size hfit.round_pos hsize
  rw [hr] at hreply hpub
  refine ⟨hpub.wellFormed, htake.trans (hpub.evolves.mono (fun _ ↦ False.elim)),
    fun _ _ hs ↦ .inl (hpub.segments _ _ hs), ?_, ?_⟩
  · rintro p rfl
    cases hreply
    obtain ⟨c, C, hC, hal, hptr, hle, hst⟩ := hpub.live
    exact ⟨c, C, hC, hal, hptr, Nat.le_trans hfit.le_round hle, hst.trans hstream⟩
  · rintro request rfl
    cases hreply

/-- `allocate` until it returns, throws or drops the lock. -/
theorem allocate_serves {size : Nat} {stream : Stream} {reply : Reply} (h : s.WellFormed .none)
    (hfit : RoundingFits size) (hr : s.allocate d size stream = (reply, r))
    (hf : ∀ x, reply = .threw x → SynchronizeFailure x → FrontFails d (unready d s.cudaEvents)) :
    Serves (Completes d) .none s size stream reply r := by
  unfold allocate at hr
  split at hr
  · cases hr
    exact .of_progress (.refl h) nofun nofun
  · rcases hpe : s.processEventsLocked d with ⟨_ | _, t⟩
    · rw [hpe] at hr
      cases hr
      obtain ⟨hp, _⟩ := processEventsLocked_progress h hpe
      exact .of_progress (hp.mono (fun _ ↦ .inl)) nofun
        nofun
    · rw [hpe] at hr
      obtain ⟨hp, _⟩ := processEventsLocked_progress h hpe
      refine .after (hp.mono (fun _ ↦ .inl)) ?_
      dsimp only at hr
      rcases getFreeBlockLocked_cases t (segmentRequest size stream).pool stream
        (segmentRequest size stream).rounded with hg | ⟨b, hg, hm, hstream, hsize⟩
      · rw [hg] at hr
        exact missCache_serves hp.wellFormed (segmentRequest_valid hfit stream) hr
          (fun x hx hfail ↦ (hf x hx hfail).drained hpe)
      · rw [hg] at hr
        exact hit_serves hp.wellFormed hfit hm hstream hsize hr

/-- `allocate` with the segment the driver has returned. -/
theorem resumeAllocate_segment_serves {raw : RawSegment} {reply : Reply} (h : s.WellFormed .none)
    (hv : request.Valid) (hptr : 0 < raw.ptr) (hsize : request.allocSize ≤ raw.size)
    (hbound : raw.ptr + raw.size ≤ SizeT.modulus)
    (hfree : ∀ base r, s.driverSegments.lookup base = some r → raw.ptr + raw.size ≤ base ∨ base + r.size ≤ raw.ptr)
    (hr : s.resumeAllocate d request (.segment raw) = (reply, r)) :
    Serves done (some raw) s request.size request.stream reply r := by
  have hle : request.rounded ≤ raw.size := Nat.le_trans hv.rounded_le hsize
  obtain ⟨hwf, hheap, hseg, hu⟩ := h.registerSegment request hptr
    (Nat.lt_of_lt_of_le hv.rounded_pos hle) hbound hfree
  obtain ⟨hreply, hpub⟩ := finishAllocate_publishes hwf hheap request.size hv.rounded_pos hle
  have hkeep : Evolves done s (s.registerSegment request raw) := by
    refine .of_keepsBusy h (.of_unaffected .none (.taken s.nextBlock)
      (fun c C hC _ ↦ hu c ?_)) rfl rfl rfl
    rintro rfl
    rw [h.nextBlock_none] at hC
    cases hC
  change (s.registerSegment request raw).finishAllocate s.nextBlock request.rounded
    request.size = (reply, r) at hr
  rw [hr] at hreply hpub
  refine ⟨hpub.wellFormed, hkeep.trans (hpub.evolves.mono (fun _ ↦ False.elim)),
    fun base x hx ↦ ?_, ?_, ?_⟩
  · have hin := hpub.segments base x hx
    rw [hseg] at hin
    by_cases hb : base = raw.ptr
    · subst hb
      rw [AList.lookup_insert] at hin
      cases hin
      exact .inr ⟨rfl, rfl⟩
    · rw [AList.lookup_insert_ne hb] at hin
      exact .inl hin
  · rintro p rfl
    cases hreply
    obtain ⟨c, C, hC, hal, hptr, hle, hst⟩ := hpub.live
    exact ⟨c, C, hC, hal, hptr, Nat.le_trans hv.size_le hle, hst⟩
  · rintro request' rfl
    cases hreply

/-- `allocate` when the driver has no memory or the device could not be entered. -/
theorem resumeAllocate_failed_serves {answer : MallocAnswer} {reply : Reply}
    (h : s.WellFormed .none) (hv : request.Valid) (hanswer : ∀ raw, answer ≠ .segment raw)
    (hr : s.resumeAllocate d request answer = (reply, r))
    (hf : ∀ x, reply = .threw x → SynchronizeFailure x → FrontFails d s.cudaEvents) :
    Serves (Completes d) .none s request.size request.stream reply r := by
  cases answer with
  | segment raw => exact absurd rfl (hanswer raw)
  | failed err =>
    unfold resumeAllocate at hr
    dsimp only at hr
    split at hr
    · cases hr
      exact .of_progress (.refl h) nofun nofun
    · split at hr
      · cases hr
        exact .of_progress (failOomLocked_progress h) nofun
          nofun
      · refine flushThen_serves { request with isRetry := true } (fun s ↦ s.dropLock { request with isRetry := true }) h hr hf
          (fun t ht ↦ ⟨dropLock_progress ht _, .inl rfl⟩)
          ⟨hv.rounded_pos, hv.size_le, hv.rounded_le⟩
  | guard answer =>
    unfold resumeAllocate at hr
    dsimp only at hr
    split at hr
    · cases hr
      exact .of_progress (.refl h) nofun nofun
    · cases hr
      exact .of_progress (.refl h) (fun _ hx ↦ by cases hx) (fun _ hx ↦ by cases hx; exact hv)

end Impl
end Hisab.Memory
