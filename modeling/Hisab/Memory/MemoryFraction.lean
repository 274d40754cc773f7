import Hisab.Memory.CapFrames
import Hisab.Memory.EventErrors

/-!
# The cap of `set_memory_fraction`

`allocate` checks `reserved_would_exceed_locked` before it drops the lock and books the
segment after it has the lock again, without a second check. No function but
`set_memory_fraction` writes the cap, no step but the booking of a segment raises
`bytes_reserved`, and so the cap holds as long as each segment still fits when it is booked.
-/

namespace Hisab.Memory
open Hisab.Base CachingConfig Function Impl Prod

namespace Impl

variable {d : DriverAnswers} {s r : Impl}

/-! ### Fewer segments, fewer bytes -/

theorem segmentBytes_le (hsub : ∀ base raw, r.driverSegments.lookup base = some raw →
    s.driverSegments.lookup base = some raw) : r.segmentBytes ≤ s.segmentBytes := by
  have hentries : r.driverSegments.entries ⊆ s.driverSegments.entries := by
    rintro ⟨base, raw⟩ he
    exact AList.mem_lookup_iff.mp (hsub base raw (AList.mem_lookup_iff.mpr he))
  obtain ⟨l, hperm, hsublist⟩ := r.driverSegments.nodupKeys.nodup.subperm hentries
  calc r.segmentBytes = (l.map (fun e ↦ e.2.size)).sum := (hperm.map _).sum_eq.symm
    _ ≤ s.segmentBytes := (hsublist.map _).sum_le_sum (fun _ _ ↦ Nat.zero_le _)

theorem WellFormed.reserved_le {l k : Limbo} (hs : s.WellFormed l) (hr : r.WellFormed k)
    (hsub : ∀ base raw, r.driverSegments.lookup base = some raw →
      s.driverSegments.lookup base = some raw) :
    r.stats.bytesReserved ≤ s.stats.bytesReserved := by
  rw [← hs.accounted.segments, ← hr.accounted.segments]
  exact segmentBytes_le hsub

/-- Booking a segment adds its size, in `size_t`; what follows only gives memory back. -/
theorem resumeAllocate_segment_reserved {request : SegmentRequest} {raw : RawSegment}
    (h : s.WellFormed .none) (hv : request.Valid) (hptr : 0 < raw.ptr)
    (hsize : request.allocSize ≤ raw.size) (hbound : raw.ptr + raw.size ≤ SizeT.modulus)
    (hfree : ∀ base r, s.driverSegments.lookup base = some r →
      raw.ptr + raw.size ≤ base ∨ base + r.size ≤ raw.ptr) :
    (s.resumeAllocate d request (.segment raw)).2.stats.bytesReserved ≤
      SizeT.add s.stats.bytesReserved raw.size := by
  have hle : request.rounded ≤ raw.size := Nat.le_trans hv.rounded_le hsize
  obtain ⟨hwf, hheap, _⟩ := h.registerSegment request hptr
    (Nat.lt_of_lt_of_le hv.rounded_pos hle) hbound hfree
  obtain ⟨_, hpub⟩ := finishAllocate_publishes hwf hheap request.size hv.rounded_pos hle
  exact hwf.reserved_le hpub.wellFormed hpub.segments

end Impl

namespace Machine

variable {m m' : Machine} {op : Operation} {reply : Reply}

/-- The operation books this segment. -/
def Books (m : Machine) (op : Operation) (raw : RawSegment) : Prop :=
  ∃ t d request, op = .resume t d ∧ m.threads t = .fromDriver request (.segment raw)

/-- Only a step that books a segment adds to the segments. -/
theorem step_segments (h : m.Consistent) (hr : m.run op = some (reply, m'))
    (hs : op.Safe m reply) : (∃ raw, m.Books op raw) ∨
      ∀ base raw, m'.impl.driverSegments.lookup base = some raw →
        m.impl.driverSegments.lookup base = some raw := by
  cases op with
  | allocate t size stream d =>
    obtain ⟨-, r, hi, rfl⟩ := run_allocate hr
    have hserves := allocate_serves h.impl hs.1 hi (fun x hx hfail ↦ hs.2 ⟨x, hx, hfail⟩)
    exact .inr (fun base raw hx ↦ (hserves.segments base raw hx).resolve_right
      (fun hg ↦ by cases hg.1))
  | mallocSegment t answer =>
    obtain ⟨request, -, rfl, rfl⟩ := run_mallocSegment hr
    exact .inr (fun _ _ hx ↦ hx)
  | resume t d =>
    obtain ⟨request, answer, r, ht, hi, rfl⟩ := run_resume hr
    by_cases hsegment : ∃ raw, answer = .segment raw
    · obtain ⟨raw, rfl⟩ := hsegment
      exact .inl ⟨raw, t, d, request, rfl, ht⟩
    · have hserves := resumeAllocate_failed_serves h.impl
        (h.requests t request (by rw [ht]; rfl)) (fun raw hx ↦ hsegment ⟨raw, hx⟩) hi
        (fun x hx hfail ↦ hs ⟨x, hx, hfail⟩)
      exact .inr (fun base raw hx ↦ (hserves.segments base raw hx).resolve_right
        (fun hg ↦ by cases hg.1))
  | deallocate p hint d =>
    obtain ⟨r, hi, rfl⟩ := run_deallocate hr
    exact .inr (deallocate_frees h.impl hs.1 hi (fun x hx hfail ↦ hs.2 ⟨x, hx, hfail⟩)).segments
  | recordStream p stream =>
    cases hr
    obtain ⟨_, _, _, hseg, _⟩ := recordStream_spec (fun _ ↦ False) (fun _ ↦ False) h.impl p
      stream
    exact .inr (fun _ _ hx ↦ hseg ▸ hx)
  | emptyCache d =>
    obtain ⟨result, r, hi, rfl, hthrew⟩ := run_emptyCache hr
    exact .inr (releaseCachedBlocksLocked_progress h.impl hi
      (fun y hy hfail ↦ hs ⟨y, hthrew y hy, hfail⟩)).1.segments
  | setMaxCachedBytes bytes =>
    cases hr
    have hp : Impl.Progress (fun _ ↦ False) m.impl { m.impl with maxCachedBytes := bytes } :=
      .of_core h.impl rfl rfl rfl
    exact .inr (hp.trans (trimCacheLocked_progress hp.wellFormed).1).segments
  | setMemoryFraction allowed | resetPeakStats | submit stream | rehash queues =>
    cases hr
    exact .inr (fun _ _ hx ↦ hx)

/-- A step leaves `bytes_reserved` as it is, lowers it, or books one segment. -/
theorem step_reserved (h : m.Consistent) (ha : m.Admissible op)
    (hr : m.run op = some (reply, m')) (hs : op.Safe m reply) :
    m'.impl.stats.bytesReserved ≤ m.impl.stats.bytesReserved ∨ ∃ raw, m.Books op raw ∧
        m'.impl.stats.bytesReserved ≤ SizeT.add m.impl.stats.bytesReserved raw.size := by
  rcases step_segments h hr hs with ⟨raw, hbooks⟩ | hsub
  · obtain ⟨t, d, request, rfl, ht⟩ := hbooks
    have hv := h.requests t request (by rw [ht]; rfl)
    obtain ⟨hptr, hsize, hbound, hfree⟩ := h.pending t request.allocSize raw (by rw [ht]; rfl)
    refine .inr ⟨raw, ⟨t, d, request, rfl, ht⟩, ?_⟩
    simp only [run, ht, Option.some.injEq, settle, Prod.mk.injEq] at hr
    rw [← hr.2]
    exact resumeAllocate_segment_reserved (d := d) h.impl hv hptr hsize hbound hfree
  · exact .inl (h.impl.reserved_le (step_spec h ha hr hs).consistent.impl hsub)

/-- No operation but `set_memory_fraction` writes the cap. -/
theorem step_allowed (hr : m.run op = some (reply, m')) :
    m'.impl.allowedMemoryMaximum = m.impl.allowedMemoryMaximum ∨
      ∃ allowed, op = .setMemoryFraction allowed := by
  cases op with
  | allocate t size stream d =>
    obtain ⟨-, r, hi, rfl⟩ := run_allocate hr
    exact .inl (congrArg snd (hi ▸ allocate_caps ..))
  | mallocSegment t answer =>
    obtain ⟨request, -, rfl, rfl⟩ := run_mallocSegment hr
    exact .inl rfl
  | resume t d =>
    obtain ⟨request, answer, r, -, hi, rfl⟩ := run_resume hr
    exact .inl (congrArg snd (hi ▸ resumeAllocate_caps ..))
  | deallocate p hint d =>
    cases hr
    exact .inl (congrArg snd (deallocate_caps ..))
  | recordStream p stream =>
    cases hr
    exact .inl (congrArg snd (recordStream_caps ..))
  | emptyCache d =>
    cases hr
    exact .inl (congrArg snd (emptyCache_caps ..))
  | setMaxCachedBytes bytes =>
    cases hr
    exact .inl (congrArg snd (trimCacheLocked_caps _))
  | setMemoryFraction allowed => exact .inr ⟨allowed, rfl⟩
  | resetPeakStats | submit stream | rehash queues =>
    cases hr
    exact .inl rfl

end Machine

/-! ### The check -/

namespace Impl

variable {d : DriverAnswers} {s f : Impl} {size : Nat} {stream : Stream}

theorem exceeds_iff {n : Nat} (h : s.stats.bytesReserved + n < SizeT.modulus) :
    s.reservedWouldExceedLocked n = true ↔ s.allowedMemoryMaximum < s.stats.bytesReserved + n := by
  rw [reservedWouldExceedLocked, decide_eq_true_eq, SizeT.add_eq h]

end Impl

/-! ### Runs under a cap -/

/-- The driver returns segments of the size asked for, and the cap is not set again. -/
def Operation.Exact (m : Machine) : Operation → Prop
  | .mallocSegment t (.segment raw) =>
    ∀ request, m.threads t = .inDriver request → raw.size = request.allocSize
  | .setMemoryFraction _ => False
  | _ => True

namespace Machine

variable {m m' : Machine} {op : Operation} {reply : Reply}

/-- A request that fits when the lock is dropped still fits after any run in which nobody
else books a segment. -/
theorem stillFits_of_undisturbed {ls : List (Operation × Reply)} {n : Nat} (h : m.Consistent)
    (hfit : m.impl.stats.bytesReserved + n ≤ m.impl.allowedMemoryMaximum)
    (hrange : m.impl.stats.bytesReserved + n < SizeT.modulus)
    (hr : (cudaAllocator.restrict (fun m l ↦ l.1.Exact m ∧ l.1.Benign m ∧
      ∀ raw, ¬ m.Books l.1 raw)).Run m ls m') :
    m'.impl.reservedWouldExceedLocked n = false := by
  obtain ⟨_, hallowed, hle⟩ := hr.invariant
    (I := fun x ↦ x.Consistent ∧ x.impl.allowedMemoryMaximum = m.impl.allowedMemoryMaximum ∧
      x.impl.stats.bytesReserved ≤ m.impl.stats.bytesReserved)
    (fun x l y ⟨hx, hallowed, hle⟩ ⟨⟨ha, hr⟩, hexact, hbenign, hnone⟩ ↦ by
      refine ⟨(step_spec hx ha hr (hbenign.safe l.2)).consistent, ?_, ?_⟩
      · rcases step_allowed hr with he | ⟨k, he⟩
        · exact he.trans hallowed
        · rw [he] at hexact
          exact hexact.elim
      · rcases step_reserved hx ha hr (hbenign.safe l.2) with hle' | ⟨raw, hbooks, _⟩
        · exact hle'.trans hle
        · exact absurd hbooks (hnone raw)) ⟨h, rfl, Nat.le_refl _⟩
  rw [← Bool.not_eq_true, exceeds_iff (by omega)]
  omega

end Machine

end Hisab.Memory
