import Hisab.Memory.TwinAllocators

/-!
# The CUDA and the Metal allocator agree

The invariant of the two allocators in lockstep, one step lemma for each way a call can
end, and the agreement of every reachable pair. The allocators part where CUDA has an
error Metal cannot have, or where the rounding of a request wraps.
-/

namespace Hisab.Memory
open Hisab.Base CachingConfig Function Impl Option

/-- The Metal allocator is the image of the CUDA one under the buffers `μ` of the live
segments `T`. -/
structure Mirror (μ : Buffers) (T : SegmentTable) (w : Twin) : Prop where
  wellFormed : w.cuda.WellFormed .none
  plain : w.cuda.Plain T
  exact : ∀ base n, T.has base n →
    ∃ b B, w.cuda.heap b = some B ∧ B.segmentBase = base ∧ B.registrationCounter = n
  image : w.metal = w.cuda.toMetal μ w.metal.allocatedBlocks
  keyed : w.cuda.Keyed μ w.metal.allocatedBlocks
  backed : Backed μ T w.cuda.Owns
  requests : w.metalRequest = w.cudaRequest
  valid : ∀ request, w.cudaRequest = some request → request.Valid

/-- The segments of `T` that still hold a block. -/
def SegmentTable.restrict (T : SegmentTable) (s : Impl) : SegmentTable where
  has base n := T.has base n ∧
    ∃ b B, s.heap b = some B ∧ B.segmentBase = base ∧ B.registrationCounter = n
  last := T.last
  last_nonneg := T.last_nonneg
  range base n h := T.range base n h.1
  same a m b n ha hb := T.same a m b n ha.1 hb.1

/-- A new segment at `base`. -/
def SegmentTable.extend (T : SegmentTable) (base : Nat) (hnew : ∀ n, ¬ T.has base n) :
    SegmentTable where
  has a n := T.has a n ∨ (a = base ∧ n = T.last + 1)
  last := T.last + 1
  last_nonneg := Int.add_nonneg T.last_nonneg (by decide)
  range a n h := by
    have := T.last_nonneg
    rcases h with h | ⟨_, rfl⟩
    · have := T.range a n h
      omega
    · omega
  same a m b n ha hb := by
    rcases ha with ha | ⟨rfl, rfl⟩ <;> rcases hb with hb | ⟨rfl, rfl⟩
    · exact T.same a m b n ha hb
    · have := T.range a m ha
      refine iff_of_false (by omega) ?_
      rintro rfl
      exact hnew m ha
    · have := T.range b n hb
      refine iff_of_false (by omega) ?_
      rintro rfl
      exact hnew n hb
    · simp

/-- `buffer` becomes number `n`. -/
def Buffers.set (μ : Buffers) (n : Int) (hn : 0 < n) (buffer : MetalBuffer) : Buffers where
  buffer := update μ.buffer n buffer
  unregistered := by
    rw [update_of_ne (by omega)]
    exact μ.unregistered

namespace Backed

variable {μ : Buffers} {T : SegmentTable} {segments segments' : Nat → RawSegment → Prop}

theorem restrict (h : Backed μ T segments) (s : Impl)
    (hs : ∀ base raw, segments' base raw → segments base raw) :
    Backed μ (T.restrict s) segments' :=
  ⟨fun base n raw hT hr ↦ h.length base n raw hT.1 (hs base raw hr),
    fun base n hT ↦ h.positive base n hT.1,
    fun a m b n ha hb ↦ h.apart a m b n ha.1 hb.1⟩

end Backed

namespace Impl

variable {μ : Buffers} {T : SegmentTable} {s : Impl} {κ : AList (fun _ : Nat ↦ BlockId)}

theorem Plain.restrict (h : s.Plain T) : s.Plain (T.restrict s) :=
  ⟨h.queues, h.last, fun b B hB ↦ ⟨(h.block b B hB).uses, (h.block b B hB).inside,
    (h.block b B hB).listed, b, B, hB, rfl, rfl⟩⟩

/-- A new number does not move the blocks there are. -/
theorem toMetal_set (h : s.Plain T) {n : Int} (hn : T.last < n) (hpos : 0 < n)
    (buffer : MetalBuffer) : s.toMetal (μ.set n hpos buffer) κ = s.toMetal μ κ := by
  unfold toMetal
  congr 1
  funext b
  cases hb : s.heap b with
  | none => rfl
  | some B =>
    have := (T.range _ _ (h.block b B hb).listed).2
    have hne : B.registrationCounter ≠ n := by omega
    simp only [map_some, CacheBlock.toMetal, Buffers.set, update_of_ne hne]

theorem Keyed.set (h : Keyed μ κ s) (hp : s.Plain T) {n : Int} (hn : T.last < n) (hpos : 0 < n)
    (buffer : MetalBuffer) : Keyed (μ.set n hpos buffer) κ s := by
  intro q b
  rw [h q b]
  have hptr {B : CacheBlock} (hb : s.heap b = some B) :
      (B.toMetal (μ.set n hpos buffer)).ptr = (B.toMetal μ).ptr := by
    have := (T.range _ _ (hp.block b B hb).listed).2
    have hne : B.registrationCounter ≠ n := by omega
    simp only [CacheBlock.toMetal, Buffers.set, update_of_ne hne]
  constructor
  · rintro ⟨B, hB, hal, hq⟩
    exact ⟨B, hB, hal, (hptr hB).trans hq⟩
  · rintro ⟨B, hB, hal, hq⟩
    exact ⟨B, hB, hal, (hptr hB).symm.trans hq⟩

end Impl

namespace Mirror

variable {μ : Buffers} {T : SegmentTable} {w : Twin}

/-- Memory that meets no segment does not start one. -/
private theorem fresh (h : Mirror μ T w) {p size : Nat} (hsize : 0 < size)
    (hfree : ∀ base r, w.cuda.driverSegments.lookup base = some r →
      p + size ≤ base ∨ base + r.size ≤ p) (n : Int) : ¬ T.has p n := by
  intro hT
  obtain ⟨b, B, hb, rfl, _⟩ := h.exact p n hT
  obtain ⟨m, hr, hlo, hhi⟩ := h.wellFormed.layout.inside b B.extent (extents_of hb)
  obtain ⟨raw, hraw, rfl⟩ := map_eq_some_iff.mp hr
  have hpos := h.wellFormed.pos hb
  have := hfree _ raw hraw
  simp only [CacheBlock.extent] at hlo hhi this
  omega

/-- The buffers after a new one has been made for a new segment. -/
private theorem extend (h : Mirror μ T w) (ptr : Nat) (raw : RawSegment)
    (buffer : MetalBuffer) (hptr : raw.ptr = ptr) (hlength : buffer.length = raw.size)
    (hcontents : 0 < buffer.contents) (hnew : ∀ n, ¬ T.has ptr n) (hn : 0 < T.last + 1)
    (hapart : ∀ b B, w.metal.heap b = some B → buffer.contents + buffer.length ≤ B.buffer.contents ∨
        B.buffer.contents + B.buffer.length ≤ buffer.contents) :
    Backed (μ.set (T.last + 1) hn buffer) (T.extend ptr hnew)
      (fun base x ↦ w.cuda.Owns base x ∨ (raw = x ∧ base = x.ptr)) := by
  have hold {base : Nat} {n : Int} (hT : T.has base n) :
      (μ.set (T.last + 1) hn buffer).buffer n = μ.buffer n :=
    update_of_ne (by have := T.range base n hT; omega) _ _
  have hself : (μ.set (T.last + 1) hn buffer).buffer (T.last + 1) = buffer := update_self ..
  have hmeet {base : Nat} {n : Int} (hT : T.has base n) :
      buffer.contents + buffer.length ≤ (μ.buffer n).contents ∨
        (μ.buffer n).contents + (μ.buffer n).length ≤ buffer.contents := by
    obtain ⟨b, B, hb, _, rfl⟩ := h.exact base n hT
    refine hapart b (B.toMetal μ) ?_
    rw [h.image]
    exact congrArg (Option.map (CacheBlock.toMetal μ)) hb
  constructor
  case length =>
    rintro base n x (hT | ⟨rfl, rfl⟩) hx
    · rw [hold hT]
      rcases hx with hx | ⟨rfl, rfl⟩
      · exact h.backed.length base n x hT hx
      · exact absurd (hptr ▸ hT) (hnew n)
    · rw [hself]
      rcases hx with hx | ⟨rfl, _⟩
      · obtain ⟨b, E, hE, _, hbase⟩ := h.wellFormed.layout.head base x.size
          (by rw [regions, show w.cuda.driverSegments.lookup base = some x from hx]; rfl)
        obtain ⟨B, hb, rfl⟩ := exists_of_extents hE
        have hlisted := (h.plain.block b B hb).listed
        rw [show B.segmentBase = base from hbase] at hlisted
        exact absurd hlisted (hnew _)
      · exact hlength
  case positive =>
    rintro base n (hT | ⟨rfl, rfl⟩)
    · rw [hold hT]
      exact h.backed.positive base n hT
    · rw [hself]
      exact hcontents
  case apart =>
    rintro a m b n (ha | ⟨rfl, rfl⟩) (hb | ⟨rfl, rfl⟩) hne
    · rw [hold ha, hold hb]
      exact h.backed.apart a m b n ha hb hne
    · rw [hold ha, hself]
      exact (hmeet ha).symm
    · rw [hself, hold hb]
      exact hmeet hb
    · exact absurd rfl hne

/-- A pointer both sides know, or neither. -/
private theorem lookup (h : Mirror μ T w) {p q : Nat} (hplace : w.SamePlace p q) (b : BlockId) :
    w.cuda.allocatedBlocks.lookup p = some b ↔ w.metal.allocatedBlocks.lookup q = some b := by
  rw [h.keyed q b, (h.wellFormed.placed.at_block b).allocated_iff p]
  refine exists_congr (fun B ↦ and_congr_right (fun hb ↦ and_congr_right (fun hal ↦ ?_)))
  have hpos := h.wellFormed.pos hb
  have hinside := (h.plain.block b B hb).inside
  have hmetal : w.metal.heap b = some (B.toMetal μ) := by
    rw [h.image]
    exact congrArg (Option.map (CacheBlock.toMetal μ)) hb
  rcases hplace with ⟨n, o, ⟨c, C, hC, hlo, hhi, rfl, hp⟩, ⟨e, E, hE, hlo', hhi', hn, hq⟩⟩ |
    ⟨hcuda, hnone, _⟩
  · rw [h.image] at hE
    obtain ⟨D, hD, rfl⟩ := map_eq_some_iff.mp hE
    change D.registrationCounter = C.registrationCounter at hn
    have hbaseD := (T.same _ _ _ _ (h.plain.block e D hD).listed (h.plain.block c C hC).listed).mp hn
    constructor
    · rintro rfl
      have hcb : c = b := by
        by_contra hne
        have := h.wellFormed.layout.disjoint c C.extent b B.extent (extents_of hC)
          (extents_of hb) hne
        simp only [CacheBlock.extent] at this
        omega
      subst hcb
      rw [hb] at hC
      cases hC
      simp only [CacheBlock.toMetal, hq, hn]
      omega
    · rintro rfl
      have heb := h.plain.eq_of_meet h.wellFormed h.backed hD hb
        ⟨hlo', hhi'⟩ ⟨Nat.le_refl _, Nat.lt_add_of_pos_right hpos⟩
      subst heb
      rw [hb] at hD
      cases hD
      simp only [CacheBlock.toMetal] at hq
      omega
  · refine iff_of_false ?_ ?_
    · rintro rfl
      exact hcuda B.registrationCounter (B.ptr - B.segmentBase)
        ⟨b, B, hb, Nat.le_refl _, Nat.lt_add_of_pos_right hpos, rfl, by omega⟩
    · rintro rfl
      exact hnone B.registrationCounter (B.ptr - B.segmentBase)
        ⟨b, B.toMetal μ, hmetal, Nat.le_refl _, Nat.lt_add_of_pos_right hpos, rfl, rfl⟩

private theorem null_iff (h : Mirror μ T w) {p q : Nat} (hplace : w.SamePlace p q) :
    p = 0 ↔ q = 0 := by
  rcases hplace with ⟨n, o, ⟨c, C, hC, hlo, _⟩, ⟨e, E, hE, hlo', _⟩⟩ | ⟨_, _, hnull⟩
  · have hC0 := (h.wellFormed.bounds hC).1
    rw [h.image] at hE
    obtain ⟨D, hD, rfl⟩ := map_eq_some_iff.mp hE
    have := h.backed.positive _ _ (h.plain.block e D hD).listed
    simp only [CacheBlock.toMetal] at hlo'
    omega
  · exact hnull

end Mirror

namespace Twin

variable {μ : Buffers} {T : SegmentTable} {w w' : Twin} {d : DriverAnswers}
  {r : Reply × Impl} {r' : Reply × MetalImpl}

/-- The invariant, for some buffers and segments. -/
def Mirrored (w : Twin) : Prop := ∃ μ T, Mirror μ T w

/-- From the result of a call on both sides to the invariant. -/
theorem Mirrored.of_result {κ : AList (fun _ : Nat ↦ BlockId)} (hwf : r.2.WellFormed .none)
    (hp : r.2.Plain T) (hm : Backed μ T r.2.Owns) (hk : r.2.Keyed μ κ)
    (himage : r'.2 = r.2.toMetal μ κ) (hreq : r'.1.request = r.1.request)
    (hvalid : ∀ request, r.1.request = some request → request.Valid) :
    (settle r r').2.Mirrored := by
  have hkeys : r'.2.allocatedBlocks = κ := congrArg MetalImpl.allocatedBlocks himage
  refine ⟨μ, T.restrict r.2, hwf, hp.restrict, fun base n h ↦ h.2, ?_, ?_,
    hm.restrict r.2 (fun _ _ hr ↦ hr), hreq, hvalid⟩
  · change r'.2 = r.2.toMetal μ r'.2.allocatedBlocks
    rw [hkeys]
    exact himage
  · change r.2.Keyed μ r'.2.allocatedBlocks
    rw [hkeys]
    exact hk

/-- What a call on both sides gives. -/
structure Steps (r : Reply × Impl) (r' : Reply × MetalImpl) : Prop where
  mirrored : (settle r r').2.Mirrored
  agrees : (settle r r').2.Agrees (r.1, r'.1)

theorem Steps.of_mirrored (h : Mirror μ T w)
    (hr : Impl.Mirrored μ T w.metal.allocatedBlocks d w.cuda r r') : Steps r r' := by
  have hp := hr.progress
  have hr' := hr.result
  subst hr'
  refine ⟨.of_result hp.wellFormed hr.plain ?_ (h.keyed.kept h.wellFormed hp.wellFormed
    hp.evolves.live hp.allocations) rfl rfl ?_, ?_⟩
  · exact ⟨fun base n raw hT hs ↦ h.backed.length base n raw hT (hp.segments base raw hs),
      h.backed.positive, h.backed.apart⟩
  · intro request hreq
    rcases hr.reply with ⟨request', hv, he⟩ | he | he <;> rw [he] at hreq <;> cases hreq
    exact hv
  · rcases hr.reply with ⟨request', _, he⟩ | he | he <;> rw [he]
    · exact rfl
    · trivial
    · trivial

theorem Steps.of_handedOut {κ : AList (fun _ : Nat ↦ BlockId)} {gained : Option RawSegment}
    {s : Impl} {B C : CacheBlock} {c : BlockId} (hwf : s.WellFormed .none)
    (hk : s.Keyed μ κ) (hr : Impl.HandedOut μ T κ gained s B r r' c C)
    (hm : Backed μ T r.2.Owns) : Steps r r' := by
  have hr' := hr.metal
  subst hr'
  have hreply := hr.cuda
  refine ⟨.of_result hr.wellFormed hr.plain hm (hk.handedOut hwf hr hm) rfl ?_ ?_, ?_⟩
  · rw [hreply]
    rfl
  · rw [hreply]
    exact nofun
  · obtain ⟨hptr, hbase, hcounter⟩ := hr.place
    have hpos := hr.wellFormed.pos hr.block
    have hinside := (hr.plain.block c C hr.block).inside
    rw [hreply]
    refine ⟨C.registrationCounter, C.ptr - C.segmentBase, ⟨c, C, hr.block, ?_⟩,
      ⟨c, C.toMetal μ, ?_, ?_⟩⟩
    · refine ⟨by omega, by omega, rfl, by omega⟩
    · exact congrArg (Option.map (CacheBlock.toMetal μ)) hr.block
    · rw [← toMetal_ptr_eq hptr hbase hcounter]
      exact ⟨Nat.le_refl _, Nat.lt_add_of_pos_right hpos, rfl, rfl⟩

/-- Nothing has changed, and both sides have thrown or have nothing to do. -/
theorem Steps.unchanged (h : Mirror μ T w) {reply reply' : Reply} (hreq : reply.request = none)
    (hreq' : reply'.request = none)
    (ha : ∀ w : Twin, w.Agrees (reply, reply')) : Steps (reply, w.cuda) (reply', w.metal) := by
  refine ⟨.of_result h.wellFormed h.plain h.backed h.keyed h.image (hreq'.trans hreq.symm)
    (fun request hx ↦ ?_), ha _⟩
  rw [hreq] at hx
  cases hx

theorem allocate_steps (h : Mirror μ T w) (hd : d.ErrorFree) {size : Nat}
    (hfit : RoundingFits size) : Steps (w.cuda.allocate d size 0) (w.metal.allocate size) := by
  by_cases hsize : size = 0
  · have hcuda : w.cuda.allocate d size 0 =
        (.threw (.check "cuda_caching_allocator cannot allocate zero bytes"), w.cuda) := by
      rw [allocate, if_pos hsize]
    have hmetal : w.metal.allocate size =
        (.threw (.check "metal_caching_allocator cannot allocate zero bytes"), w.metal) := by
      rw [MetalImpl.allocate, if_pos hsize]
    rw [hcuda, hmetal]
    exact .unchanged h rfl rfl (fun _ ↦ trivial)
  · have hserved := allocate_served (μ := μ) (κ := w.metal.allocatedBlocks) h.wellFormed
      h.plain hd hsize hfit
    rw [← h.image] at hserved
    rcases hserved with hmirrored | ⟨B, c, C, hout⟩
    · exact .of_mirrored h hmirrored
    · refine .of_handedOut h.wellFormed h.keyed hout ⟨fun base n raw hT hs ↦ ?_,
        h.backed.positive, h.backed.apart⟩
      rcases hout.segments base raw hs with hin | ⟨hx, _⟩
      · exact h.backed.length base n raw hT hin
      · cases hx

theorem served_steps (h : Mirror μ T w) {request : SegmentRequest}
    (hreq : w.cudaRequest = some request) {ptr contents : Nat} {vm : Bool}
    (ha : w.Admissible (.answer (.served ptr contents vm) d)) :
    Steps (w.cuda.resumeAllocate d request ((SegmentOutcome.served ptr contents vm).cuda request))
      (w.metal.resumeAllocate request ((SegmentOutcome.served ptr contents vm).metal request)) := by
  obtain ⟨hptr, hbound, hfree⟩ := ha.1 request hreq
  obtain ⟨hcontents, hapart⟩ := ha.2 request (h.requests.trans hreq)
  have hv := h.valid request hreq
  have hsize : 0 < request.allocSize := Nat.lt_of_lt_of_le hv.rounded_pos hv.rounded_le
  have hlast : w.cuda.registrationCounterGlobal = T.last := h.plain.last
  have hn : 0 < T.last + 1 := Int.lt_add_one_of_le T.last_nonneg
  have hnew := h.fresh hsize hfree
  let raw : RawSegment := { ptr, size := request.allocSize, vm }
  let buffer : MetalBuffer := { contents, length := request.allocSize }
  have hbacked := h.extend ptr raw buffer rfl rfl hcontents hnew hn
    hapart
  have hplain : (w.cuda.registerSegment request raw).Plain (T.extend ptr hnew) := by
    refine ⟨h.plain.queues, congrArg (· + 1) hlast, fun b B hb ↦ ?_⟩
    change update w.cuda.heap w.cuda.nextBlock
      (some (w.cuda.segmentBlock request raw)) b = some B at hb
    rw [update_apply] at hb
    split at hb
    · cases hb
      exact ⟨⟨rfl, rfl⟩, Nat.le_refl _, .inr ⟨rfl, congrArg (· + 1) hlast⟩⟩
    · have hB := h.plain.block b B hb
      exact ⟨hB.uses, hB.inside, .inl hB.listed⟩
  have himage : w.metal = w.cuda.toMetal (μ.set (T.last + 1) hn buffer) w.metal.allocatedBlocks :=
    h.image.trans (toMetal_set h.plain (by omega) hn buffer).symm
  have hbuffer : (μ.set (T.last + 1) hn buffer).buffer (w.cuda.registrationCounterGlobal + 1) =
      buffer := by
    rw [hlast]
    exact update_self ..
  obtain ⟨c, C, hout⟩ := resumeAllocate_segment_handsOut h.wellFormed hv
    hptr rfl hbound hfree hplain
  rw [hbuffer, ← himage] at hout
  refine .of_handedOut h.wellFormed (h.keyed.set h.plain (by omega) hn buffer) hout
    ⟨fun base n x hT hx ↦ hbacked.length base n x hT ?_, hbacked.positive, hbacked.apart⟩
  rcases hout.segments base x hx with hin | ⟨hgained, rfl⟩
  · exact .inl hin
  · exact .inr ⟨some.inj hgained, rfl⟩

theorem deallocate_steps (h : Mirror μ T w) (hd : d.ErrorFree) {p q : Nat}
    (hplace : w.SamePlace p q) : Steps (w.cuda.deallocate d p 0) (w.metal.deallocate q) := by
  have hnull := h.null_iff hplace
  by_cases hp : p = 0
  · rw [deallocate, if_pos hp, MetalImpl.deallocate, if_pos (hnull.mp hp)]
    exact .unchanged h rfl rfl (fun _ ↦ trivial)
  · have hq : ¬ q = 0 := fun hq ↦ hp (hnull.mpr hq)
    rw [deallocate, if_neg hp, MetalImpl.deallocate, if_neg hq,
      processEventsLocked_plain h.plain hd]
    dsimp only
    cases hlookup : w.cuda.allocatedBlocks.lookup p with
    | none =>
      have hmetal : w.metal.allocatedBlocks.lookup q = none := by
        cases hm : w.metal.allocatedBlocks.lookup q with
        | none => rfl
        | some b =>
          have := (h.lookup hplace b).mpr hm
          rw [hlookup] at this
          cases this
      rw [hmetal]
      exact .unchanged h rfl rfl (fun _ ↦ trivial)
    | some b =>
      have hmetal := (h.lookup hplace b).mp hlookup
      obtain ⟨B, hB, hal, rfl⟩ := h.wellFormed.live_of_lookup hlookup
      obtain ⟨B', hB', _, rfl⟩ := (h.keyed q b).mp hmetal
      rw [hB] at hB'
      cases hB'
      have hout := deallocateBlock_handedBack (μ := μ) (κ := w.metal.allocatedBlocks)
        (d := d) h.wellFormed h.plain hB hal (B.toMetal μ).ptr
      rw [← h.image] at hout
      have hderef : (w.metal.deref b).allocated = true := by
        rw [h.image, deref_toMetal, deref_of hB]
        exact hal
      have hlive : (w.cuda.deref b).allocated = true := by
        rw [deref_of hB]
        exact hal
      rw [hmetal]
      dsimp only
      rw [if_pos hlive, if_pos hderef]
      have hr' := hout.metal
      refine ⟨.of_result hout.wellFormed hout.plain ⟨fun base n raw hT hs ↦
        h.backed.length base n raw hT (hout.segments base raw hs), h.backed.positive,
        h.backed.apart⟩ (h.keyed.handedBack h.wellFormed hB hal hout) (by rw [hr']) ?_ ?_, ?_⟩
      · rw [hr', hout.cuda]
      · rw [hout.cuda]
        exact nofun
      · rw [hout.cuda]
        trivial

private theorem run_idle {y : (Reply × Reply) × Twin} (hs : Steps r r')
    (hr : (if w.cudaRequest = none ∧ w.metalRequest = none then some (settle r r') else none) =
      some y) : y.2.Mirrored ∧ y.2.Agrees y.1 := by
  split at hr
  · cases hr
    exact ⟨hs.mirrored, hs.agrees⟩
  · cases hr

/-- An ordinary step of both allocators keeps the invariant and ends alike. -/
theorem run_agrees (h : w.Mirrored) {call : TwinCall} {replies : Reply × Reply}
    (ha : w.Admissible call) (ho : call.Ordinary) (hr : w.run call = some (replies, w')) :
    w'.Mirrored ∧ w'.Agrees replies := by
  obtain ⟨μ, T, h⟩ := h
  cases call with
  | allocate size d => exact run_idle (allocate_steps h ho.2 ho.1) hr
  | deallocate p q d => exact run_idle (deallocate_steps h ho ha) hr
  | emptyCache d =>
    have hm := emptyCache_mirrored (μ := μ) (κ := w.metal.allocatedBlocks) h.wellFormed
      h.plain ho
    rw [← h.image] at hm
    exact run_idle (.of_mirrored h hm) hr
  | setMaxCachedBytes bytes =>
    have hm := setMaxCachedBytes_mirrored (μ := μ) (κ := w.metal.allocatedBlocks)
      (d := {}) h.wellFormed h.plain bytes
    rw [← h.image] at hm
    exact run_idle (.of_mirrored h hm) hr
  | resetPeakStats =>
    have hm := resetPeakStats_mirrored (μ := μ) (κ := w.metal.allocatedBlocks)
      (d := {}) h.wellFormed h.plain
    rw [← h.image] at hm
    exact run_idle (.of_mirrored h hm) hr
  | answer outcome d =>
    unfold run at hr
    cases hreq : w.cudaRequest with
    | none =>
      rw [hreq] at hr
      cases hr
    | some request =>
      rw [hreq, h.requests.trans hreq] at hr
      cases hr
      cases outcome with
      | served ptr contents vm =>
        have hs := served_steps h hreq ha
        exact ⟨hs.mirrored, hs.agrees⟩
      | failed err =>
        obtain ⟨rfl, hd⟩ := ho
        have hm := resumeAllocate_failed_mirrored (μ := μ) (κ := w.metal.allocatedBlocks)
          h.wellFormed h.plain hd (h.valid request hreq)
        rw [← h.image] at hm
        have hs := Steps.of_mirrored h hm
        exact ⟨hs.mirrored, hs.agrees⟩

/-- Two fresh allocators. -/
theorem mirrored_of_init (h : twinAllocators.init w) : w.Mirrored := by
  obtain ⟨maxCachedBytes, allowedMemoryMaximum, rfl⟩ := h
  let T : SegmentTable :=
    { has := fun _ _ ↦ False, last := 0, last_nonneg := Int.le_refl 0
      range := fun _ _ h ↦ h.elim, same := fun _ _ _ _ h ↦ h.elim }
  refine ⟨⟨fun _ ↦ {}, rfl⟩, T, ?_, ⟨rfl, rfl, fun _ _ hb ↦ (by cases hb)⟩, fun _ _ h ↦ h.elim, rfl,
    fun q b ↦ iff_of_false (by simp) (by rintro ⟨B, hB, _⟩; cases hB),
    ⟨fun _ _ _ h ↦ h.elim, fun _ _ h ↦ h.elim, fun _ _ _ _ h ↦ h.elim⟩, rfl,
    fun _ h ↦ (by cases h)⟩
  exact (Machine.initial_consistent maxCachedBytes).impl.congr rfl

theorem Mirrored.matches (h : w.Mirrored) : w.Matches := by
  obtain ⟨μ, T, h⟩ := h
  refine ⟨?_, ?_, fun b ↦ ?_, h.requests⟩
  · rw [h.image]
    exact statsCopy_toMetal w.cuda
  · rw [h.image]
    rfl
  · rw [h.image]
    change ((w.cuda.heap b).map (CacheBlock.toMetal μ)).map MetalBlock.place = _
    rw [map_map]
    congr 1
    funext B
    simp [MetalBlock.place, CacheBlock.place, CacheBlock.toMetal]

end Twin

/-- In ordinary runs the two allocators match in every state reached and every call ends
alike on both sides. -/
theorem cuda_and_metal_agree {w : Twin} (h : ordinaryTwinAllocators.Reachable w) :
    w.Matches ∧ ∀ call replies w', w.Admissible call → call.Ordinary →
      w.run call = some (replies, w') → w'.Agrees replies := by
  have hm : w.Mirrored := by
    refine h.invariant (fun w (hi : ordinaryTwinAllocators.init w) ↦ Twin.mirrored_of_init hi)
      (fun s l t hs hstep ↦ ?_)
    obtain ⟨⟨ha, hr⟩, ho⟩ := hstep
    exact (Twin.run_agrees hs ha ho hr).1
  exact ⟨hm.matches, fun call replies w' ha ho hr ↦ (Twin.run_agrees hm ha ho hr).2⟩

/-- The pair after a call; itself if the call cannot start. -/
def Twin.next (w : Twin) (call : TwinCall) : Twin := ((w.run call).map Prod.snd).getD w

theorem Twin.step_next {w : Twin} (call : TwinCall) (ha : w.Admissible call)
    (hr : (w.run call).isSome = true) :
    ∃ replies, twinAllocators.step w (call, replies) (w.next call) := by
  obtain ⟨⟨replies, w'⟩, hw⟩ := isSome_iff_exists.mp hr
  have hnext : w.next call = w' := by rw [Twin.next, hw, map_some, getD_some]
  exact ⟨replies, ha, hnext ▸ hw⟩

theorem Twin.reachable_next {w : Twin} (h : ordinaryTwinAllocators.Reachable w) (call : TwinCall)
    (ha : w.Admissible call) (ho : call.Ordinary) (hr : (w.run call).isSome = true) :
    ordinaryTwinAllocators.Reachable (w.next call) := by
  obtain ⟨replies, hs⟩ := Twin.step_next _ ha hr
  exact h.step ⟨hs, ho⟩

/-- 1000 bytes asked for, for which both need a segment. -/
def askingTwin : Twin := ({} : Twin).next (.allocate 1000 {})

/-- The segment is at 4096 for CUDA and at 81920 for Metal. -/
def oneBlockTwin : Twin := askingTwin.next (.answer (.served 4096 81920 false) {})

theorem askingTwin_request : askingTwin.cudaRequest = some
    { size := 1000, rounded := 1024, stream := 0, pool := .small, allocSize := 2097152
      isRetry := false } := rfl

theorem askingTwin_served : askingTwin.Admissible (.answer (.served 4096 81920 false) {}) := by
  refine ⟨fun request hr ↦ ?_, fun request hr ↦ ?_⟩
  · cases askingTwin_request.symm.trans hr
    exact ⟨by decide, by decide, fun _ _ hb ↦ (by cases hb)⟩
  · exact ⟨by decide, fun _ _ hb ↦ (by cases hb)⟩

theorem oneBlockTwin_reachable : ordinaryTwinAllocators.Reachable oneBlockTwin := by
  have h₀ : ordinaryTwinAllocators.Reachable {} := .of_init ⟨_, _, rfl⟩
  have h₁ := Twin.reachable_next h₀ (.allocate 1000 {}) trivial ⟨by decide, errorFree_default⟩ rfl
  exact Twin.reachable_next h₁ (.answer (.served 4096 81920 false) {}) askingTwin_served trivial rfl

theorem oneBlockTwin_matches : oneBlockTwin.Matches :=
  (cuda_and_metal_agree oneBlockTwin_reachable).1

/-- The rounding of this size wraps: a segment of no bytes is asked for. -/
def wrappingTwin : Twin := oneBlockTwin.next (.allocate 18446744073708502528 {})

/-- The empty segment has the address of the live block on the CUDA side only. -/
def overlappingTwin : Twin := wrappingTwin.next (.answer (.served 4096 4194304 false) {})

theorem overlappingTwin_reachable : twinAllocators.Reachable overlappingTwin := by
  have hblock : twinAllocators.Reachable oneBlockTwin := oneBlockTwin_reachable.of_restrict
  obtain ⟨_, hs⟩ := Twin.step_next (w := oneBlockTwin)
    (.allocate 18446744073708502528 {}) trivial rfl
  have hrequest : wrappingTwin.cudaRequest = some
      { size := 18446744073708502528, rounded := 18446744073708502528, stream := 0
        pool := .large, allocSize := 0, isRetry := false } := rfl
  have ha : wrappingTwin.Admissible (.answer (.served 4096 4194304 false) {}) := by
    refine ⟨fun request hr ↦ ?_, fun request hr ↦ ?_⟩
    · cases hrequest.symm.trans hr
      refine ⟨by decide, by decide, fun base r hb ↦ ?_⟩
      change (AList.insert 4096 { ptr := 4096, size := 2097152, vm := false } ∅ :
        AList (fun _ : Nat ↦ RawSegment)).lookup base = some r at hb
      by_cases hbase : base = 4096
      · exact .inl (Nat.le_of_eq hbase.symm)
      · rw [AList.lookup_insert_ne hbase] at hb
        cases hb
    · refine ⟨by decide, fun b B hb ↦ .inr ?_⟩
      match b with
      | 0 | 1 => cases hb; decide
      | n + 2 => cases hb
  obtain ⟨_, hs'⟩ := Twin.step_next _ ha rfl
  exact (hblock.step hs).step hs'

/-- With an error other than being out of memory CUDA gives up at once where Metal asks
again; a device that cannot be entered stops CUDA alone; and where the rounding of a
request wraps the two can come to free different blocks. -/
theorem other_errors_part_allocators :
    (∃ w call replies w', twinAllocators.Reachable w ∧ w.Admissible call ∧
      call = .answer (.failed (.other 700)) {} ∧ w.run call = some (replies, w') ∧
        ¬ w'.Agrees replies) ∧
    (∃ w call replies w', twinAllocators.Reachable w ∧ w.Admissible call ∧
      call = .emptyCache { synchronizeGuard := .setDevice (.other 101) } ∧
        w.run call = some (replies, w') ∧ ¬ w'.Agrees replies) ∧
    ∃ w, twinAllocators.Reachable w ∧ ¬ w.Matches := by
  have hasking : twinAllocators.Reachable askingTwin :=
    (Twin.reachable_next (.of_init ⟨_, _, rfl⟩) (.allocate 1000 {}) trivial
      ⟨by decide, errorFree_default⟩ rfl).of_restrict
  refine ⟨⟨askingTwin, _, _, _, hasking, ?_, rfl, rfl, id⟩,
    ⟨{}, .emptyCache { synchronizeGuard := .setDevice (.other 101) }, _, _,
      .of_init ⟨_, _, rfl⟩, trivial, rfl, rfl, id⟩,
    ⟨overlappingTwin.next (.deallocate 4096 4194304 {}), ?_, fun h ↦ ?_⟩⟩
  · exact nofun
  · have hplace : overlappingTwin.SamePlace 4096 4194304 :=
      .inl ⟨2, 0, ⟨3, _, rfl, by decide, by decide, rfl, rfl⟩,
        ⟨3, _, rfl, by decide, by decide, rfl, rfl⟩⟩
    obtain ⟨_, hs⟩ := Twin.step_next (.deallocate 4096 4194304 {}) hplace rfl
    exact overlappingTwin_reachable.step hs
  · have := congrArg (fun c ↦ c.counters.bytesAllocated) h.stats
    revert this
    decide

end Hisab.Memory
