import Hisab.Memory.QueueSteps
import Hisab.Memory.SegmentSteps

/-!
# Giving the cache back

Flushing and trimming release pooled blocks that span their segments, one after another.
A flush first synchronizes all events; when no allocation is live it leaves nothing behind.
-/

namespace Hisab.Memory
open Hisab.Base ExtentMap Function

namespace Impl

variable {s t r : Impl} {b : BlockId} {B : CacheBlock} {k : PoolKind} {done : Event → Prop}
  {d : DriverAnswers}

/-- What a release leaves: the blocks of `l` may be gone, everything else is the same. -/
structure Releases (l : List BlockId) (s s' : Impl) : Prop where
  wellFormed : s'.WellFormed .none
  unaffected : ∀ c, c ∉ l → Unaffected .none .none s s' c
  heap : ∀ c, s'.heap c = s.heap c ∨ (s'.heap c = none ∧ ∃ C, s.heap c = some C ∧ C.Idle)
  events : SameEvents s s'
  segments : ∀ base raw, s'.driverSegments.lookup base = some raw →
    s.driverSegments.lookup base = some raw

namespace Releases

theorem refl (h : s.WellFormed .none) : Releases [] s s :=
  ⟨h, fun _ _ ↦ ⟨rfl, Nat.le_refl _, fun _ ↦ .rfl, fun _ ↦ .rfl, rfl, rfl, by simp, by simp⟩,
    fun _ ↦ .inl rfl, ⟨rfl, rfl, rfl, rfl⟩, fun _ _ h ↦ h⟩

theorem progress {l : List BlockId} (h : s.WellFormed .none) (hr : Releases l s t) :
    Progress done s t := by
  refine ⟨hr.wellFormed, .of_keepsBusy h (fun c C hC hi ↦ ?_) hr.events.queues hr.events.recorded
    hr.events.submitted, hr.segments,
    hr.events.allocations⟩
  rcases hr.heap c with he | ⟨_, C', hC', hi'⟩
  · rw [he, hC, Option.map_some]
  · rw [hC] at hC'
    cases hC'
    exact absurd hi' hi

theorem trans {l l' : List BlockId} (h : Releases l s t) (k : Releases l' t r) :
    Releases (l ++ l') s r := by
  refine ⟨k.wellFormed, fun c hc ↦ ?_, fun c ↦ ?_, h.events.trans k.events,
    fun b x hx ↦ h.segments b x (k.segments b x hx)⟩
  · rw [List.mem_append, not_or] at hc
    exact (h.unaffected c hc.1).trans (k.unaffected c hc.2)
  · rcases k.heap c with he | ⟨hn, C, hC, hi⟩
    · rw [he]
      exact h.heap c
    · refine .inr ⟨hn, ?_⟩
      rcases h.heap c with he | ⟨_, hx⟩
      · exact ⟨C, he ▸ hC, hi⟩
      · exact hx

/-- A block that is gone stays gone. -/
theorem gone {l : List BlockId} (h : Releases l s t) (hb : s.heap b = none) : t.heap b = none := by
  rcases h.heap b with he | ⟨hn, _⟩
  · rw [he, hb]
  · exact hn

end Releases

/-- Releasing a pooled block that is not split. -/
theorem releaseBlock_releases (h : s.WellFormed .none) (hb : s.heap b = some B)
    (hm : b ∈ s.pools k) (hsplit : B.isSplit = false) :
    Releases [b] s (s.releaseBlock k b) ∧ (s.releaseBlock k b).heap b = none := by
  simp only [CacheBlock.isSplit, Bool.or_eq_false_iff, Option.isSome_eq_false_iff,
    Option.isNone_iff_eq_none] at hsplit
  obtain ⟨hwf, hheap, hseg, hu⟩ := h.releaseBlock hb hm hsplit.1 hsplit.2
  obtain ⟨_, hidle, _⟩ := ((h.placed.at_block b).pool hb k).mp hm
  refine ⟨⟨hwf, fun c hc ↦ hu c (by simpa using hc), fun c ↦ ?_, ⟨rfl, rfl, rfl, rfl⟩, ?_⟩, ?_⟩
  · by_cases hc : c = b
    · subst hc
      exact .inr ⟨update_self .., B, hb, hidle⟩
    · exact .inl (update_of_ne hc ..)
  · intro base raw hr
    rw [hseg] at hr
    by_cases hbase : base = B.segmentBase
    · subst hbase
      rw [AList.lookup_erase] at hr
      cases hr
    · rwa [AList.lookup_erase_ne hbase] at hr
  · rw [hheap, update_self]

theorem releasePoolBlock_releases (h : s.WellFormed .none) (hb : s.heap b = some B)
    (hm : b ∈ s.pools k) :
    Releases [b] s (s.releasePoolBlock k b) ∧
      (B.isSplit = false → (s.releasePoolBlock k b).heap b = none) := by
  cases hs : B.isSplit with
  | true =>
    have he : s.releasePoolBlock k b = s := by rw [releasePoolBlock, deref_of hb, hs, if_pos rfl]
    rw [he]
    have hrefl := Releases.refl h
    exact ⟨⟨h, fun c _ ↦ hrefl.unaffected c (by simp), hrefl.heap, hrefl.events,
      hrefl.segments⟩, nofun⟩
  | false =>
    have he : s.releasePoolBlock k b = s.releaseBlock k b := by
      rw [releasePoolBlock, deref_of hb, hs, if_neg (by simp), Impl.releaseBlock, deref_of hb]
    rw [he]
    obtain ⟨hr, hn⟩ := releaseBlock_releases h hb hm hs
    exact ⟨hr, fun _ ↦ hn⟩

/-- Every block of the pool that spans its segment is released. -/
theorem foldl_releases {l : List BlockId} (h : s.WellFormed .none) (hnd : l.Nodup)
    (hl : ∀ b ∈ l, b ∈ s.pools k) :
    Releases l s (l.foldl (fun s b ↦ s.releasePoolBlock k b) s) ∧
      ∀ b ∈ l, ∀ B, s.heap b = some B → B.isSplit = false →
        (l.foldl (fun s b ↦ s.releasePoolBlock k b) s).heap b = none := by
  induction l generalizing s with
  | nil => exact ⟨.refl h, by simp⟩
  | cons b l ih =>
    obtain ⟨hbl, hnd'⟩ := List.nodup_cons.mp hnd
    have hm := hl b (by simp)
    obtain ⟨B, hb, _⟩ := h.pool_live hm
    obtain ⟨hr, hgone⟩ := releasePoolBlock_releases h hb hm
    have hrest (c : BlockId) (hc : c ∈ l) : c ∈ (s.releasePoolBlock k b).pools k := by
      rw [(hr.unaffected c (by rintro hcb; exact hbl (List.mem_singleton.mp hcb ▸ hc))).pools]
      exact hl c (by simp [hc])
    obtain ⟨hr', hgone'⟩ := ih hr.wellFormed hnd' hrest
    refine ⟨hr.trans hr', fun c hc C hC hs ↦ ?_⟩
    rcases List.mem_cons.mp hc with rfl | hc
    · rw [hb] at hC
      cases hC
      exact hr'.gone (hgone hs)
    · rcases hr.heap c with he | ⟨hn, _⟩
      · exact hgone' c hc C (he.trans hC) hs
      · exact hr'.gone hn

theorem releasePoolBlocksLocked_releases (h : s.WellFormed .none) (k : PoolKind) :
    Releases (s.pools k) s (s.releasePoolBlocksLocked k) ∧
      ∀ b ∈ s.pools k, ∀ B, s.heap b = some B → B.isSplit = false →
        (s.releasePoolBlocksLocked k).heap b = none :=
  foldl_releases h (h.placed.pool_nodup k) (fun _ hb ↦ hb)

/-- Without a live allocation and without a waiting block nothing is split. -/
theorem WellFormed.not_split (h : s.WellFormed .none) (hidle : ∀ b B, s.heap b = some B → B.Idle)
    (hb : s.heap b = some B) : B.isSplit = false := by
  have hfree {c : BlockId} {C : CacheBlock} (hc : s.heap c = some C) : s.Mergeable .none c :=
    ⟨C, hc, hidle c C hc, by simp⟩
  have hnext {c : BlockId} {C : CacheBlock} (hc : s.heap c = some C) : C.next = none := by
    cases hn : C.next with
    | none => rfl
    | some n =>
      obtain ⟨E, hE, _⟩ := h.layout.next_link c _ n (extents_of hc) hn
      obtain ⟨N, hN, _⟩ := exists_of_extents hE
      exact absurd ⟨hfree hc, hfree hN⟩ (h.coalesced c C n hc hn)
  have hprev : B.prev = none := by
    cases hp : B.prev with
    | none => rfl
    | some p =>
      obtain ⟨E, hE, hn⟩ := h.layout.prev_link b _ p (extents_of hb) hp
      obtain ⟨P, hP, rfl⟩ := exists_of_extents hE
      have := hnext hP
      simp only [CacheBlock.extent] at hn
      rw [this] at hn
      cases hn
  simp [CacheBlock.isSplit, hprev, hnext hb]

/-- With no live allocation and no waiting block, releasing both pools leaves no block. -/
theorem releasePools_empty (h : s.WellFormed .none) (hidle : ∀ b B, s.heap b = some B → B.Idle)
    (b : BlockId) :
    ((s.releasePoolBlocksLocked .small).releasePoolBlocksLocked .large).heap b = none := by
  obtain ⟨hr, hgone⟩ := releasePoolBlocksLocked_releases h .small
  obtain ⟨hr', hgone'⟩ := releasePoolBlocksLocked_releases hr.wellFormed .large
  cases hb : s.heap b with
  | none => exact hr'.gone (hr.gone hb)
  | some B =>
    have hs := h.not_split hidle hb
    have hm : b ∈ s.pools B.pool :=
      ((h.placed.at_block b).pool hb _).mpr ⟨rfl, hidle b B hb, by simp⟩
    cases hk : B.pool with
    | small =>
      rw [hk] at hm
      exact hr'.gone (hgone b hm B hb hs)
    | large =>
      have hsmall : b ∉ s.pools .small := by
        rw [(h.placed.at_block b).pool hb, hk]
        simp
      rcases hr.heap b with he | ⟨hn, _⟩
      · rw [hk] at hm
        exact hgone' b (((hr.unaffected b hsmall).pools _).mpr hm) B (he.trans hb) hs
      · exact hr'.gone hn

/-- The events an operation has seen to be complete. -/
def Completes (d : DriverAnswers) (e : Event) : Prop :=
  d.query e = .success ∨ d.synchronize e = .success

/-- A flush keeps the invariant; a completed flush leaves no entry, and without a live
allocation no block. -/
theorem releaseCachedBlocksLocked_progress {result : Except Exn Unit} (h : s.WellFormed .none)
    (hr : s.releaseCachedBlocksLocked d = (result, r))
    (hf : ∀ x, result = .error x → SynchronizeFailure x → FrontFails d s.cudaEvents) :
    Progress (Completes d) s r ∧ r.recorded = s.recorded ∧ (result = .ok () → r.cudaEvents = [] ∧
        ((∀ p, s.allocatedBlocks.lookup p = none) → ∀ b, r.heap b = none)) := by
  unfold releaseCachedBlocksLocked at hr
  rcases hs : s.synchronizeAndFreeEventsLocked d with ⟨_ | _, t⟩
  · rw [hs] at hr
    cases hr
    obtain ⟨hp, hrec, _⟩ := synchronizeAndFreeEventsLocked_progress h hs hf
    exact ⟨hp.mono (fun _ ↦ .inr), hrec, nofun⟩
  · rw [hs] at hr
    cases hr
    obtain ⟨hp, hrec, hqs⟩ := synchronizeAndFreeEventsLocked_progress h hs
      nofun
    obtain ⟨hr₁, _⟩ := releasePoolBlocksLocked_releases hp.wellFormed .small
    obtain ⟨hr₂, _⟩ := releasePoolBlocksLocked_releases hr₁.wellFormed .large
    have hrel := hr₁.trans hr₂
    refine ⟨(hp.mono (fun _ ↦ .inr)).trans (hrel.progress hp.wellFormed),
      hrel.events.recorded.trans hrec, fun _ ↦ ⟨hrel.events.queues.trans (hqs rfl), fun hlive ↦ ?_⟩⟩
    apply releasePools_empty hp.wellFormed
    intro b B hb
    have hat := hp.wellFormed.placed.at_block b
    constructor
    · cases hal : B.allocated with
      | false => rfl
      | true =>
        have := (hat.live hb B.ptr).mpr ⟨hal, rfl⟩
        rw [hp.allocations, hlive] at this
        cases this
    · have := hat.count B hb
      rw [queuedBlocks, queueEntries, hqs rfl] at this
      simpa using this

/-! ### Trimming -/

/-- The block picked is one of the list and not split. -/
theorem largestReleasable_spec {l : List BlockId} {v : BlockId}
    (h : s.largestReleasable l = some v) : v ∈ l ∧ (s.deref v).isSplit = false := by
  have hfold : ∀ v, s.largestReleasable l = some v → v ∈ l ∧ (s.deref v).isSplit = false := by
    apply List.foldlRecOn l _
      (motive := fun victim ↦ ∀ v, victim = some v → v ∈ l ∧ (s.deref v).isSplit = false)
    · rintro _ ⟨⟩
    · intro victim ih b hb v hv
      split at hv
      · exact ih v hv
      · next hsplit =>
        have hself : b ∈ l ∧ (s.deref b).isSplit = false := ⟨hb, by simpa using hsplit⟩
        split at hv
        · cases hv
          exact hself
        · split at hv
          · cases hv
            exact hself
          · exact ih v hv
  exact hfold v h

theorem trimLoop_progress (n : Nat) (h : s.WellFormed .none) : Progress done s (trimLoop n s) ∧
    SameEvents s (trimLoop n s) := by
  induction n generalizing s with
  | zero => exact ⟨.refl h, ⟨rfl, rfl, rfl, rfl⟩⟩
  | succ n ih =>
    unfold trimLoop
    split
    · split
      · exact ⟨.refl h, ⟨rfl, rfl, rfl, rfl⟩⟩
      · next v hv =>
        obtain ⟨hm, hsplit⟩ := largestReleasable_spec hv
        obtain ⟨k, hm⟩ : ∃ k, v ∈ s.pools k := by
          rcases List.mem_append.mp hm with hm | hm
          · exact ⟨_, hm⟩
          · exact ⟨_, hm⟩
        obtain ⟨V, hV, hk, _⟩ := h.pool_live hm
        rw [deref_of hV] at hsplit ⊢
        obtain ⟨hr, _⟩ := releaseBlock_releases h hV hm hsplit
        have he : ((s.subBytesCached V.size).poolErase V.pool v).releaseSegmentLocked v =
            s.releaseBlock k v := by
          rw [Impl.releaseBlock, deref_of hV, hk]
        rw [he]
        obtain ⟨hp, hs⟩ := ih hr.wellFormed
        exact ⟨(hr.progress h).trans hp, hr.events.trans hs⟩
    · exact ⟨.refl h, ⟨rfl, rfl, rfl, rfl⟩⟩

theorem trimCacheLocked_progress (h : s.WellFormed .none) : Progress done s s.trimCacheLocked ∧
    SameEvents s s.trimCacheLocked := by
  unfold trimCacheLocked
  split
  · exact ⟨.refl h, ⟨rfl, rfl, rfl, rfl⟩⟩
  · exact trimLoop_progress _ h

end Impl
end Hisab.Memory
