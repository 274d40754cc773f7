import Hisab.Memory.FreeMemoryCallbacks

/-!
# The cache cap

`trim_cache_locked` gives whole segments back, the largest first, until the cached bytes are within
the cap or only split blocks are left in the pools. Every call of `allocate`,
`deallocate` and `set_max_cached_bytes` that returns ends with it, except `deallocate` of a null
pointer.
-/

namespace Hisab.Memory
open Hisab.Base ExtentMap CachingConfig Function List

/-- A step with which a call of `allocate`, of `deallocate` with a pointer or of
`set_max_cached_bytes` can end. -/
def Operation.Trims : Operation → Prop
  | .allocate .. => True
  | .resume .. => True
  | .deallocate ptr _ _ => ptr ≠ 0
  | .setMaxCachedBytes _ => True
  | _ => False

namespace Impl

variable {s t r : Impl} {b : BlockId} {B : CacheBlock} {k : PoolKind}

/-- The block shares its segment with another one. -/
def SharesSegment (s : Impl) (b : BlockId) : Prop :=
  ∃ B c C, s.heap b = some B ∧ s.heap c = some C ∧ c ≠ b ∧ C.segmentBase = B.segmentBase

/-- Within the cap, or nothing left in the pools can be released. -/
def Capped (s : Impl) : Prop :=
  s.bytesCached ≤ s.maxCachedBytes ∨
    ∀ k, ∀ b ∈ s.pools k, (s.deref b).isSplit = true ∧ s.SharesSegment b

/-- A pooled block that spans a segment, none of the blocks that do being larger. -/
structure Victim (s : Impl) (k : PoolKind) (v : BlockId) (V : CacheBlock) : Prop where
  heap : s.heap v = some V
  pooled : v ∈ s.pools k
  whole : V.isSplit = false ∧
    ∃ raw, s.driverSegments.lookup V.ptr = some raw ∧ raw.ptr = V.ptr ∧ raw.size = V.size
  largest : ∀ j, ∀ b ∈ s.pools j, (s.deref b).isSplit = false → (s.deref b).size ≤ V.size

/-- `trim_cache_locked` releases these blocks one after another, each while the cached bytes are
over the cap, and then stops. -/
inductive Trims : Impl → List CacheBlock → Impl → Prop
  | stop {s : Impl} : s.Capped → Trims s [] s
  | release {s r : Impl} {k : PoolKind} {v : BlockId} {V : CacheBlock}
      {victims : List CacheBlock} : s.maxCachedBytes < s.bytesCached → s.Victim k v V →
      Trims (s.releaseBlock k v) victims r → Trims s (V :: victims) r

/-! ### The block that is picked -/

/-- What the search for a victim has found in the blocks it has seen. -/
private def Best (s : Impl) (seen : List BlockId) : Option BlockId → Prop
  | none => ∀ b ∈ seen, (s.deref b).isSplit = true
  | some v => ∀ b ∈ seen, (s.deref b).isSplit = false → (s.deref b).size ≤ (s.deref v).size

/-- No other block that can be released is larger; if none is found all are split. -/
theorem largestReleasable_best (s : Impl) (l : List BlockId) : s.Best l (s.largestReleasable l) := by
  have hfold (l seen : List BlockId) (acc : Option BlockId) (hacc : s.Best seen acc) :
      s.Best (seen ++ l) (l.foldl (fun victim b ↦
        if (s.deref b).isSplit then victim
        else match victim with
          | none => some b
          | some v => if (s.deref v).size < (s.deref b).size then some b else victim) acc) := by
    induction l generalizing seen acc with
    | nil =>
      rw [append_nil]
      exact hacc
    | cons b l ih =>
      have happend : seen ++ b :: l = (seen ++ [b]) ++ l := by simp
      rw [happend, foldl_cons]
      apply ih
      by_cases hsplit : (s.deref b).isSplit = true
      · rw [if_pos hsplit]
        cases acc with
        | none =>
          intro c hc
          rcases mem_append.mp hc with hc | hc
          · exact hacc c hc
          · exact mem_singleton.mp hc ▸ hsplit
        | some v =>
          intro c hc hs
          rcases mem_append.mp hc with hc | hc
          · exact hacc c hc hs
          · rw [mem_singleton.mp hc, hsplit] at hs
            cases hs
      · rw [if_neg hsplit]
        cases acc with
        | none =>
          intro c hc hs
          rcases mem_append.mp hc with hc | hc
          · rw [hacc c hc] at hs
            cases hs
          · rw [mem_singleton.mp hc]
        | some v =>
          dsimp only
          split
          · next hlt =>
            intro c hc hs
            rcases mem_append.mp hc with hc | hc
            · exact Nat.le_trans (hacc c hc hs) (Nat.le_of_lt hlt)
            · rw [mem_singleton.mp hc]
          · next hle =>
            intro c hc hs
            rcases mem_append.mp hc with hc | hc
            · exact hacc c hc hs
            · rw [mem_singleton.mp hc]
              exact Nat.not_lt.mp hle
  have hnone : s.Best [] none := by
    intro b hb
    cases hb
  exact hfold l [] none hnone

theorem mem_pools_append : b ∈ s.pools .small ++ s.pools .large ↔ ∃ k, b ∈ s.pools k := by
  rw [mem_append]
  constructor
  · rintro (hb | hb)
    · exact ⟨_, hb⟩
    · exact ⟨_, hb⟩
  · rintro ⟨k, hb⟩
    cases k with
    | small => exact .inl hb
    | large => exact .inr hb

/-- The block that is picked is a victim. -/
theorem WellFormed.victim (h : s.WellFormed .none) {v : BlockId}
    (hv : s.largestReleasable (s.pools .small ++ s.pools .large) = some v) :
    ∃ k V, s.Victim k v V ∧ V.pool = k := by
  obtain ⟨hm, hsplit⟩ := largestReleasable_spec hv
  have hbest := s.largestReleasable_best (s.pools .small ++ s.pools .large)
  rw [hv] at hbest
  obtain ⟨k, hk⟩ := mem_pools_append.mp hm
  obtain ⟨V, hV, hpool, -⟩ := h.pool_live hk
  rw [deref_of hV] at hsplit
  have hlinks := hsplit
  simp only [CacheBlock.isSplit, Bool.or_eq_false_iff, Option.isSome_eq_false_iff,
    Option.isNone_iff_eq_none] at hlinks
  -- without neighbours the block starts and ends where its segment does
  have hbase : V.ptr = V.segmentBase := h.layout.first v _ (extents_of hV) hlinks.1
  obtain ⟨n, hn, hend⟩ := h.layout.last v _ (extents_of hV) hlinks.2
  obtain ⟨raw, hraw, rfl⟩ := Option.map_eq_some_iff.mp hn
  change s.driverSegments.lookup V.segmentBase = some raw at hraw
  change V.ptr + V.size = V.segmentBase + raw.size at hend
  rw [← hbase] at hraw
  refine ⟨k, V, ⟨hV, hk, ⟨hsplit, raw, hraw, (h.segment _ _ hraw).1, by omega⟩, ?_⟩, hpool⟩
  intro j b hb hs
  have hle := hbest b (mem_pools_append.mpr ⟨j, hb⟩) hs
  rw [deref_of hV] at hle
  exact hle

/-! ### The loop -/

/-- A release takes the block out of its pool. -/
theorem releaseBlock_pools (s : Impl) (k : PoolKind) (v : BlockId) : (s.releaseBlock k v).pools =
    update s.pools k (OrderedSet.erase s.blockLt v (s.pools k)) := rfl

namespace Trims

variable {victims : List CacheBlock}

/-- The sizes of the victims do not increase. -/
theorem pairwise (h : Trims s victims r) (hwf : s.WellFormed .none) {n : Nat}
    (hn : ∀ j, ∀ b ∈ s.pools j, (s.deref b).isSplit = false → (s.deref b).size ≤ n) :
    (∀ V ∈ victims, V.size ≤ n) ∧ victims.Pairwise (fun V W ↦ W.size ≤ V.size) := by
  induction h generalizing n with
  | stop _ => exact ⟨fun _ hx ↦ (by cases hx), .nil⟩
  | @release s r k v V victims hover hvictim _ ih =>
    obtain ⟨hr, -⟩ := releaseBlock_releases hwf hvictim.heap hvictim.pooled hvictim.whole.1
    have hV : V.size ≤ n := by
      have := hn k v hvictim.pooled (by rw [deref_of hvictim.heap]; exact hvictim.whole.1)
      rwa [deref_of hvictim.heap] at this
    have hrest (j : PoolKind) (b : BlockId) (hb : b ∈ (s.releaseBlock k v).pools j)
        (hs : ((s.releaseBlock k v).deref b).isSplit = false) :
        ((s.releaseBlock k v).deref b).size ≤ V.size := by
      obtain ⟨B, hB, -⟩ := hr.wellFormed.pool_live hb
      have hold : b ∈ s.pools j ∧ s.heap b = some B := by
        constructor
        · rw [releaseBlock_pools, update_apply] at hb
          split at hb
          · next hj =>
            subst hj
            exact ((hwf.mem_erase hvictim.pooled b).mp hb).1
          · exact hb
        · rcases hr.heap b with he | ⟨hnone, -⟩
          · rw [← he]
            exact hB
          · rw [hnone] at hB
            cases hB
      rw [deref_of hB] at hs ⊢
      have := hvictim.largest j b hold.1 (by rw [deref_of hold.2]; exact hs)
      rwa [deref_of hold.2] at this
    obtain ⟨hle, hpairwise⟩ := ih hr.wellFormed hrest
    refine ⟨fun W hW ↦ ?_, pairwise_cons.mpr ⟨hle, hpairwise⟩⟩
    rcases mem_cons.mp hW with rfl | hW
    · exact hV
    · exact Nat.le_trans (hle W hW) hV

end Trims

variable {d : DriverAnswers} {size : Nat} {stream : Stream} {reply : Reply}

end Impl

end Hisab.Memory
