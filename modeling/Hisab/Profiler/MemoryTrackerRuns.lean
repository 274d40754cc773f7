import Hisab.Profiler.MemoryTrackerSteps

/-!
# Accounting of the memory tracker

While no clearing disturbs the calls that count, the current usage is what the map holds less what
is only inserted and more what is only erased, and the peak is the largest current usage or a call
is on the way to make it so. When no call is in progress, the counters tell the active allocations.
-/

namespace Hisab.Profiler.MemoryTracker

open Base Function List Place Nat SizeT State List.Sublist

namespace State

variable {n i : Nat} {s s' : State} {place : Place} {action : Action} {a : Allocation}

/-! ### The current usage and the totals -/

/-- The entries that are counted make up the current usage with those that were erased, and the
totals differ by it but for the calls on the way to add to them. -/
structure Usage (n : Nat) (s : State) : Prop where
  entries : ∃ counted : List Allocation, s.active.Perm (counted ++ held Place.inserted n s.place) ∧
      s.current = (counted.map Allocation.size).sum + heldTotal Place.erased n s.place
  totals : s.current + s.totalDeallocated + heldTotal Place.subtracted n s.place ≡
    s.totalAllocated + heldTotal Place.added n s.place [MOD SizeT.modulus]
  fits : s.current < SizeT.modulus
  wrapped : s.wrapped = false

/-- The entries of the map: distinct, of pointers in use while tracking, and not of those on the
way to be inserted. -/
structure Listing (n : Nat) (s : State) : Prop where
  distinct : (s.active.map Allocation.address).Nodup
  listed : s.tracking = true → ∀ a ∈ s.active, s.live a.address = true
  unlisted : ∀ i < n, ∀ a, s.place i = .allocChecked a ∨
    s.place i = .allocCalled a ∧ s.tracking = true → a.address ∉ s.active.map Allocation.address

/-- The largest current usage is the peak or on the way to be. -/
structure Peaks (n : Nat) (s : State) : Prop where
  reached_le : ∀ i < n, ∀ v, (s.place i).reached = some v → v ≤ s.maxUsage
  attained : s.maxUsage ≤ s.peak ∨ ∃ i < n, (s.place i).reached = some s.maxUsage
  peak_le : s.peak ≤ s.maxUsage
  current_le : s.current ≤ s.maxUsage

theorem Usage.erased_le (h : Usage n s) (hi : i < n) : (s.place i).erased ≤ s.current := by
  obtain ⟨counted, -, hcurrent⟩ := h.entries
  have hupdate : heldTotal erased n (update s.place i .idle) + _ = _ := heldTotal_update hi idle
  have hidle : idle.erased = 0 := rfl
  omega

/-- What a step of a call does to the counters and the entries is told by what it answers for
before and after. -/
theorem Usage.step (h : Usage n s) (hi : i < n) (hplace : s'.place = update s.place i place)
    (hentries : ∀ counted,
      s.active.Perm (counted ++ ((s.place i).inserted ++ heldRest Place.inserted n s.place i)) →
        ∃ counted' : List Allocation,
          s'.active.Perm (counted' ++ (place.inserted ++ heldRest Place.inserted n s.place i)) ∧
            s'.current + (counted.map Allocation.size).sum + (s.place i).erased =
              s.current + (counted'.map Allocation.size).sum + place.erased)
    (htotals : s'.current + s'.totalDeallocated + place.subtracted +
        (s.totalAllocated + (s.place i).added) ≡
      s.current + s.totalDeallocated + (s.place i).subtracted +
        (s'.totalAllocated + place.added) [MOD SizeT.modulus])
    (hfits : s'.current < SizeT.modulus) (hwrapped : s'.wrapped = false) : Usage n s' := by
  have he : heldTotal erased n (update s.place i place) + _ = _ := heldTotal_update hi place
  have ha : heldTotal added n (update s.place i place) + _ = _ := heldTotal_update hi place
  have hs : heldTotal subtracted n (update s.place i place) + _ = _ := heldTotal_update hi place
  rw [← hplace] at he ha hs
  refine ⟨?_, ?_, hfits, hwrapped⟩
  · obtain ⟨counted, hperm, hsum⟩ := h.entries
    have hbefore : (held inserted n s.place).Perm _ := held_perm hi
    have hafter : (held inserted n (update s.place i place)).Perm _ := held_update_perm hi place
    rw [← hplace] at hafter
    obtain ⟨counted', hperm', hsum'⟩ := hentries counted (hperm.trans (hbefore.append_left counted))
    refine ⟨counted', hperm'.trans (hafter.symm.append_left counted'), ?_⟩
    omega
  · have hsum := htotals.add h.totals
    apply Nat.ModEq.add_right_cancel' (s.current + s.totalDeallocated +
      (s.place i).subtracted + (s.totalAllocated + (s.place i).added))
    convert hsum using 1
    · omega
    · omega

/-- A step that leaves the counters, the entries and what the call answers for. -/
theorem Usage.same (h : Usage n s) (hi : i < n) (hplace : s'.place = update s.place i place)
    (hinserted : place.inserted = (s.place i).inserted) (herased : place.erased = (s.place i).erased)
    (hadded : place.added = (s.place i).added)
    (hsubtracted : place.subtracted = (s.place i).subtracted) (hactive : s'.active = s.active)
    (hcurrent : s'.current = s.current) (htotal : s'.totalAllocated = s.totalAllocated)
    (hdeallocated : s'.totalDeallocated = s.totalDeallocated) (hwrapped : s'.wrapped = s.wrapped) :
    Usage n s' := by
  apply h.step hi hplace
  · intro counted hperm
    rw [hactive, hinserted]
    exact ⟨counted, hperm, by omega⟩
  · rw [hcurrent, hdeallocated, hsubtracted, htotal, hadded]
  · rw [hcurrent]
    exact h.fits
  · rw [hwrapped]
    exact h.wrapped

/-- The size of an allocation is added to the current usage, and its entry is counted. -/
theorem Usage.allocAdd (h : Usage n s) (hi : i < n) (hp : s.place i = .allocInserted a)
    (hfits : s.current + a.size < SizeT.modulus) :
    Usage n ((s.addCurrent a.size).goto i (.allocAdded a.size (SizeT.add s.current a.size))) := by
  have hcurrent : add s.current a.size = s.current + a.size := add_eq hfits
  apply h.step hi rfl
  · intro counted hperm
    rw [hp] at hperm ⊢
    refine ⟨a :: counted, hperm.trans perm_middle, ?_⟩
    simp only [goto, addCurrent, erased, map_cons, sum_cons]
    omega
  · rw [hp]
    simp only [goto, addCurrent, subtracted, added, hcurrent]
    rw [show s.current + a.size + s.totalDeallocated + 0 + (s.totalAllocated + 0) =
      s.current + s.totalDeallocated + 0 + (s.totalAllocated + a.size) by omega]
  · show add s.current a.size < modulus
    omega
  · exact h.wrapped

theorem Usage.allocTotal {size v : Nat} (h : Usage n s) (hi : i < n)
    (hp : s.place i = .allocAdded size v) :
    Usage n ({ s with totalAllocated := SizeT.add s.totalAllocated size }.goto i (.peakLoad v)) := by
  apply h.step hi rfl
  · intro counted hperm
    rw [hp] at hperm ⊢
    exact ⟨counted, hperm, rfl⟩
  · rw [hp]
    have hmod : add s.totalAllocated size ≡ s.totalAllocated + size [MOD modulus] := mod_modEq _ _
    exact hmod.symm.add_left _
  · exact h.fits
  · exact h.wrapped

/-- The bytes of an erased allocation are in the current usage. -/
theorem Usage.deallocSubtract {size : Nat} (h : Usage n s) (hi : i < n)
    (hp : s.place i = .deallocErased size) :
    Usage n ((s.subCurrent size).goto i (.deallocSubtracted size)) := by
  have hle : size ≤ s.current := by simpa [hp, erased] using h.erased_le hi
  have hcurrent : sub s.current size = s.current - size := sub_eq hle h.fits
  apply h.step hi rfl
  · intro counted hperm
    rw [hp] at hperm ⊢
    refine ⟨counted, hperm, ?_⟩
    simp only [goto, subCurrent, erased]
    omega
  · rw [hp]
    simp only [goto, subCurrent, subtracted, added, hcurrent]
    rw [show s.current - size + s.totalDeallocated + size = s.current + s.totalDeallocated + 0 by
      omega]
  · exact sub_lt _ _
  · simp [goto, subCurrent, h.wrapped, hle]

theorem Usage.deallocTotal {size : Nat} (h : Usage n s) (hi : i < n)
    (hp : s.place i = .deallocSubtracted size) :
    Usage n ({ s with totalDeallocated := SizeT.add s.totalDeallocated size }.goto i .idle) := by
  apply h.step hi rfl
  · intro counted hperm
    rw [hp] at hperm ⊢
    exact ⟨counted, hperm, rfl⟩
  · rw [hp]
    have hmod : add s.totalDeallocated size ≡ s.totalDeallocated + size [MOD modulus] :=
      mod_modEq _ _
    simp only [subtracted]
    rw [add_assoc s.current s.totalDeallocated size]
    exact (hmod.add_left _).add_right _
  · exact h.fits
  · exact h.wrapped

/-- A pointer on the way to be inserted is not in the map. -/
theorem insert_active (h : a.address ∉ s.active.map Allocation.address) :
    (s.insert a).active = a :: s.active := by
  rw [insert, filter_eq_self.mpr]
  intro b hb
  have hne : b.address ≠ a.address := fun heq ↦ h (heq ▸ mem_map_of_mem hb)
  simpa using hne

theorem Usage.allocInsert (h : Usage n s) (hi : i < n) (hp : s.place i = .allocChecked a)
    (ha : a.address ∉ s.active.map Allocation.address) :
    Usage n ((s.insert a).goto i (.allocInserted a)) := by
  apply h.step hi rfl
  · intro counted hperm
    rw [hp] at hperm ⊢
    refine ⟨counted, ?_, rfl⟩
    show (s.insert a).active.Perm _
    rw [insert_active ha]
    exact (hperm.cons a).trans perm_middle.symm
  · rw [hp]
    exact Nat.ModEq.refl _
  · exact h.fits
  · exact h.wrapped

theorem address_mem_of_inserted (h : a ∈ place.inserted) : a.address ∈ place.allocating := by
  cases place with
  | allocInserted b =>
    obtain rfl : a = b := by simpa [inserted] using h
    exact mem_cons_self
  | _ => cases h

/-- An entry that is found is counted unless a `track_allocation` of its pointer is on the way. -/
theorem Usage.erase {ptr : Nat} (h : Usage n s) (hcalls : Calls n s) (hi : i < n)
    (hdistinct : (s.active.map Allocation.address).Nodup) (hp : s.place i = .deallocChecked ptr)
    (hplace : s'.place = update s.place i place) (hactive : s'.active = (s.erase ptr).active)
    (hinserted : place.inserted = []) (hadded : place.added = 0) (hsubtracted : place.subtracted = 0)
    (herased : place.erased = ((findKey Allocation.address ptr s.active).map Allocation.size).getD 0)
    (hcurrent : s'.current = s.current) (htotal : s'.totalAllocated = s.totalAllocated)
    (hdeallocated : s'.totalDeallocated = s.totalDeallocated) (hwrapped : s'.wrapped = s.wrapped) :
    Usage n s' := by
  apply h.step hi hplace
  · intro counted hperm
    rw [hactive, hinserted, herased, hcurrent]
    rw [hp] at hperm ⊢
    cases hfind : findKey Allocation.address ptr s.active with
    | none =>
      refine ⟨counted, ?_, rfl⟩
      rw [State.erase, filter_ne_eq_self hfind]
      exact hperm
    | some a =>
      obtain ⟨hmem, haddress⟩ := key_of_findKey hfind
      have hptr : ptr ∈ s.deallocating n := mem_deallocating hi (by rw [hp]; exact mem_cons_self)
      have hrest : a ∉ heldRest inserted n s.place i := by
        intro ha
        obtain ⟨j, hj, ha⟩ := mem_flatMap.mp ha
        have hj : j < n := mem_range.mp (mem_of_mem_erase hj)
        apply hcalls.apart a.address _ (haddress ▸ hptr)
        exact mem_held.mpr ⟨j, hj, address_mem_of_inserted ha⟩
      have hcounted : a ∈ counted := by
        cases mem_append.mp (hperm.mem_iff.mp hmem) with
        | inl hcounted => exact hcounted
        | inr hother => exact absurd hother hrest
      have hsplit := perm_cons_erase hcounted
      refine ⟨counted.erase a, ?_, ?_⟩
      · apply List.Perm.cons_inv
        exact (perm_cons_filter_ne hdistinct hfind).symm.trans (hperm.trans (hsplit.append_right _))
      · have hsum := (hsplit.map Allocation.size).sum_eq
        rw [map_cons, sum_cons] at hsum
        simp only [erased, Option.map_some, Option.getD_some]
        omega
  · rw [hcurrent, htotal, hdeallocated, hadded, hsubtracted, hp]
    exact Nat.ModEq.refl _
  · rw [hcurrent]
    exact h.fits
  · rw [hwrapped]
    exact h.wrapped

/-! ### The entries -/

/-- A step that inserts nothing. -/
theorem Listing.step (h : Listing n s) (hplace : s'.place = update s.place i place)
    (hp : ∀ a, place = .allocChecked a ∨ place = .allocCalled a →
      s.place i = .allocCalled a ∧ s.tracking = true)
    (hactive : s'.active.Sublist s.active) (htracking : s'.tracking = true → s.tracking = true)
    (hlive : s'.tracking = true → ∀ a ∈ s'.active, s'.live a.address = s.live a.address) :
    Listing n s' := by
  have hmap := hactive.map Allocation.address
  constructor
  · exact h.distinct.sublist hmap
  · intro ht a ha
    rw [hlive ht a ha]
    exact h.listed (htracking ht) a (hactive.subset ha)
  · intro j hj a ha hmem
    apply h.unlisted j hj a _ (hmap.subset hmem)
    rw [hplace] at ha
    by_cases hji : j = i
    · subst hji
      rw [update_self] at ha
      exact .inr (hp a (ha.imp_right And.left))
    · rw [update_of_ne hji] at ha
      exact ha.imp_right fun ha ↦ ⟨ha.1, htracking ha.2⟩

theorem Listing.allocInsert (h : Listing n s) (hcalls : Calls n s) (hi : i < n)
    (hp : s.place i = .allocChecked a) : Listing n ((s.insert a).goto i (.allocInserted a)) := by
  have ha := h.unlisted i hi a (.inl hp)
  have hallocating : a.address ∈ (s.place i).allocating := by rw [hp]; exact mem_cons_self
  have hactive : ((s.insert a).goto i (.allocInserted a)).active = a :: s.active := insert_active ha
  constructor
  · rw [hactive]
    exact nodup_cons.mpr ⟨ha, h.distinct⟩
  · intro ht b hb
    rw [hactive] at hb
    cases mem_cons.mp hb with
    | inl hb =>
      subst hb
      exact hcalls.live b.address (mem_held.mpr ⟨i, hi, hallocating⟩)
    | inr hb => exact h.listed ht b hb
  · intro j hj b hb
    have hji : j ≠ i := by
      intro hji
      subst hji
      simp [goto] at hb
    have hb : s.place j = .allocChecked b ∨ s.place j = .allocCalled b ∧ s.tracking = true := by
      simpa [goto, update_of_ne hji, insert] using hb
    rw [hactive]
    intro hmem
    cases mem_cons.mp hmem with
    | inl heq =>
      apply hji
      apply eq_of_count_held_le_one (hcalls.unique a.address) hi hj hallocating
      rw [← heq]
      cases hb with
      | inl hb => rw [hb]; exact mem_cons_self
      | inr hb => rw [hb.1]; exact mem_cons_self
    | inr hmem => exact h.unlisted j hj b hb hmem

theorem Listing.trackAllocation {ptr size : Nat} {context : String} (h : Listing n s)
    (honce : s.live ptr = false) :
    Listing n ((s.setLive ptr true).goto i (.allocCalled ⟨ptr, size, context, i⟩)) := by
  constructor
  · exact h.distinct
  · intro ht a ha
    show update s.live ptr true a.address = true
    by_cases heq : a.address = ptr
    · rw [heq, update_self]
    · rw [update_of_ne heq]
      exact h.listed ht a ha
  · intro j hj a ha
    by_cases hji : j = i
    · subst hji
      have ha : ⟨ptr, size, context, j⟩ = a ∧ s.tracking = true := by simpa [goto, setLive] using ha
      obtain ⟨rfl, ht⟩ := ha
      intro hmem
      obtain ⟨b, hb, hbptr⟩ := mem_map.mp hmem
      have hlive := h.listed ht b hb
      rw [hbptr, honce] at hlive
      cases hlive
    · apply h.unlisted j hj a
      simpa [goto, setLive, update_of_ne hji] using ha

/-! ### The peak -/

/-- A step that reaches no new usage: what the call compares with the peak is compared or kept. -/
theorem Peaks.step (h : Peaks n s) (hi : i < n) (hplace : s'.place = update s.place i place)
    (hreached : place.reached = none ∨ place.reached = (s.place i).reached)
    (hdone : ∀ v, (s.place i).reached = some v → place.reached = none → v ≤ s'.peak)
    (hmax : s'.maxUsage = s.maxUsage) (hle : s.peak ≤ s'.peak) (hpeak : s'.peak ≤ s.maxUsage)
    (hcurrent : s'.current ≤ s.current) : Peaks n s' := by
  have hcases : ∀ j, (s'.place j).reached = none ∨ (s'.place j).reached = (s.place j).reached := by
    intro j
    rw [hplace]
    by_cases hji : j = i
    · subst hji
      rw [update_self]
      exact hreached
    · rw [update_of_ne hji]
      exact .inr rfl
  constructor
  · intro j hj v hv
    rw [hmax]
    cases hcases j with
    | inl hnone => rw [hnone] at hv; cases hv
    | inr hsame => exact h.reached_le j hj v (hsame ▸ hv)
  · rw [hmax]
    cases h.attained with
    | inl hattained => exact .inl (le_trans hattained hle)
    | inr hattained =>
      obtain ⟨j, hj, hv⟩ := hattained
      cases hcases j with
      | inl hnone =>
        left
        by_cases hji : j = i
        · subst hji
          apply hdone _ hv
          rwa [hplace, update_self] at hnone
        · rw [hplace, update_of_ne hji, hv] at hnone
          cases hnone
      | inr hsame => exact .inr ⟨j, hj, hsame.trans hv⟩
  · rw [hmax]
    exact hpeak
  · rw [hmax]
    exact le_trans hcurrent h.current_le

/-- A new current usage is to be compared with the peak. -/
theorem Peaks.allocAdd (h : Peaks n s) (hi : i < n) (hp : s.place i = .allocInserted a) :
    Peaks n ((s.addCurrent a.size).goto i (.allocAdded a.size (SizeT.add s.current a.size))) := by
  have hplace : ∀ j, j ≠ i → ((s.addCurrent a.size).goto i
      (.allocAdded a.size (add s.current a.size))).place j = s.place j :=
    fun j hji ↦ update_of_ne hji ..
  have hself : ((s.addCurrent a.size).goto i (.allocAdded a.size (add s.current a.size))).place i =
        .allocAdded a.size (add s.current a.size) := update_self ..
  constructor
  · intro j hj v hv
    by_cases hji : j = i
    · subst hji
      rw [hself] at hv
      obtain rfl : add s.current a.size = v := by simpa [reached] using hv
      exact le_max_right ..
    · rw [hplace j hji] at hv
      exact le_trans (h.reached_le j hj v hv) (le_max_left ..)
  · show max s.maxUsage (add s.current a.size) ≤ s.peak ∨ ∃ j < n, _ =
      some (max s.maxUsage (add s.current a.size))
    by_cases hle : s.maxUsage ≤ add s.current a.size
    · right
      refine ⟨i, hi, ?_⟩
      rw [hself, max_eq_right hle]
      rfl
    · rw [max_eq_left (by omega)]
      cases h.attained with
      | inl hattained => exact .inl hattained
      | inr hattained =>
        right
        obtain ⟨j, hj, hv⟩ := hattained
        refine ⟨j, hj, ?_⟩
        rw [hplace j]
        · exact hv
        · intro hji
          rw [hji, hp] at hv
          cases hv
  · exact le_trans h.peak_le (le_max_left ..)
  · exact le_max_right ..

/-! ### Runs -/

/-- No clearing is between its first store, or the exchange of `start_tracking`, and its end. -/
def Settled (n : Nat) (s : State) : Prop :=
  ∀ j < n, (s.place j).starting = false ∧ (s.place j).storing = false

/-- What holds of the counters while no clearing is on the way. -/
structure Balanced (n : Nat) (s : State) : Prop where
  usage : Usage n s
  listing : Listing n s
  peaks : Peaks n s

structure Invariant (n : Nat) (s : State) : Prop where
  calls : Calls n s
  windows : Windows n s
  balanced : s.Settled n → Balanced n s

/-- At the end of a clearing the counters are zero, the map is empty, and no call counts. -/
theorem balanced_of_zero (hquiet : ∀ j < n, (s.place j).counting = false)
    (hzero : s.Zeroed .activeAllocations) (hactive : s.active = []) : Balanced n s := by
  obtain ⟨⟨hcurrent, hmax, hwrapped⟩, hpeak, htotal, hdeallocated⟩ := hzero
  have hviews : ∀ j < n, (s.place j).inserted = [] ∧ (s.place j).erased = 0 ∧
      (s.place j).added = 0 ∧ (s.place j).subtracted = 0 ∧ (s.place j).reached = none := by
    intro j hj
    have hcounting := hquiet j hj
    cases hp : s.place j <;> rw [hp] at hcounting <;>
      simp_all [inserted, erased, added, subtracted, reached, counting]
  have hinserted : held inserted n s.place = [] := held_eq_nil fun j hj ↦ (hviews j hj).1
  have herased : heldTotal erased n s.place = 0 := heldTotal_eq_zero fun j hj ↦ (hviews j hj).2.1
  have hadded : heldTotal added n s.place = 0 := heldTotal_eq_zero fun j hj ↦ (hviews j hj).2.2.1
  have hsubtracted : heldTotal subtracted n s.place = 0 :=
    heldTotal_eq_zero fun j hj ↦ (hviews j hj).2.2.2.1
  constructor
  · constructor
    · refine ⟨[], ?_, ?_⟩
      · rw [hactive, hinserted]
        exact List.Perm.refl _
      · rw [hcurrent, herased]
        rfl
    · rw [hcurrent, hdeallocated, htotal, hadded, hsubtracted]
    · rw [hcurrent]
      decide
    · exact hwrapped
  · constructor
    · rw [hactive]
      exact nodup_nil
    · intro _ a ha
      rw [hactive] at ha
      cases ha
    · intro j hj a _
      rw [hactive]
      exact not_mem_nil
  · constructor
    · intro j hj v hv
      rw [(hviews j hj).2.2.2.2] at hv
      cases hv
    · exact .inl (by omega)
    · omega
    · omega

/-- What a call answers for to the counters is the same in both places. -/
structure SameViews (p q : Place) : Prop where
  inserted : q.inserted = p.inserted
  erased : q.erased = p.erased
  added : q.added = p.added
  subtracted : q.subtracted = p.subtracted

theorem sameViews_of_reached {v : Nat} (h : place.reached = some v) (ha : place.added = 0)
    {q : Place} (hq : SameViews .idle q) : SameViews place q := by
  obtain ⟨hinserted, herased, hadded, hsubtracted⟩ := hq
  constructor
  · rw [hinserted]
    cases place <;> first | rfl | cases h
  · rw [herased]
    cases place <;> first | rfl | cases h
  · rw [hadded, ha]
    rfl
  · rw [hsubtracted]
    cases place <;> first | rfl | cases h

/-- A step that leaves the counters, the map and what the call answers for. -/
theorem Balanced.same (h : Balanced n s) (hi : i < n)
    (hplace : s'.place = update s.place i place) (hcounters : SameCounters s s')
    (hactive : s'.active = s.active) (hviews : SameViews (s.place i) place)
    (hcalled : ∀ a, place = .allocChecked a ∨ place = .allocCalled a →
      s.place i = .allocCalled a ∧ s.tracking = true)
    (hreached : place.reached = none ∨ place.reached = (s.place i).reached)
    (hdone : ∀ v, (s.place i).reached = some v → place.reached = none → v ≤ s.peak)
    (htracking : s'.tracking = true → s.tracking = true)
    (hlive : s'.tracking = true → s'.live = s.live) : Balanced n s' := by
  constructor
  · exact h.usage.same hi hplace hviews.inserted hviews.erased hviews.added hviews.subtracted hactive
      hcounters.current hcounters.totalAllocated hcounters.totalDeallocated hcounters.wrapped
  · refine h.listing.step hplace hcalled (hactive ▸ refl _) htracking ?_
    intro ht a _
    rw [hlive ht]
  · refine h.peaks.step hi hplace hreached ?_ hcounters.maxUsage ?_ ?_ ?_
    · rw [hcounters.peak]
      exact hdone
    · rw [hcounters.peak]
    · rw [hcounters.peak]
      exact h.peaks.peak_le
    · rw [hcounters.current]

/-- A step of a call on its own. -/
theorem Balanced.goto (h : Balanced n s) (hi : i < n) (hviews : SameViews (s.place i) place)
    (hcalled : ∀ a, place = .allocChecked a ∨ place = .allocCalled a →
      s.place i = .allocCalled a ∧ s.tracking = true)
    (hreached : place.reached = none ∨ place.reached = (s.place i).reached)
    (hdone : ∀ v, (s.place i).reached = some v → place.reached = none → v ≤ s.peak) :
    Balanced n (s.goto i place) :=
  h.same hi rfl ⟨rfl, rfl, rfl, rfl, rfl, rfl⟩ rfl hviews hcalled hreached hdone id fun _ ↦ rfl

/-- An erased entry is of a pointer that is in use no more. -/
theorem Balanced.erase {ptr : Nat} (h : Balanced n s) (hcalls : Calls n s) (hi : i < n)
    (hp : s.place i = .deallocChecked ptr)
    (hplace : place = .idle ∨ ∃ size, place = .deallocErased size)
    (herased : place.erased =
      ((findKey Allocation.address ptr s.active).map Allocation.size).getD 0) :
    Balanced n (((s.erase ptr).setLive ptr false).goto i place) := by
  have hviews : place.inserted = [] ∧ place.added = 0 ∧ place.subtracted = 0 ∧
      place.reached = none ∧ ∀ a, place ≠ .allocChecked a ∧ place ≠ .allocCalled a := by
    cases hplace with
    | inl hplace => simp [hplace, inserted, added, subtracted, reached]
    | inr hplace =>
      obtain ⟨size, rfl⟩ := hplace
      simp [inserted, added, subtracted, reached]
  obtain ⟨hinserted, hadded, hsubtracted, hreached, hcalled⟩ := hviews
  constructor
  · exact h.usage.erase hcalls hi h.listing.distinct hp rfl rfl hinserted hadded hsubtracted herased
      rfl rfl rfl rfl
  · refine h.listing.step rfl ?_ filter_sublist id ?_
    · intro a ha
      cases ha with
      | inl ha => exact absurd ha (hcalled a).1
      | inr ha => exact absurd ha (hcalled a).2
    · intro _ a ha
      have hne : a.address ≠ ptr := by simpa using (mem_filter.mp ha).2
      exact update_of_ne hne ..
  · refine h.peaks.step hi rfl (.inl hreached) ?_ rfl (le_refl _) h.peaks.peak_le (le_refl _)
    intro v hv
    rw [hp] at hv
    cases hv

theorem balanced_advance {spurious : Bool} (h : Balanced n s) (hcalls : Calls n s) (hi : i < n)
    (hcond : s.Undisturbed n (i, .advance spurious)) (hstep : Advance s i s')
    (hclearing : ∀ starting next, s.place i ≠ .clearing starting next)
    (hstarted : (s'.place i).starting = false) : Balanced n s' := by
  cases hstep with
  | allocCheck hp ht =>
    refine h.goto hi ?_ ?_ (.inl rfl) ?_
    · rw [hp]
      exact ⟨rfl, rfl, rfl, rfl⟩
    · intro b hb
      obtain rfl : _ = b := by simpa using hb
      exact ⟨hp, ht⟩
    · rw [hp]
      simp [reached]
  | allocIgnore hp | startIgnore hp | deallocCheck hp =>
    refine h.goto hi ?_ (by simp) (.inl rfl) ?_
    · rw [hp]
      exact ⟨rfl, rfl, rfl, rfl⟩
    · rw [hp]
      simp [reached]
  | allocInsert hp =>
    constructor
    · exact h.usage.allocInsert hi hp (h.listing.unlisted i hi _ (.inl hp))
    · exact h.listing.allocInsert hcalls hi hp
    · refine h.peaks.step hi rfl (.inl rfl) ?_ rfl (le_refl _) h.peaks.peak_le (le_refl _)
      rw [hp]
      simp [reached]
  | allocAdd hp =>
    constructor
    · simp only [Undisturbed, hp] at hcond
      exact h.usage.allocAdd hi hp hcond
    · exact h.listing.step rfl (by simp) (refl _) id fun _ _ _ ↦ rfl
    · exact h.peaks.allocAdd hi hp
  | allocTotal hp =>
    constructor
    · exact h.usage.allocTotal hi hp
    · exact h.listing.step rfl (by simp) (refl _) id fun _ _ _ ↦ rfl
    · refine h.peaks.step hi rfl (.inr (by rw [hp]; rfl)) ?_ rfl (le_refl _) h.peaks.peak_le
        (le_refl _)
      simp [reached]
  | peakCompare hp ha =>
    exact h.goto hi (sameViews_of_reached hp ha ⟨rfl, rfl, rfl, rfl⟩) (by simp)
      (.inr (by rw [hp]; rfl)) (by simp [reached])
  | peakReached hp ha hv =>
    refine h.goto hi (sameViews_of_reached hp ha ⟨rfl, rfl, rfl, rfl⟩) (by simp) (.inl rfl) ?_
    intro w hw _
    rw [hp] at hw
    cases hw
    exact hv
  | @peakRaise v hv hp =>
    have hreached : (s.place i).reached = some v := by rw [hp]; rfl
    constructor
    · exact h.usage.same hi rfl (by rw [hp]; rfl) (by rw [hp]; rfl) (by rw [hp]; rfl)
        (by rw [hp]; rfl) rfl rfl rfl rfl rfl
    · exact h.listing.step rfl (by simp) (refl _) id fun _ _ _ ↦ rfl
    · refine h.peaks.step hi rfl (.inl rfl) ?_ rfl (le_of_lt hv)
        (h.peaks.reached_le i hi v hreached) (le_refl _)
      intro w hw _
      rw [hreached] at hw
      cases hw
      exact le_refl _
  | deallocIgnore hp ht =>
    refine h.same hi rfl ⟨rfl, rfl, rfl, rfl, rfl, rfl⟩ rfl ?_ (by simp) (.inl rfl) ?_ id ?_
    · rw [hp]
      exact ⟨rfl, rfl, rfl, rfl⟩
    · rw [hp]
      simp [reached]
    · intro ht'
      have ht' : s.tracking = true := ht'
      rw [ht] at ht'
      cases ht'
  | deallocErase hp ha =>
    apply h.erase hcalls hi hp (.inr ⟨_, rfl⟩)
    rw [ha]
    rfl
  | deallocSkip hp ha =>
    apply h.erase hcalls hi hp (.inl rfl)
    cases hfind : findKey Allocation.address _ s.active with
    | none => rfl
    | some a => exact (ha a hfind).symm
  | deallocSubtract hp =>
    constructor
    · exact h.usage.deallocSubtract hi hp
    · exact h.listing.step rfl (by simp) (refl _) id fun _ _ _ ↦ rfl
    · have hle := h.usage.erased_le hi
      rw [hp] at hle
      have hcurrent := sub_eq hle h.usage.fits
      refine h.peaks.step hi rfl (.inl rfl) ?_ rfl (le_refl _) h.peaks.peak_le ?_
      · rw [hp]
        simp [reached]
      · exact le_trans (le_of_eq hcurrent) (sub_le ..)
  | deallocTotal hp =>
    constructor
    · exact h.usage.deallocTotal hi hp
    · exact h.listing.step rfl (by simp) (refl _) id fun _ _ _ ↦ rfl
    · refine h.peaks.step hi rfl (.inl rfl) ?_ rfl (le_refl _) h.peaks.peak_le (le_refl _)
      rw [hp]
      simp [reached]
  | start => simp [goto, starting] at hstarted
  | clear hp => exact absurd hp (hclearing _ _)
  | stop hp =>
    refine h.same hi rfl ⟨rfl, rfl, rfl, rfl, rfl, rfl⟩ rfl ?_ (by simp) (.inl rfl) ?_ ?_ ?_
    · rw [hp]
      exact ⟨rfl, rfl, rfl, rfl⟩
    · rw [hp]
      simp [reached]
    · simp [goto]
    · simp [goto]

/-- A clearing ends with the map; before that it is not settled. -/
theorem balanced_clear {starting : Bool} {next : Clear} (hwindows : Windows n s) (hi : i < n)
    (hp : s.place i = .clearing starting next) (hafter : Windows n (s.clear i starting next))
    (hsettled : (s.clear i starting next).Settled n) :
    Balanced n (s.clear i starting next) := by
  cases next with
  | activeAllocations =>
    have hzero := hwindows.zeroed i hi starting .activeAllocations hp
    have hquiet := hwindows.quiet i hi (by rw [hp]; rfl)
    refine balanced_of_zero ?_ hzero rfl
    intro j hj
    show (update s.place i .idle j).counting = false
    by_cases hji : j = i
    · rw [hji, update_self]
      rfl
    · rw [update_of_ne hji]
      exact hquiet j hj
  | _ =>
    have hstoring := (hsettled i hi).2
    simp [clear, goto, storing] at hstoring

theorem settled_of_update {place : Place} (hplace : s'.place = update s.place i place)
    (h : s'.Settled n) (hp : (s.place i).starting = false ∧ (s.place i).storing = false) :
    s.Settled n := by
  intro j hj
  by_cases hji : j = i
  · subst hji
    exact hp
  · have hj' := h j hj
    rwa [hplace, update_of_ne hji] at hj'

theorem place_advance (h : Advance s i s') : ∃ place, s'.place = update s.place i place := by
  cases h with
  | clear =>
    obtain ⟨place, hplace, -⟩ := clear_place s i _ _
    exact ⟨place, hplace⟩
  | _ => exact ⟨_, rfl⟩

theorem Invariant.advance {spurious : Bool} (h : Invariant n s) (hi : i < n)
    (hcond : s.Undisturbed n (i, .advance spurious)) (hstep : Advance s i s') : Invariant n s' := by
  have hcalls := calls_advance h.calls hi hstep
  have hwindows := windows_advance h.windows hi hcond hstep
  refine ⟨hcalls, hwindows, fun hsettled ↦ ?_⟩
  by_cases hclearing : ∃ starting next, s.place i = .clearing starting next
  · obtain ⟨starting, next, hp⟩ := hclearing
    cases hstep with
    | clear hp' => exact balanced_clear h.windows hi hp' hwindows hsettled
    | _ => simp_all [reached]
  · have hclearing : ∀ starting next, s.place i ≠ .clearing starting next :=
      fun starting next hp ↦ hclearing ⟨starting, next, hp⟩
    obtain ⟨place, hplace⟩ := place_advance hstep
    have hbefore : s.Settled n := by
      apply settled_of_update hplace hsettled
      cases hp : s.place i with
      | clearing starting next => exact absurd hp (hclearing starting next)
      | _ => exact ⟨rfl, rfl⟩
    exact balanced_advance (h.balanced hbefore) h.calls hi hcond hstep hclearing (hsettled i hi).1

theorem Invariant.call (h : Invariant n s) (hi : i < n) (hidle : s.place i = .idle)
    (honce : s.TracksOnce (i, action)) (hcond : s.Undisturbed n (i, action))
    (hstep : s.call i action = some s') : Invariant n s' := by
  refine ⟨calls_call h.calls hi honce hcond hstep, windows_call h.windows hstep, fun hsettled ↦ ?_⟩
  have hbalanced : ∀ {place}, s'.place = update s.place i place → Balanced n s := by
    intro place hplace
    apply h.balanced
    apply settled_of_update hplace hsettled
    rw [hidle]
    exact ⟨rfl, rfl⟩
  have hquiet : ∀ {place : Place}, (∀ v, (s.place i).reached = some v → place.reached = none →
      v ≤ s.peak) := by
    intro place v hv
    rw [hidle] at hv
    cases hv
  cases action with
  | trackAllocation ptr size context =>
    rw [call] at hstep
    split at hstep
    · cases hstep
      exact h.balanced hsettled
    · cases hstep
      obtain ⟨husage, hlisting, hpeaks⟩ := hbalanced rfl
      constructor
      · exact husage.same hi rfl (by rw [hidle]; rfl) (by rw [hidle]; rfl) (by rw [hidle]; rfl)
          (by rw [hidle]; rfl) rfl rfl rfl rfl rfl
      · exact hlisting.trackAllocation honce
      · exact hpeaks.step hi rfl (.inl rfl) hquiet rfl (le_refl _) hpeaks.peak_le (le_refl _)
  | trackDeallocation ptr =>
    rw [call] at hstep
    split at hstep
    · cases hstep
      exact h.balanced hsettled
    · cases hstep
      exact (hbalanced rfl).goto hi (by rw [hidle]; exact ⟨rfl, rfl, rfl, rfl⟩) (by simp) (.inl rfl) hquiet
  | advance => cases hstep
  | _ =>
    cases hstep
    exact (hbalanced rfl).goto hi (by rw [hidle]; exact ⟨rfl, rfl, rfl, rfl⟩) (by simp) (.inl rfl) hquiet

theorem Invariant.next {l : Nat × Action} (h : Invariant n s) (honce : s.TracksOnce l)
    (hcond : s.Undisturbed n l) (hstep : s.next n l = some s') : Invariant n s' := by
  obtain ⟨i, action⟩ := l
  unfold State.next at hstep
  split at hstep
  · next heq =>
    cases heq
    split at hstep
    · next hi => exact h.advance hi hcond (advance_cases hstep)
    · cases hstep
  · next heq =>
    cases heq
    split at hstep
    · next hi => exact h.call hi.1 hi.2 honce hcond hstep
    · cases hstep

theorem invariant_init (n : Nat) : Invariant n {} := by
  have hallocating : (({} : State).allocating n) = [] := held_eq_nil fun _ _ ↦ rfl
  refine ⟨⟨?_, ?_, ?_⟩, .of_not_storing fun _ _ ↦ rfl, fun _ ↦ ?_⟩
  · intro ptr
    rw [hallocating]
    exact zero_le _
  · intro ptr hptr
    rw [hallocating] at hptr
    cases hptr
  · intro ptr hptr
    rw [hallocating] at hptr
    cases hptr
  · exact balanced_of_zero (fun _ _ ↦ rfl) ⟨⟨rfl, rfl, rfl⟩, rfl, rfl, rfl⟩ rfl

/-- With no call in progress, what the counters tell is what the map holds. -/
theorem Balanced.accounted (h : Balanced n s) (hidle : ∀ i < n, s.place i = .idle) :
    s.Accounted := by
  obtain ⟨counted, hperm, hcurrent⟩ := h.usage.entries
  have hinserted : held inserted n s.place = [] := held_eq_nil fun j hj ↦ by rw [hidle j hj]; rfl
  have herased : heldTotal erased n s.place = 0 :=
    heldTotal_eq_zero fun j hj ↦ by rw [hidle j hj]; rfl
  have hadded : heldTotal added n s.place = 0 :=
    heldTotal_eq_zero fun j hj ↦ by rw [hidle j hj]; rfl
  have hsubtracted : heldTotal subtracted n s.place = 0 :=
    heldTotal_eq_zero fun j hj ↦ by rw [hidle j hj]; rfl
  have hmax : s.maxUsage ≤ s.peak := by
    cases h.peaks.attained with
    | inl hle => exact hle
    | inr hreached =>
      obtain ⟨j, hj, hv⟩ := hreached
      rw [hidle j hj] at hv
      cases hv
  have hpeak : s.peak = s.maxUsage := le_antisymm h.peaks.peak_le hmax
  constructor
  · rw [hinserted, append_nil] at hperm
    rw [hcurrent, herased, (hperm.map Allocation.size).sum_eq, add_zero]
  · have htotals := h.usage.totals
    rw [hadded, hsubtracted] at htotals
    exact sub_eq_of_modEq htotals.symm h.usage.fits
  · rw [hpeak]
    exact h.peaks.current_le
  · exact hpeak
  · exact h.usage.wrapped

end State

/-- The runs in which each pointer is tracked at most once between its deallocations. -/
def trackingOnce (n : Nat) : TransitionSystem State (Nat × Action) :=
  (memoryTracker n).restrict State.TracksOnce

/-- While no step is disturbed, the counters tell the active allocations whenever no call is in
progress. -/
theorem accounting_exact {n : Nat} {s : State}
    (h : ((trackingOnce n).restrict (State.Undisturbed n)).Reachable s)
    (hidle : ∀ i < n, s.place i = .idle) : s.Accounted := by
  have hinv : State.Invariant n s := by
    refine h.invariant ?_ ?_
    · intro s hs
      subst hs
      exact invariant_init n
    · intro s l s' hs hstep
      exact hs.next hstep.1.2 hstep.2 hstep.1.1
  apply (hinv.balanced ?_).accounted hidle
  intro j hj
  rw [hidle j hj]
  exact ⟨rfl, rfl⟩

/-- A step that keeps to the rules on pointers, and to those on clearings if they are asked for. -/
def nextChecked (n : Nat) (undisturbed : Bool) (s : State) (l : Nat × Action) : Option State :=
  if s.TracksOnce l ∧ (undisturbed = true → s.Undisturbed n l) then s.next n l else none

theorem nextChecked_step {n : Nat} {s s' : State} {l : Nat × Action}
    (h : nextChecked n true s l = some s') :
    ((trackingOnce n).restrict (State.Undisturbed n)).step s l s' := by
  unfold nextChecked at h
  split at h
  · next hcond => exact ⟨⟨h, hcond.1⟩, hcond.2 rfl⟩
  · cases h

theorem nextChecked_step_once {n : Nat} {s s' : State} {l : Nat × Action}
    (h : nextChecked n false s l = some s') : (trackingOnce n).step s l s' := by
  unfold nextChecked at h
  split at h
  · next hcond => exact ⟨h, hcond.1⟩
  · cases h

/-- The first thread starts to track and both track an allocation, the second one while the first
is on the way to the peak; then the second thread gives back the first allocation. -/
def overlappingAllocations : List (Nat × Action) :=
  (0, .startTracking) :: List.replicate 6 (0, .advance false) ++
    (0, .trackAllocation 16 8 "") :: List.replicate 4 (0, .advance false) ++
      (1, .trackAllocation 32 4 "") :: List.replicate 6 (1, .advance false) ++
        [(0, .advance false), (1, .trackDeallocation 16)] ++ List.replicate 4 (1, .advance false)

theorem accounting_exact_overlapping :
    ∃ s : State, s.Accounted ∧ s.current = 4 ∧ s.peak = 12 ∧ s.totalAllocated = 12 := by
  have h : ((trackingOnce 2).restrict (State.Undisturbed 2)).Reachable
      ((overlappingAllocations.foldlM (nextChecked 2 true) {}).getD {}) :=
    ⟨{}, overlappingAllocations, rfl, .of_foldlM (fun _ _ _ ↦ nextChecked_step) rfl⟩
  exact ⟨_, accounting_exact h (by decide), rfl, rfl, rfl⟩

/-- The second thread erases the entry of an allocation, the first one resets, and the second one
takes the size off the current usage. -/
def resetBetween : List (Nat × Action) :=
  (0, .startTracking) :: List.replicate 6 (0, .advance false) ++
    (0, .trackAllocation 16 8 "") :: List.replicate 6 (0, .advance false) ++
      (1, .trackDeallocation 16) :: List.replicate 2 (1, .advance false) ++
        (0, .reset) :: List.replicate 5 (0, .advance false) ++ List.replicate 2 (1, .advance false)

/-- The current usage wraps below zero though no allocation is active. -/
theorem reset_between_erase_and_subtract :
    ∃ s, (trackingOnce 2).Reachable s ∧ (∀ i < 2, s.place i = .idle) ∧ s.active = [] ∧
      s.current = SizeT.modulus - 8 ∧ s.wrapped = true ∧ ¬ s.Accounted := by
  have h : (trackingOnce 2).Reachable ((resetBetween.foldlM (nextChecked 2 false) {}).getD {}) :=
    ⟨{}, resetBetween, rfl, .of_foldlM (fun _ _ _ ↦ nextChecked_step_once) rfl⟩
  refine ⟨_, h, by decide, rfl, rfl, rfl, fun haccounted ↦ ?_⟩
  cases haccounted.wrapped

end Hisab.Profiler.MemoryTracker
