import Hisab.Profiler.MemoryTracker

/-!
# The steps of the memory tracker

What one step of a call can do, and what the steps keep whatever the counters are: at most one
`track_allocation` at a time is on the way to count its pointer, and the counters that a clearing
has stored stay zero up to its end.
-/

namespace Hisab.Profiler.MemoryTracker

open Base Function

namespace State

variable {n i : Nat} {s s' : State}

/-- The states that a step of thread `i` can lead to. -/
inductive Advance (s : State) (i : Nat) : State → Prop
  | allocCheck {a : Allocation} (h : s.place i = .allocCalled a) (ht : s.tracking = true) :
      Advance s i (s.goto i (.allocChecked a))
  | allocIgnore {a : Allocation} (h : s.place i = .allocCalled a) (ht : s.tracking = false) :
      Advance s i (s.goto i .idle)
  | allocInsert {a : Allocation} (h : s.place i = .allocChecked a) :
      Advance s i ((s.insert a).goto i (.allocInserted a))
  | allocAdd {a : Allocation} (h : s.place i = .allocInserted a) :
      Advance s i ((s.addCurrent a.size).goto i (.allocAdded a.size (SizeT.add s.current a.size)))
  | allocTotal {size v : Nat} (h : s.place i = .allocAdded size v) :
      Advance s i ({ s with totalAllocated := SizeT.add s.totalAllocated size }.goto i (.peakLoad v))
  | peakCompare {v : Nat} (h : (s.place i).reached = some v) (ha : (s.place i).added = 0)
      (hv : s.peak < v) : Advance s i (s.goto i (.peakExchange v s.peak hv))
  | peakReached {v : Nat} (h : (s.place i).reached = some v) (ha : (s.place i).added = 0)
      (hv : v ≤ s.peak) : Advance s i (s.goto i .idle)
  | peakRaise {v : Nat} {hv : s.peak < v} (h : s.place i = .peakExchange v s.peak hv) :
      Advance s i ({ s with peak := v }.goto i .idle)
  | deallocCheck {ptr : Nat} (h : s.place i = .deallocCalled ptr) (ht : s.tracking = true) :
      Advance s i (s.goto i (.deallocChecked ptr))
  | deallocIgnore {ptr : Nat} (h : s.place i = .deallocCalled ptr) (ht : s.tracking = false) :
      Advance s i ((s.setLive ptr false).goto i .idle)
  | deallocErase {ptr : Nat} {a : Allocation} (h : s.place i = .deallocChecked ptr)
      (ha : findKey Allocation.address ptr s.active = some a) (hpos : 0 < a.size) :
      Advance s i (((s.erase ptr).setLive ptr false).goto i (.deallocErased a.size))
  | deallocSkip {ptr : Nat} (h : s.place i = .deallocChecked ptr)
      (ha : ∀ a, findKey Allocation.address ptr s.active = some a → a.size = 0) :
      Advance s i (((s.erase ptr).setLive ptr false).goto i .idle)
  | deallocSubtract {size : Nat} (h : s.place i = .deallocErased size) :
      Advance s i ((s.subCurrent size).goto i (.deallocSubtracted size))
  | deallocTotal {size : Nat} (h : s.place i = .deallocSubtracted size) :
      Advance s i ({ s with totalDeallocated := SizeT.add s.totalDeallocated size }.goto i .idle)
  | startIgnore (h : s.place i = .startCalled) : Advance s i (s.goto i .idle)
  | start (h : s.place i = .startCalled) :
      Advance s i ({ s with tracking := true }.goto i (.clearing true .currentUsage))
  | clear {starting : Bool} {next : Clear} (h : s.place i = .clearing starting next) :
      Advance s i (s.clear i starting next)
  | stop (h : s.place i = .stopCalled) : Advance s i ({ s with tracking := false }.goto i .idle)

theorem advance_cases {spurious : Bool} (h : s.advance i spurious = some s') : Advance s i s' := by
  unfold advance at h
  cases hplace : s.place i with
  | idle => simp [hplace] at h
  | allocCalled a =>
    simp only [hplace] at h
    split at h
    · next ht =>
      cases h
      exact .allocCheck hplace ht
    · next ht =>
      cases h
      exact .allocIgnore hplace (Bool.eq_false_iff.mpr ht)
  | allocChecked a =>
    simp only [hplace] at h
    cases h
    exact .allocInsert hplace
  | allocInserted a =>
    simp only [hplace] at h
    cases h
    exact .allocAdd hplace
  | allocAdded size v =>
    simp only [hplace] at h
    cases h
    exact .allocTotal hplace
  | peakLoad v =>
    have hreached : (s.place i).reached = some v := by rw [hplace]; rfl
    have hadded : (s.place i).added = 0 := by rw [hplace]; rfl
    simp only [hplace] at h
    split at h
    · next hv =>
      cases h
      exact .peakCompare hreached hadded hv
    · next hv =>
      cases h
      exact .peakReached hreached hadded (by omega)
  | peakExchange v expected hlt =>
    have hreached : (s.place i).reached = some v := by rw [hplace]; rfl
    have hadded : (s.place i).added = 0 := by rw [hplace]; rfl
    simp only [hplace] at h
    split at h
    · next hpeak =>
      cases h
      have hexpected := hpeak.1
      subst hexpected
      exact .peakRaise hplace
    · split at h
      · next hv =>
        cases h
        exact .peakCompare hreached hadded hv
      · next hv =>
        cases h
        exact .peakReached hreached hadded (by omega)
  | deallocCalled ptr =>
    simp only [hplace] at h
    split at h
    · next ht =>
      cases h
      exact .deallocCheck hplace ht
    · next ht =>
      cases h
      exact .deallocIgnore hplace (Bool.eq_false_iff.mpr ht)
  | deallocChecked ptr =>
    simp only [hplace] at h
    split at h
    · next a ha =>
      split at h
      · next hpos =>
        cases h
        exact .deallocErase hplace ha hpos
      · next hpos =>
        cases h
        apply Advance.deallocSkip hplace
        intro b hb
        rw [ha] at hb
        cases hb
        omega
    · next ha =>
      cases h
      apply Advance.deallocSkip hplace
      intro b hb
      rw [ha] at hb
      cases hb
  | deallocErased size =>
    simp only [hplace] at h
    cases h
    exact .deallocSubtract hplace
  | deallocSubtracted size =>
    simp only [hplace] at h
    cases h
    exact .deallocTotal hplace
  | startCalled =>
    simp only [hplace] at h
    split at h
    · cases h
      exact .startIgnore hplace
    · cases h
      exact .start hplace
  | clearing starting next =>
    simp only [hplace] at h
    cases h
    exact .clear hplace
  | stopCalled =>
    simp only [hplace] at h
    cases h
    exact .stop hplace

/-! ### Calls for one pointer -/

/-- A pointer is on the way of at most one `track_allocation`, of no `track_deallocation` besides,
and not given to `track_deallocation` since. -/
structure Calls (n : Nat) (s : State) : Prop where
  unique : ∀ ptr, (s.allocating n).count ptr ≤ 1
  apart : ∀ ptr ∈ s.allocating n, ptr ∉ s.deallocating n
  live : ∀ ptr ∈ s.allocating n, s.live ptr = true

variable {place : Place}

theorem mem_allocating_of_update (hi : i < n) (h : s'.place = update s.place i place)
    (hsub : ∀ ptr ∈ place.allocating, ptr ∈ (s.place i).allocating) :
    ∀ ptr ∈ s'.allocating n, ptr ∈ s.allocating n := by
  intro ptr hptr
  rw [allocating, h] at hptr
  cases mem_held_update hptr with
  | inl hmem => exact mem_held.mpr ⟨i, hi, hsub ptr hmem⟩
  | inr hmem => exact hmem

/-- A step that takes no pointer on. -/
theorem Calls.step (h : Calls n s) (hi : i < n) (hplace : s'.place = update s.place i place)
    (ha : place.allocating = (s.place i).allocating ∨ place.allocating = [])
    (hd : place.deallocating = (s.place i).deallocating ∨ place.deallocating = [])
    (hlive : ∀ ptr ∈ s.allocating n, s'.live ptr = true) : Calls n s' := by
  have hmem : ∀ ptr ∈ s'.allocating n, ptr ∈ s.allocating n := by
    apply mem_allocating_of_update hi hplace
    intro ptr hptr
    cases ha with
    | inl ha => exact ha ▸ hptr
    | inr ha => simp [ha] at hptr
  constructor
  · intro ptr
    have hcount : (held Place.allocating n (update s.place i place)).count ptr + _ = _ :=
      count_held_update hi place ptr
    have hbefore : (held Place.allocating n s.place).count ptr ≤ 1 := h.unique ptr
    rw [allocating, hplace]
    cases ha with
    | inl ha =>
      rw [ha] at hcount
      omega
    | inr ha =>
      rw [ha, List.count_nil] at hcount
      omega
  · intro ptr hptr hdealloc
    apply h.apart ptr (hmem ptr hptr)
    rw [deallocating, hplace] at hdealloc
    cases mem_held_update hdealloc with
    | inl hview =>
      cases hd with
      | inl hd => exact mem_held.mpr ⟨i, hi, hd ▸ hview⟩
      | inr hd => simp [hd] at hview
    | inr hrest => exact hrest
  · intro ptr hptr
    exact hlive ptr (hmem ptr hptr)

theorem mem_deallocating (hi : i < n) {ptr : Nat} (h : ptr ∈ (s.place i).deallocating) :
    ptr ∈ s.deallocating n := mem_held.mpr ⟨i, hi, h⟩

/-- The pointer of a `track_deallocation` is given back. -/
theorem Calls.live_setLive (h : Calls n s) (hi : i < n) {ptr : Nat}
    (hptr : ptr ∈ (s.place i).deallocating) :
    ∀ p ∈ s.allocating n, update s.live ptr false p = true := by
  intro p hp
  have hne : p ≠ ptr := by
    intro heq
    subst heq
    exact h.apart p hp (mem_deallocating hi hptr)
  rw [update_of_ne hne]
  exact h.live p hp

theorem clear_place (s : State) (i : Nat) (starting : Bool) (next : Clear) :
    ∃ place, (s.clear i starting next).place = update s.place i place ∧
      place.allocating = [] ∧ place.deallocating = [] ∧ place.counting = false := by
  cases next <;> exact ⟨_, rfl, rfl, rfl, rfl⟩

theorem clear_live (s : State) (i : Nat) (starting : Bool) (next : Clear) :
    (s.clear i starting next).live = s.live := by
  cases next <;> rfl

theorem calls_advance (h : Calls n s) (hi : i < n) (hstep : Advance s i s') : Calls n s' := by
  cases hstep with
  | allocCheck hp | allocInsert hp => exact h.step hi rfl (.inl (by rw [hp]; rfl)) (.inr rfl) h.live
  | deallocCheck hp => exact h.step hi rfl (.inr rfl) (.inl (by rw [hp]; rfl)) h.live
  | deallocIgnore hp | deallocErase hp | deallocSkip hp =>
    exact h.step hi rfl (.inr rfl) (.inr rfl) (h.live_setLive hi (by rw [hp]; simp [Place.deallocating]))
  | clear =>
    obtain ⟨place, hplace, ha, hd, -⟩ := clear_place s i _ _
    apply h.step hi hplace (.inr ha) (.inr hd)
    rw [clear_live]
    exact h.live
  | _ => exact h.step hi rfl (.inr rfl) (.inr rfl) h.live

theorem calls_call {action : Action} (h : Calls n s) (hi : i < n)
    (honce : s.TracksOnce (i, action)) (hcond : s.Undisturbed n (i, action))
    (hstep : s.call i action = some s') : Calls n s' := by
  cases action with
  | trackAllocation ptr size context =>
    rw [call] at hstep
    split at hstep
    · cases hstep
      exact h
    · cases hstep
      constructor
      · intro p
        have hcount : (held Place.allocating n (update s.place i
            (.allocCalled ⟨ptr, size, context, i⟩))).count p + _ = _ := count_held_update hi _ p
        have hbefore : (held Place.allocating n s.place).count p ≤ 1 := h.unique p
        have hview : (Place.allocCalled ⟨ptr, size, context, i⟩).allocating = [ptr] := rfl
        show (held Place.allocating n (update s.place i _)).count p ≤ 1
        rw [hview] at hcount
        by_cases hp : ptr = p
        · subst hp
          have hzero : (held Place.allocating n s.place).count ptr = 0 :=
            List.count_eq_zero.mpr hcond.1
          rw [List.count_singleton_self] at hcount
          omega
        · rw [List.count_singleton, if_neg (by simpa using hp)] at hcount
          omega
      · intro p hp hd
        have hdealloc : p ∈ s.deallocating n := by
          cases mem_held_update hd with
          | inl hview => cases hview
          | inr hrest => exact hrest
        cases mem_held_update hp with
        | inl hview =>
          obtain rfl : p = ptr := by simpa [Place.allocating] using hview
          exact hcond.2 hdealloc
        | inr hrest => exact h.apart p hrest hdealloc
      · intro p hp
        show update s.live ptr true p = true
        by_cases hne : p = ptr
        · subst hne
          exact update_self ..
        · rw [update_of_ne hne]
          cases mem_held_update hp with
          | inl hview => exact absurd (by simpa [Place.allocating] using hview) hne
          | inr hrest => exact h.live p hrest
  | trackDeallocation ptr =>
    rw [call] at hstep
    split at hstep
    · cases hstep
      exact h
    · cases hstep
      have hmem : ∀ p ∈ (s.goto i (.deallocCalled ptr)).allocating n, p ∈ s.allocating n := by
        apply mem_allocating_of_update hi rfl
        intro p hp
        cases hp
      constructor
      · intro p
        have hcount : (held Place.allocating n (update s.place i
            (.deallocCalled ptr))).count p + _ = _ := count_held_update hi _ p
        have hbefore : (held Place.allocating n s.place).count p ≤ 1 := h.unique p
        have hview : (Place.deallocCalled ptr).allocating = [] := rfl
        show (held Place.allocating n (update s.place i _)).count p ≤ 1
        rw [hview, List.count_nil] at hcount
        omega
      · intro p hp hd
        cases mem_held_update hd with
        | inl hview =>
          obtain rfl : p = ptr := by simpa [Place.deallocating] using hview
          exact hcond (hmem p hp)
        | inr hrest => exact h.apart p (hmem p hp) hrest
      · intro p hp
        exact h.live p (hmem p hp)
  | advance => cases hstep
  | _ =>
    cases hstep
    exact h.step hi rfl (.inr rfl) (.inr rfl) h.live

/-! ### Clearings -/

/-- What a clearing has stored when it comes to `next`. -/
def Zeroed (s : State) : Clear → Prop
  | .currentUsage => True
  | .peakUsage => s.current = 0 ∧ s.maxUsage = 0 ∧ s.wrapped = false
  | .totalAllocated => (s.current = 0 ∧ s.maxUsage = 0 ∧ s.wrapped = false) ∧ s.peak = 0
  | .totalDeallocated =>
    (s.current = 0 ∧ s.maxUsage = 0 ∧ s.wrapped = false) ∧ s.peak = 0 ∧ s.totalAllocated = 0
  | .activeAllocations => (s.current = 0 ∧ s.maxUsage = 0 ∧ s.wrapped = false) ∧ s.peak = 0 ∧
    s.totalAllocated = 0 ∧ s.totalDeallocated = 0

/-- While a clearing stores, no other call counts, and what it has stored stays zero. -/
structure Windows (n : Nat) (s : State) : Prop where
  quiet : ∀ i < n, (s.place i).storing = true → ∀ j < n, (s.place j).counting = false
  zeroed : ∀ i < n, ∀ starting next, s.place i = .clearing starting next → s.Zeroed next

theorem Windows.of_not_storing (h : ∀ j < n, (s.place j).storing = false) : Windows n s := by
  constructor
  · intro i hi hstoring
    rw [h i hi] at hstoring
    cases hstoring
  · intro i hi starting next hplace
    have hstoring := h i hi
    rw [hplace] at hstoring
    cases next with
    | currentUsage => trivial
    | _ => cases hstoring

theorem not_storing_update (hplace : s'.place = update s.place i place)
    (hp : place.storing = false) (h : ∀ j < n, (s.place j).storing = false) :
    ∀ j < n, (s'.place j).storing = false := by
  intro j hj
  rw [hplace]
  by_cases hji : j = i
  · subst hji
    rw [update_self]
    exact hp
  · rw [update_of_ne hji]
    exact h j hj

/-- A step of a call that counts, which no clearing meets. -/
theorem Windows.counts (h : Windows n s) (hi : i < n) (hcounting : (s.place i).counting = true)
    (hplace : s'.place = update s.place i place) (hp : place.storing = false) :
    Windows n s' := by
  apply Windows.of_not_storing
  apply not_storing_update hplace hp
  intro j hj
  cases hstoring : (s.place j).storing with
  | false => rfl
  | true =>
    rw [h.quiet j hj hstoring i hi] at hcounting
    cases hcounting

/-- The counters are as they were. -/
structure SameCounters (s s' : State) : Prop where
  current : s'.current = s.current
  peak : s'.peak = s.peak
  totalAllocated : s'.totalAllocated = s.totalAllocated
  totalDeallocated : s'.totalDeallocated = s.totalDeallocated
  maxUsage : s'.maxUsage = s.maxUsage
  wrapped : s'.wrapped = s.wrapped

theorem SameCounters.zeroed (h : SameCounters s s') {next : Clear} (hz : s.Zeroed next) :
    s'.Zeroed next := by
  cases next with
  | currentUsage => trivial
  | _ =>
    simpa [Zeroed, h.current, h.peak, h.totalAllocated, h.totalDeallocated, h.maxUsage,
      h.wrapped] using hz

/-- A step that leaves the counters and does not begin to count or to store. -/
theorem Windows.same (h : Windows n s) (hcounters : SameCounters s s')
    (hplace : s'.place = update s.place i place) (hc : place.counting = false)
    (hp : place.storing = false) : Windows n s' := by
  constructor
  · intro j hj hstoring k hk
    rw [hplace] at hstoring ⊢
    have hj' : (s.place j).storing = true := by
      by_cases hji : j = i
      · subst hji
        rw [update_self, hp] at hstoring
        cases hstoring
      · rwa [update_of_ne hji] at hstoring
    by_cases hki : k = i
    · subst hki
      rw [update_self]
      exact hc
    · rw [update_of_ne hki]
      exact h.quiet j hj hj' k hk
  · intro j hj starting next hclearing
    rw [hplace] at hclearing
    by_cases hji : j = i
    · subst hji
      rw [update_self] at hclearing
      subst hclearing
      cases next with
      | currentUsage => trivial
      | _ => cases hp
    · rw [update_of_ne hji] at hclearing
      exact hcounters.zeroed (h.zeroed j hj starting next hclearing)

/-- A store of zero keeps the zeros. -/
theorem Zeroed.clear {starting : Bool} {next next' : Clear} (h : s.Zeroed next') :
    (s.clear i starting next).Zeroed next' := by
  cases next' <;> cases next <;> simp_all [Zeroed, State.clear, goto]

/-- What is cleared after `next`. -/
theorem Zeroed.after {starting starting' : Bool} {next next' : Clear} (h : s.Zeroed next)
    (hplace : (s.clear i starting next).place i = .clearing starting' next') :
    (s.clear i starting next).Zeroed next' := by
  cases next <;> simp [State.clear, goto] at hplace
  all_goals
    obtain ⟨-, rfl⟩ := hplace
    simp_all [Zeroed, State.clear, goto]

theorem storing_of_ne {starting : Bool} {next : Clear} (h : next ≠ .currentUsage) :
    (Place.clearing starting next).storing = true := by
  cases next with
  | currentUsage => exact absurd rfl h
  | _ => rfl

theorem windows_clear {starting : Bool} {next : Clear} (h : Windows n s) (hi : i < n)
    (hplace : s.place i = .clearing starting next)
    (hcond : next = .currentUsage → ∀ j < n, (s.place j).counting = false) :
    Windows n (s.clear i starting next) := by
  obtain ⟨place, hafter, -, -, hc⟩ := clear_place s i starting next
  have hquiet : ∀ j < n, ∀ k < n, (s.place j).storing = true ∨ j = i →
      (s.place k).counting = false := by
    intro j hj k hk hstoring
    cases hstoring with
    | inl hstoring => exact h.quiet j hj hstoring k hk
    | inr hji =>
      by_cases hnext : next = .currentUsage
      · exact hcond hnext k hk
      · apply h.quiet i hi _ k hk
        rw [hplace]
        exact storing_of_ne hnext
  constructor
  · intro j hj hstoring k hk
    rw [hafter] at hstoring ⊢
    by_cases hki : k = i
    · subst hki
      rw [update_self]
      exact hc
    · rw [update_of_ne hki]
      apply hquiet j hj k hk
      by_cases hji : j = i
      · exact .inr hji
      · rw [update_of_ne hji] at hstoring
        exact .inl hstoring
  · intro j hj starting' next' hclearing
    by_cases hji : j = i
    · subst hji
      exact (h.zeroed j hj starting next hplace).after hclearing
    · rw [hafter, update_of_ne hji] at hclearing
      exact (h.zeroed j hj starting' next' hclearing).clear

theorem counting_of_reached {v : Nat} (h : (s.place i).reached = some v) :
    (s.place i).counting = true := by
  cases hp : s.place i <;> simp_all [Place.reached, Place.counting]

theorem windows_advance {spurious : Bool} (h : Windows n s) (hi : i < n)
    (hcond : s.Undisturbed n (i, .advance spurious)) (hstep : Advance s i s') : Windows n s' := by
  cases hstep with
  | allocCheck hp ht | deallocCheck hp ht =>
    simp only [Undisturbed, hp] at hcond
    exact .of_not_storing (not_storing_update rfl rfl (hcond ht))
  | allocIgnore | deallocIgnore | startIgnore | start | stop =>
    exact h.same ⟨rfl, rfl, rfl, rfl, rfl, rfl⟩ rfl rfl rfl
  | clear hp =>
    apply windows_clear h hi hp
    intro hnext
    subst hnext
    simpa only [Undisturbed, hp, MayAdvance] using hcond
  | peakCompare hp | peakReached hp => exact h.counts hi (counting_of_reached hp) rfl rfl
  | allocInsert hp | allocAdd hp | allocTotal hp | peakRaise hp | deallocErase hp | deallocSkip hp
  | deallocSubtract hp | deallocTotal hp => exact h.counts hi (by rw [hp]; rfl) rfl rfl

theorem windows_call {action : Action} (h : Windows n s) (hstep : s.call i action = some s') :
    Windows n s' := by
  cases action with
  | trackAllocation | trackDeallocation =>
    rw [call] at hstep
    split at hstep
    · cases hstep
      exact h
    · cases hstep
      exact h.same ⟨rfl, rfl, rfl, rfl, rfl, rfl⟩ rfl rfl rfl
  | advance => cases hstep
  | _ =>
    cases hstep
    exact h.same ⟨rfl, rfl, rfl, rfl, rfl, rfl⟩ rfl rfl rfl

end State
end Hisab.Profiler.MemoryTracker
