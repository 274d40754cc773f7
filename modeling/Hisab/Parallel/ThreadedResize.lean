import Hisab.Parallel.ThreadedInvariant

/-!
# A change of the number of threads

Each step of the function of `set_number_of_threads` keeps the invariant: it starts workers with
the next indices, or gives its own worker the first place, lowers `number_of_threads_` under
`mutex_`, and waits for the workers past it before they leave `threads_`.
-/

namespace Hisab.Parallel.ThreadedQueue

open Base CallbackQueue Function List Option

variable {n clients t x : Nat} {s s' : ThreadedQueue} {q : CallbackQueue} {r : Resize}
  {l : List Nat} {index : Nat → Nat}

/-- The function of a control task is the only one that is under way. -/
theorem PoolInv.eq_of_isUnderWay (h : s.PoolInv n clients) (ht : t < n)
    (hbody : .body x ∈ s.queue.thread t) (hkind : (s.queue.future x).kind = .control) {y : Nat}
    (hy : IsUnderWay (s.control y)) : y = x := by
  obtain ⟨hkindy, -, u, hu, hbodyy⟩ := h.controls.body y hy
  exact h.queue.ledger.control_unique h.queue.chained hu ht hbodyy hbody hkindy hkind

/-- A worker that holds `mutex_` in `pop` is one of `threads_`. -/
theorem PoolInv.mem_of_popping (h : s.PoolInv n clients) {u : Nat} {stage : PopStage}
    (hp : s.popping = some (u, stage)) : u ∈ s.threads := by
  obtain ⟨⟨hu, -, fs, hst⟩, -⟩ := h.popping u stage hp
  exact h.threads.mem u hu (isAlive_eq_true.mpr (by simp [hst]))

/-- The index that was read and the one that is there now are both below the number. -/
theorem ReadsOk.of_below {u : Nat} {stage : PopStage} (h : s.ReadsOk u stage)
    (hold : s.threadIndex u < s.numberOfThreads) (hnew : s'.threadIndex u < s'.numberOfThreads)
    (hle : s.numberOfThreads ≤ s'.numberOfThreads) (hqueue : s'.queue = s.queue)
    (hdestroying : s'.destroying = s.destroying) : s'.ReadsOk u stage := by
  cases stage with
  | onHold index => exact ⟨fun _ ↦ hnew, fun _ ↦ (h.mpr hold).trans_le hle⟩
  | passed =>
    simp only [ReadsOk, hqueue, hdestroying] at h ⊢
    exact fun _ ↦ h hold
  | canContinue index =>
    simp only [ReadsOk, hqueue, hdestroying] at h ⊢
    exact ⟨⟨fun _ ↦ hnew, fun _ ↦ (h.1.mpr hold).trans_le hle⟩, fun _ ↦ h.2 hold⟩

theorem ReadsOk.congr {u : Nat} {stage : PopStage} (h : s.ReadsOk u stage)
    (hindex : s'.threadIndex u = s.threadIndex u)
    (hnumber : s'.numberOfThreads = s.numberOfThreads)
    (hqueue : s'.queue.invokerQueue = s.queue.invokerQueue)
    (hdestroying : s'.destroying = s.destroying) : s'.ReadsOk u stage := by
  cases stage <;> simpa only [ReadsOk, hindex, hnumber, hqueue, hdestroying] using h

/-- A step of a function that leaves the queue. -/
theorem PoolInv.of_control (h : s.PoolInv n clients) (hqueue : s'.queue = s.queue)
    (hpopping : s'.popping = s.popping) (hdestroying : s'.destroying = s.destroying)
    (hdestructor : s'.destructor = s.destructor) (hcontrols : s'.ControlsOk n)
    (hthreads : s'.ThreadsOk n clients)
    (hreads : ∀ u stage, s.popping = some (u, stage) → s'.ReadsOk u stage)
    (hsame : s.destroying = false ∨
      s'.threads = s.threads ∧ s'.numberOfThreads = s.numberOfThreads) :
    s'.PoolInv n clients := by
  have halive := isAlive_congr hqueue
  refine ⟨h.queue.congr hqueue, hcontrols, hthreads, fun u stage hu ↦ ?_,
    ⟨?_, ?_, fun hd hne ↦ ?_, fun hd u hu ↦ ?_⟩⟩
  · rw [hpopping] at hu
    rw [hqueue]
    exact ⟨(h.popping u stage hu).1, hreads u stage hu⟩
  · rw [hqueue, hdestructor]
    exact h.destructor.idle
  · rw [hdestroying, hdestructor]
    exact h.destructor.destroying
  · rw [hdestroying] at hd
    obtain ⟨hthreads', hnumber⟩ := hsame.resolve_left (by simp [hd])
    rw [hnumber] at hne
    simp only [hthreads', hqueue, halive]
    exact h.destructor.someone hd hne
  · rw [hdestructor] at hd
    have hd' := h.destructor.destroying.mpr (.inr hd)
    obtain ⟨hthreads', -⟩ := hsame.resolve_left (by simp [hd'])
    rw [hthreads'] at hu
    exact (halive u).trans (h.destructor.left hd u hu)

/-! ## Before `destroy_mutex_` is taken -/

/-- The size is read. -/
theorem PoolInv.readSize (h : s.PoolInv n clients) (ht : t < n)
    (hbody : .body x ∈ s.queue.thread t) (hkind : (s.queue.future x).kind = .control)
    (hx : s.control x = .entered) :
    PoolInv n clients { s with control := update s.control x (.sized s.threads.length) } := by
  have hnone : s.resizing = none := by
    by_contra hsome
    obtain ⟨y, hy⟩ := h.controls.owner hsome
    have hyx := h.eq_of_isUnderWay ht hbody hkind (by rw [hy]; trivial)
    rw [hyx, hx] at hy
    cases hy
  refine h.of_control rfl rfl rfl rfl ⟨fun y hy ↦ ?_, fun hsome ↦ absurd hnone hsome,
    fun y size hy ↦ ⟨hnone, ?_⟩⟩ (h.threads.congr rfl rfl rfl rfl rfl fun _ _ ↦ rfl)
    (fun u stage hu ↦ (h.popping u stage hu).2.congr rfl rfl rfl rfl) (.inr ⟨rfl, rfl⟩)
  · by_cases hyx : y = x
    · subst hyx
      exact ⟨hkind, (h.queue.ledger.of_body ht hbody).1, t, ht, hbody⟩
    · simp only [update_of_ne hyx] at hy
      exact h.controls.body y hy
  · by_cases hyx : y = x
    · subst hyx
      simp only [update_self, ControlProgress.sized.injEq] at hy
      exact hy.symm
    · simp only [update_of_ne hyx] at hy
      exact (h.controls.sized y size hy).2

/-- The function returns where there is nothing to change, or at its end. -/
theorem ControlsOk.of_returned (hresizing : s'.resizing = none)
    (hcontrol : s'.control = update s.control x .returned)
    (honly : ∀ y, IsUnderWay (s.control y) → y = x) : s'.ControlsOk n := by
  have hno : ∀ y, ¬IsUnderWay (s'.control y) := by
    intro y hy
    rw [hcontrol] at hy
    by_cases hyx : y = x
    · subst hyx
      simp [IsUnderWay] at hy
    · rw [update_of_ne hyx] at hy
      exact hyx (honly y hy)
  refine ⟨fun y hy ↦ absurd hy (hno y), fun hsome ↦ absurd hresizing hsome, fun y size hy ↦ ?_⟩
  refine absurd ?_ (hno y)
  rw [hy]
  trivial

/-- `destroy_mutex_` is taken. -/
theorem PoolInv.lockDestroy (h : s.PoolInv n clients) (ht : t < n)
    (hbody : .body x ∈ s.queue.thread t) (hkind : (s.queue.future x).kind = .control) {size : Nat}
    (hx : s.control x = .sized size) (hd : s.destroying = false) (hne : size ≠ s.number x) :
    PoolInv n clients { s with
      control := update s.control x .resizing
      resizing := some { self := t, number := s.number x, stage := .compared size } } := by
  obtain ⟨hnone, hsize⟩ := h.controls.sized x size hx
  obtain ⟨hlength, hindexed, hall⟩ := h.threads.free hnone
  have honly : ∀ y, IsUnderWay (s.control y) → y = x := fun y ↦ h.eq_of_isUnderWay ht hbody hkind
  refine h.of_control rfl rfl rfl rfl ⟨fun y hy ↦ ?_, fun _ ↦ ⟨x, update_self ..⟩,
    fun y size' hy ↦ ?_⟩ ⟨h.threads.nodup, h.threads.worker, h.threads.mem, by simp, ?_⟩
    (fun u stage hu ↦ (h.popping u stage hu).2.congr rfl rfl rfl rfl) (.inl hd)
  · by_cases hyx : y = x
    · subst hyx
      exact h.controls.body y (by rw [hx]; trivial)
    · simp only [update_of_ne hyx] at hy
      exact h.controls.body y hy
  · by_cases hyx : y = x
    · subst hyx
      simp at hy
    · simp only [update_of_ne hyx] at hy
      exact absurd (honly y (by rw [hy]; trivial)) hyx
  · intro r hr
    cases hr
    exact ⟨hd, hsize, hlength, hne, hindexed, hall hd⟩

/-! ## Under `destroy_mutex_` -/

/-- The stages of a change are steps of one control task. -/
theorem ControlsOk.setStage (h : s.ControlsOk n) (hr : s.resizing = some r)
    (hqueue : s'.queue = s.queue) (hcontrol : s'.control = s.control) : s'.ControlsOk n where
  body := by
    rw [hqueue, hcontrol]
    exact h.body
  owner _ := by
    rw [hcontrol]
    exact h.owner (by simp [hr])
  sized y size hy := by
    rw [hcontrol] at hy
    have hnone := (h.sized y size hy).1
    rw [hr] at hnone
    cases hnone

/-- A stage after which the change goes on. -/
theorem PoolInv.nextStage (h : s.PoolInv n clients) (hr : s.resizing = some r)
    {stage : ResizeStage} (hqueue : s'.queue = s.queue) (hcontrol : s'.control = s.control)
    (hresizing : s'.resizing = some { r with stage := stage })
    (hpopping : s'.popping = s.popping) (hdestroying : s'.destroying = s.destroying)
    (hdestructor : s'.destructor = s.destructor)
    (hthreads : s'.threads.Perm s.threads)
    (hstage : s'.StageOk { r with stage := stage } stage)
    (hreads : ∀ u stage, s.popping = some (u, stage) → s'.ReadsOk u stage) :
    s'.PoolInv n clients := by
  have hd := (h.threads.resizing r hr).1
  refine h.of_control hqueue hpopping hdestroying hdestructor
    (h.controls.setStage hr hqueue hcontrol) ⟨?_, fun u hu ↦ ?_,
      fun u hu hualive ↦ ?_, fun hnone ↦ ?_, fun r' hr' ↦ ?_⟩ hreads (.inl hd)
  · exact hthreads.nodup_iff.mpr h.threads.nodup
  · exact h.threads.worker u (hthreads.mem_iff.mp hu)
  · rw [ThreadedQueue.isAlive, hqueue] at hualive
    exact hthreads.mem_iff.mpr (h.threads.mem u hu hualive)
  · rw [hresizing] at hnone
    cases hnone
  · obtain rfl := some.inj (hresizing.symm.trans hr')
    exact ⟨hdestroying.trans hd, hstage⟩

/-- What a worker in `pop` has read is so after a stage, where all workers stay below
`number_of_threads_`. -/
theorem PoolInv.reads_of_below (h : s.PoolInv n clients) (hr : s.resizing = some r)
    (hstage : r.stage ≠ .joining ∧ r.stage ≠ .joined) (hqueue : s'.queue = s.queue)
    (hdestroying : s'.destroying = s.destroying)
    (hle : s.numberOfThreads ≤ s'.numberOfThreads)
    (hbelow : ∀ u ∈ s.threads, s'.threadIndex u < s'.numberOfThreads) :
    ∀ u stage, s.popping = some (u, stage) → s'.ReadsOk u stage := by
  intro u stage hp
  have hu := h.mem_of_popping hp
  have hindex : s.threadIndex u < s.numberOfThreads := h.threads.index_lt hu fun r' hr' ↦ by
    obtain rfl := some.inj (hr.symm.trans hr')
    exact hstage
  exact (h.popping u stage hp).2.of_below hindex (hbelow u hu) hle hqueue hdestroying

/-- `number_of_threads_` is set before the threads are started. -/
theorem PoolInv.grow (h : s.PoolInv n clients) {size : Nat}
    (hr : s.resizing = some r) (hrs : r.stage = .compared size) (hlt : size < r.number) :
    PoolInv n clients { s with
      numberOfThreads := r.number
      resizing := some { r with stage := .growing (r.number - size) } } := by
  have hok := (h.threads.resizing r hr).2
  rw [hrs] at hok
  obtain ⟨hsize, hlength, -, hindexed, hall⟩ := hok
  refine h.nextStage hr rfl rfl rfl rfl rfl rfl (.refl _) ⟨?_, hindexed, hall⟩
    (h.reads_of_below hr (by simp [hrs]) rfl rfl ?_ fun u hu ↦ ?_)
  · change r.number = s.threads.length + (r.number - size)
    omega
  · change s.numberOfThreads ≤ r.number
    omega
  · have hindex := h.threads.index_lt hu fun r' hr' ↦ by
      obtain rfl := some.inj (hr.symm.trans hr')
      simp [hrs]
    change s.threadIndex u < r.number
    omega

/-- The two threads that are exchanged, and the others. -/
theorem getElem?_swap {j a b : Nat} (h0 : l[0]? = some a) (hj : l[j]? = some b) {i u : Nat}
    (hi : ((l.set j a).set 0 b)[i]? = some u) :
    i = 0 ∧ u = b ∨ i ≠ 0 ∧ i = j ∧ u = a ∨ i ≠ 0 ∧ i ≠ j ∧ l[i]? = some u := by
  have h0lt : 0 < l.length := (List.getElem?_eq_some_iff.mp h0).1
  have hjlt : j < l.length := (List.getElem?_eq_some_iff.mp hj).1
  by_cases hi0 : i = 0
  · subst hi0
    rw [getElem?_set_self (by simpa using h0lt)] at hi
    exact .inl ⟨rfl, (some.inj hi).symm⟩
  · rw [getElem?_set_ne (Ne.symm hi0)] at hi
    by_cases hij : i = j
    · subst hij
      rw [getElem?_set_self hjlt] at hi
      exact .inr (.inl ⟨hi0, rfl, (some.inj hi).symm⟩)
    · rw [getElem?_set_ne (Ne.symm hij)] at hi
      exact .inr (.inr ⟨hi0, hij, hi⟩)

theorem perm_swap {j a b : Nat} (h0 : l[0]? = some a) (hj : l[j]? = some b) :
    ((l.set j a).set 0 b).Perm l := by
  obtain ⟨h0lt, rfl⟩ := List.getElem?_eq_some_iff.mp h0
  obtain ⟨hjlt, rfl⟩ := List.getElem?_eq_some_iff.mp hj
  exact set_set_perm hjlt h0lt

/-- A worker in its place. -/
theorem IndexedBy.eq_of_getElem? (h : IndexedBy index l) {u v : Nat} (hu : u ∈ l)
    (hv : l[index u]? = some v) : v = u := by
  obtain ⟨i, hi⟩ := mem_iff_getElem?.mp hu
  rw [h i u hi, hi] at hv
  exact (some.inj hv).symm

/-- With the indices that are written next, the exchanged threads have their places. -/
theorem IndexedBy.swap (h : IndexedBy index l) {a b : Nat} (h0 : l[0]? = some a)
    (hb : l[index b]? = some b) (hb0 : index b ≠ 0) :
    IndexedBy (update (update index a (index b)) b (index a)) ((l.set (index b) a).set 0 b) := by
  have hab : a ≠ b := by
    rintro rfl
    exact hb0 (h 0 a h0)
  intro i u hi
  rcases getElem?_swap h0 hb hi with ⟨rfl, rfl⟩ | ⟨-, rfl, rfl⟩ | ⟨hi0, hij, hu⟩
  · rw [update_self]
    exact h 0 a h0
  · rw [update_of_ne hab, update_self]
  · have hub : u ≠ b := by
      rintro rfl
      exact hij (h i u hu).symm
    have hua : u ≠ a := by
      rintro rfl
      exact hi0 ((h i u hu).symm.trans (h 0 u h0))
    rw [update_of_ne hub, update_of_ne hua]
    exact h i u hu

/-- `threads_` with the worker of the function at the first place. -/
theorem PoolInv.swapThreads (h : s.PoolInv n clients) {size : Nat}
    (hr : s.resizing = some r) (hrs : r.stage = .compared size) (hge : ¬size < r.number)
    (hs : s.swapThreads r = some s') : s'.PoolInv n clients := by
  have hok := (h.threads.resizing r hr).2
  rw [hrs] at hok
  obtain ⟨hsize, hlength, hne, hindexed, hall⟩ := hok
  have hlt : r.number < s.threads.length := by omega
  have hreads : ∀ u stage, s.popping = some (u, stage) → s.ReadsOk u stage := fun u stage hp ↦
    (h.popping u stage hp).2
  have hshrinking : PoolInv n clients { s with resizing := some { r with stage := .shrinking } } :=
    h.nextStage hr rfl rfl rfl rfl rfl rfl (.refl _) ⟨hlength, hlt, hindexed, hall⟩
      fun u stage hp ↦ (hreads u stage hp).congr rfl rfl rfl rfl
  unfold ThreadedQueue.swapThreads at hs
  dsimp only at hs
  split at hs
  next hswap =>
    obtain ⟨hself, hself0, -⟩ := hswap
    have hmem : r.self ∈ s.threads := by
      simp only [isRegistered, Bool.and_eq_true, contains_iff_mem] at hself
      exact hself.1
    split at hs
    next thread0 u h0 hu =>
      obtain rfl := hindexed.eq_of_getElem? hmem hu
      split at hs
      · cases hs
        have hperm := perm_swap h0 hu
        have hlen := hperm.length_eq
        refine h.nextStage hr rfl rfl rfl rfl rfl rfl hperm ⟨?_, ?_, hindexed.swap h0 hu hself0,
          fun u hu ↦ ?_, hperm.mem_iff.mpr hmem, fun u hu ↦ ?_⟩
          fun u stage hp ↦ (hreads u stage hp).congr rfl rfl rfl rfl
        · exact hlength.trans hlen.symm
        · exact hlt.trans_eq hlen.symm
        · exact hall u (hperm.mem_iff.mp hu)
        · obtain ⟨i, hi⟩ := mem_iff_getElem?.mp (hperm.mem_iff.mp hu)
          have hiu := hindexed i u hi
          have hilt : i < s.threads.length := (List.getElem?_eq_some_iff.mp hi).1
          change s.threadIndex u < ((s.threads.set _ _).set 0 _).length
          omega
      · cases hs
        exact hshrinking
    · cases hs
  · cases hs
    exact hshrinking

/-- The index of the first thread is written. -/
theorem PoolInv.exchangeFirst (h : s.PoolInv n clients) {thread0 : Nat}
    (hr : s.resizing = some r) (hrs : r.stage = .swapped thread0) :
    PoolInv n clients { s with
      threadIndex := update s.threadIndex thread0 (s.threadIndex r.self)
      resizing := some { r with stage := .exchanged (s.threadIndex thread0) } } := by
  have hok := (h.threads.resizing r hr).2
  rw [hrs] at hok
  obtain ⟨hlength, hlt, hindexed, hall, hself, hbelow⟩ := hok
  have hbelow' : ∀ u ∈ s.threads,
      update s.threadIndex thread0 (s.threadIndex r.self) u < s.threads.length := by
    intro u hu
    by_cases hu0 : u = thread0
    · subst hu0
      rw [update_self]
      exact hbelow r.self hself
    · rw [update_of_ne hu0]
      exact hbelow u hu
  exact h.nextStage hr rfl rfl rfl rfl rfl rfl (.refl _) ⟨hlength, hlt, hindexed, hall, hbelow'⟩
    (h.reads_of_below hr (by simp [hrs]) rfl rfl le_rfl fun u hu ↦ hlength ▸ hbelow' u hu)

/-- The index of the worker of the function is written. -/
theorem PoolInv.exchangeSelf (h : s.PoolInv n clients) {tmp : Nat}
    (hr : s.resizing = some r) (hrs : r.stage = .exchanged tmp) :
    PoolInv n clients { s with
      threadIndex := update s.threadIndex r.self tmp
      resizing := some { r with stage := .shrinking } } := by
  have hok := (h.threads.resizing r hr).2
  rw [hrs] at hok
  obtain ⟨hlength, hlt, hindexed, hall, -⟩ := hok
  refine h.nextStage hr rfl rfl rfl rfl rfl rfl (.refl _) ⟨hlength, hlt, hindexed, hall⟩
    (h.reads_of_below hr (by simp [hrs]) rfl rfl le_rfl fun u hu ↦ ?_)
  obtain ⟨i, hi⟩ := mem_iff_getElem?.mp hu
  have hiu := hindexed i u hi
  have hilt : i < s.threads.length := (List.getElem?_eq_some_iff.mp hi).1
  change update s.threadIndex r.self tmp u < s.numberOfThreads
  omega

/-- `number_of_threads_` is lowered while no worker is in `pop`. -/
theorem PoolInv.lower (h : s.PoolInv n clients) (hr : s.resizing = some r)
    (hrs : r.stage = .shrinking) (hp : s.popping = none) :
    PoolInv n clients { s with
      numberOfThreads := r.number, resizing := some { r with stage := .joining } } := by
  have hok := (h.threads.resizing r hr).2
  rw [hrs] at hok
  obtain ⟨-, hlt, hindexed, hall⟩ := hok
  refine h.nextStage hr rfl rfl rfl rfl rfl rfl (.refl _) ⟨rfl, hlt, hindexed, fun u hu ↦ ?_⟩
    fun u stage hu ↦ ?_
  · exact hall u (mem_of_mem_take hu)
  · rw [hp] at hu
    cases hu

/-- The workers past the number have left. -/
theorem PoolInv.join (h : s.PoolInv n clients) (hr : s.resizing = some r) (hrs : r.stage = .joining)
    (hleft : ∀ u ∈ s.threads.drop s.numberOfThreads, s.isAlive u = false) :
    PoolInv n clients { s with resizing := some { r with stage := .joined } } := by
  have hok := (h.threads.resizing r hr).2
  rw [hrs] at hok
  obtain ⟨hnumber, hlt, hindexed, htake⟩ := hok
  exact h.nextStage hr rfl rfl rfl rfl rfl rfl (.refl _)
    ⟨hnumber, hlt, hindexed, htake, hnumber ▸ hleft⟩
    fun u stage hp ↦ (h.popping u stage hp).2.congr rfl rfl rfl rfl

/-- The end of a change to more threads. -/
theorem PoolInv.endGrow (h : s.PoolInv n clients) (hr : s.resizing = some r)
    (hrs : r.stage = .growing 0) (honly : ∀ y, IsUnderWay (s.control y) → y = x) :
    (s.returnControl x).PoolInv n clients := by
  obtain ⟨hd, hok⟩ := h.threads.resizing r hr
  rw [hrs] at hok
  obtain ⟨hlength, hindexed, hall⟩ := hok
  exact h.of_control rfl rfl rfl rfl (.of_returned rfl rfl honly)
    ⟨h.threads.nodup, h.threads.worker, h.threads.mem, fun _ ↦ ⟨hlength, hindexed, fun _ ↦ hall⟩,
      nofun⟩
    (fun u stage hp ↦ (h.popping u stage hp).2.congr rfl rfl rfl rfl) (.inl hd)

/-- The end of a change to fewer threads. -/
theorem PoolInv.endShrink (h : s.PoolInv n clients) (hr : s.resizing = some r)
    (hrs : r.stage = .joined) (honly : ∀ y, IsUnderWay (s.control y) → y = x) :
    PoolInv n clients ({ s with threads := s.threads.take r.number }.returnControl x) := by
  obtain ⟨hd, hok⟩ := h.threads.resizing r hr
  rw [hrs] at hok
  obtain ⟨hnumber, hlt, hindexed, htake, hdrop⟩ := hok
  refine h.of_control rfl rfl rfl rfl (.of_returned rfl rfl honly)
    ⟨h.threads.nodup.sublist (take_sublist ..), fun u hu ↦
      h.threads.worker u (mem_of_mem_take hu), fun u hu hualive ↦ ?_, fun _ ↦ ⟨?_,
      fun i u hi ↦ ?_, fun _ ↦ htake⟩, nofun⟩
    (fun u stage hp ↦ (h.popping u stage hp).2.congr rfl rfl rfl rfl) (.inl hd)
  · have hmem := h.threads.mem u hu hualive
    rw [← take_append_drop r.number s.threads] at hmem
    rcases mem_append.mp hmem with hmem | hmem
    · exact hmem
    · have hdead := hdrop u hmem
      rw [show s.isAlive u = true from hualive] at hdead
      cases hdead
  · change s.numberOfThreads = (s.threads.take r.number).length
    rw [length_take]
    omega
  · change (s.threads.take r.number)[i]? = some u at hi
    have hilt : i < r.number := by
      obtain ⟨hlt, -⟩ := List.getElem?_eq_some_iff.mp hi
      exact hlt.trans_le (length_take_le ..)
    rw [getElem?_take_of_lt hilt] at hi
    exact hindexed i u hi

/-- A worker after one more is started. -/
theorem IndexedBy.append (h : IndexedBy index l) {u : Nat} (hu : u ∉ l) :
    IndexedBy (update index u l.length) (l ++ [u]) := by
  intro i v hi
  by_cases hil : i < l.length
  · rw [getElem?_append_left hil] at hi
    have hvu : v ≠ u := by
      rintro rfl
      exact hu (mem_of_getElem? hi)
    rw [update_of_ne hvu]
    exact h i v hi
  · obtain ⟨hlt, hv⟩ := List.getElem?_eq_some_iff.mp hi
    rw [length_append, length_singleton] at hlt
    obtain rfl : i = l.length := by omega
    obtain rfl : u = v := by simpa using hv
    rw [update_self]

/-- Thread `u` can be started as a worker: it does not run, and is not in `threads_`. -/
structure CanStart (n clients : Nat) (s : ThreadedQueue) (u : Nat) : Prop where
  worker : clients < u ∧ u < n
  idle : s.queue.thread u = []
  new : u ∉ s.threads

theorem CanStart.of_newThread {u : Nat} (hu : s.newThread n clients = some u) :
    CanStart n clients s u := by
  have hfind := find?_some hu
  have hun : u < n := mem_range.mp (mem_of_find?_eq_some hu)
  simp only [Bool.and_eq_true, decide_eq_true_eq, Bool.not_eq_true', contains_eq_mem,
    decide_eq_false_iff_not] at hfind
  obtain ⟨⟨huc, hdead⟩, hmem⟩ := hfind
  exact ⟨⟨huc, hun⟩, by simpa [ThreadedQueue.isAlive] using hdead, hmem⟩

section startThread

variable {u : Nat} (hu : CanStart n clients s u) (hs' : s'.queue = s.queue.setStack u [.loop])

include hs' in
theorem started_thread : s'.queue.thread u = [.loop] := by
  rw [hs']
  exact update_self ..

include hs' in
theorem started_other {v : Nat} (hv : v ≠ u) : s'.queue.thread v = s.queue.thread v := by
  rw [hs']
  exact update_of_ne hv ..

include hs' in
theorem started_isAlive {v : Nat} : s'.isAlive v = true ↔ v = u ∨ s.isAlive v = true := by
  rw [isAlive_eq_true, isAlive_eq_true]
  by_cases hvu : v = u
  · subst hvu
    simp [started_thread hs']
  · simp [started_other hs' hvu, hvu]

include hu hs'

theorem QueueOk.startThread (h : s.QueueOk n clients) : s'.QueueOk n clients where
  ledger := by
    rw [hs']
    exact h.ledger.setIdle (by rw [hu.idle]; rfl) rfl (by simp [FrameOk])
  chained := hs' ▸ h.chained.later (.of_eq rfl rfl rfl rfl)
  front := by
    rw [hs']
    exact h.front
  clientRoot v hv := by
    rw [started_other hs' (by have := hu.worker; omega)]
    exact h.clientRoot v hv
  workerRoot v hv hvalive := by
    by_cases hvu : v = u
    · rw [hvu, started_thread hs']
      exact ⟨[], rfl, by simp⟩
    · rw [started_other hs' hvu]
      exact h.workerRoot v hv (((started_isAlive hs').mp hvalive).resolve_left hvu)
  unsignalled := by
    rw [started_other hs' (by have := hu.worker; omega)]
    exact h.unsignalled

theorem ControlsOk.startThread (h : s.ControlsOk n) (hr : s.resizing = some r)
    (hcontrol : s'.control = s.control) : s'.ControlsOk n where
  body y hy := by
    rw [hcontrol] at hy
    obtain ⟨hkind, hlt, v, hv, hbody⟩ := h.body y hy
    have hvu : v ≠ u := by
      rintro rfl
      rw [hu.idle] at hbody
      cases hbody
    refine ⟨?_, ?_, v, hv, started_other hs' hvu ▸ hbody⟩
    · rw [hs']
      exact hkind
    · rw [hs']
      exact hlt
  owner _ := by
    rw [hcontrol]
    exact h.owner (by simp [hr])
  sized y size hy := by
    rw [hcontrol] at hy
    have hnone := (h.sized y size hy).1
    rw [hr] at hnone
    cases hnone

/-- The new worker takes the next place of `threads_`. -/
theorem ThreadsOk.startThread (h : s.ThreadsOk n clients) {left : Nat} (hr : s.resizing = some r)
    (hrs : r.stage = .growing (left + 1)) (hthreads : s'.threads = s.threads ++ [u])
    (hindex : s'.threadIndex = update s.threadIndex u s.threads.length)
    (hnumber : s'.numberOfThreads = s.numberOfThreads) (hdestroying : s'.destroying = s.destroying)
    (hr' : s'.resizing = some { r with stage := .growing left }) : s'.ThreadsOk n clients := by
  obtain ⟨hd, hok⟩ := h.resizing r hr
  rw [hrs] at hok
  obtain ⟨hlength, hindexed, hall⟩ := hok
  have hmem : ∀ v, v ∈ s'.threads ↔ v ∈ s.threads ∨ v = u := by simp [hthreads]
  refine ⟨?_, fun v hv ↦ ?_, fun v hv hvalive ↦ ?_, fun hnone ↦ ?_, fun r₂ hr₂ ↦ ?_⟩
  · rw [hthreads]
    exact nodup_append.mpr ⟨h.nodup, by simp, by
      intro a ha b hb
      rw [mem_singleton.mp hb]
      rintro rfl
      exact hu.new ha⟩
  · rcases (hmem v).mp hv with hv | rfl
    · exact h.worker v hv
    · exact hu.worker
  · rcases (started_isAlive hs').mp hvalive with rfl | hvalive
    · exact (hmem _).mpr (.inr rfl)
    · exact (hmem v).mpr (.inl (h.mem v hv hvalive))
  · rw [hr'] at hnone
    cases hnone
  · obtain rfl := some.inj (hr'.symm.trans hr₂)
    refine ⟨hdestroying.trans hd, ?_, ?_, fun v hv ↦ (started_isAlive hs').mpr ?_⟩
    · rw [hthreads, length_append, length_singleton]
      omega
    · rw [hindex, hthreads]
      exact hindexed.append hu.new
    · exact ((hmem v).mp hv).symm.imp_right (hall v)

theorem PoppingOk.startThread (h : s.PoppingOk n clients) (hpopping : s'.popping = s.popping)
    (hindex : s'.threadIndex = update s.threadIndex u s.threads.length)
    (hnumber : s'.numberOfThreads = s.numberOfThreads)
    (hdestroying : s'.destroying = s.destroying) : s'.PoppingOk n clients := by
  intro v stage hv
  rw [hpopping] at hv
  obtain ⟨⟨hvc, hfree, fs, hst⟩, hreads⟩ := h v stage hv
  have hvu : v ≠ u := by
    rintro rfl
    rw [hu.idle] at hst
    cases hst
  refine ⟨⟨hvc, mutexFree_update hfree (by rw [hs']; rfl) ?_ hu.worker.2, fs, ?_⟩, ?_⟩
  · rw [hu.idle]
    rfl
  · rw [started_other hs' hvu]
    exact hst
  · refine hreads.congr ?_ hnumber (by rw [hs']; rfl) hdestroying
    rw [hindex, update_of_ne hvu]

/-- The destructor has not set `destroying_`. -/
theorem DestructorOk.startThread (h : s.DestructorOk clients) (hd : s.destroying = false)
    (hdestroying : s'.destroying = s.destroying) (hdestructor : s'.destructor = s.destructor) :
    s'.DestructorOk clients where
  idle hne v hv := by
    rw [hdestructor] at hne
    rw [started_other hs' (by have := hu.worker; omega)]
    exact h.idle hne v hv
  destroying := by
    rw [hdestroying, hdestructor]
    exact h.destroying
  someone htrue := by
    rw [hdestroying, hd] at htrue
    cases htrue
  left hret := by
    rw [hdestructor] at hret
    rw [h.destroying.mpr (.inr hret)] at hd
    cases hd

end startThread

/-- A worker is started, with the next index. -/
theorem PoolInv.startThread (h : s.PoolInv n clients) {left u : Nat} (hr : s.resizing = some r)
    (hrs : r.stage = .growing (left + 1)) (hu : s.newThread n clients = some u) :
    PoolInv n clients { s with
      queue := s.queue.setStack u [.loop]
      threads := s.threads ++ [u]
      threadIndex := update s.threadIndex u s.threads.length
      resizing := some { r with stage := .growing left } } := by
  have hcan := CanStart.of_newThread hu
  exact ⟨h.queue.startThread hcan rfl, h.controls.startThread hcan rfl hr rfl,
    h.threads.startThread hcan rfl hr hrs rfl rfl rfl rfl rfl,
    h.popping.startThread hcan rfl rfl rfl rfl rfl,
    h.destructor.startThread hcan rfl (h.threads.resizing r hr).1 rfl rfl⟩

/-- The steps under `destroy_mutex_` keep the invariant. -/
theorem PoolInv.resize (h : s.PoolInv n clients) (hr : s.resizing = some r)
    (honly : ∀ y, IsUnderWay (s.control y) → y = x)
    (hs : s.resize n clients x r = some s') : s'.PoolInv n clients := by
  unfold ThreadedQueue.resize at hs
  cases hrs : r.stage with
  | compared size =>
    simp only [hrs] at hs
    split at hs
    next hlt =>
      cases hs
      exact h.grow hr hrs hlt
    next hge => exact h.swapThreads hr hrs hge hs
  | growing left =>
    cases left with
    | zero =>
      simp only [hrs] at hs
      cases hs
      exact h.endGrow hr hrs honly
    | succ left =>
      simp only [hrs] at hs
      obtain ⟨u, hu, rfl⟩ := map_eq_some_iff.mp hs
      exact h.startThread hr hrs hu
  | swapped thread0 =>
    simp only [hrs] at hs
    cases hs
    exact h.exchangeFirst hr hrs
  | exchanged tmp =>
    simp only [hrs] at hs
    cases hs
    exact h.exchangeSelf hr hrs
  | shrinking =>
    simp only [hrs, ite_some_iff] at hs
    obtain ⟨⟨-, hp⟩, rfl⟩ := hs
    exact h.lower hr hrs hp
  | joining =>
    simp only [hrs, ite_some_iff] at hs
    obtain ⟨hleft, rfl⟩ := hs
    exact h.join hr hrs fun u hu ↦ by simpa using all_eq_true.mp hleft u hu
  | joined =>
    simp only [hrs] at hs
    cases hs
    exact h.endShrink hr hrs honly

/-- The steps of the function of a control task keep the invariant. -/
theorem PoolInv.runControl (h : s.PoolInv n clients) (ht : t < n)
    (hbody : .body x ∈ s.queue.thread t) (hkind : (s.queue.future x).kind = .control)
    (hs : s.runControl n clients t x = some s') : s'.PoolInv n clients := by
  have honly : ∀ y, IsUnderWay (s.control y) → y = x := fun y ↦ h.eq_of_isUnderWay ht hbody hkind
  unfold ThreadedQueue.runControl at hs
  cases hx : s.control x with
  | entered =>
    simp only [hx] at hs
    cases hs
    exact h.readSize ht hbody hkind hx
  | sized size =>
    simp only [hx, ite_none_right_eq_some] at hs
    obtain ⟨hnone, hs⟩ := hs
    split at hs
    · cases hs
      exact h.of_control rfl rfl rfl rfl (.of_returned hnone rfl honly)
        (h.threads.congr rfl rfl rfl rfl rfl fun _ _ ↦ rfl)
        (fun u stage hp ↦ (h.popping u stage hp).2.congr rfl rfl rfl rfl) (.inr ⟨rfl, rfl⟩)
    next hno =>
      cases hs
      simp only [not_or, Bool.not_eq_true] at hno
      exact h.lockDestroy ht hbody hkind hx hno.1 hno.2
  | resizing =>
    simp only [hx] at hs
    obtain ⟨r, hr, hs⟩ := bind_eq_some_iff.mp hs
    exact h.resize hr honly hs
  | returned =>
    simp only [hx] at hs
    cases hs

end Hisab.Parallel.ThreadedQueue
