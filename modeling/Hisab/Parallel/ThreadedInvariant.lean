import Hisab.Parallel.CallbackEffects
import Hisab.Parallel.CallbackLocks
import Hisab.Parallel.ThreadedQueue

/-!
# What holds of the threads of the queue

The invariant of the queue with its threads: `threads_` holds the workers in the order of their
indices, those below `number_of_threads_` have not left before the destructor, and what a worker
has read in `pop` is still so while it holds `mutex_`.
-/

namespace Hisab.Parallel.ThreadedQueue

open Base CallbackQueue Function ThreadedQueue List

variable {n clients : Nat} {s s' : ThreadedQueue}

/-- `thread_index_` is the place in `threads_`. -/
def IndexedBy (index : Nat → Nat) (threads : List Nat) : Prop :=
  ∀ i u, threads[i]? = some u → index u = i

/-- No worker of `threads_` has left. -/
def AllAlive (s : ThreadedQueue) : Prop := ∀ u ∈ s.threads, s.isAlive u = true

/-- The stacks, the deque and the ledger. -/
structure QueueOk (n clients : Nat) (s : ThreadedQueue) : Prop where
  ledger : Inv n s.queue
  chained : s.queue.Chained
  front : s.queue.invokerQueue.head? ≠ some none
  clientRoot : ∀ t < clients, Rooted .client (s.queue.thread t)
  workerRoot : ∀ t, clients < t → s.isAlive t = true → Rooted .loop (s.queue.thread t)
  unsignalled : ∀ f ∈ s.queue.thread clients, ∃ x, f = .signal x

/-- The control task is between the first and the last step of its function. -/
def IsUnderWay : ControlProgress → Prop
  | .sized _ | .resizing => True
  | .entered | .returned => False

/-- The functions of control tasks. -/
structure ControlsOk (n : Nat) (s : ThreadedQueue) : Prop where
  body : ∀ x, IsUnderWay (s.control x) → (s.queue.future x).kind = .control ∧ x < s.queue.count ∧
    ∃ t < n, .body x ∈ s.queue.thread t
  owner : s.resizing ≠ none → ∃ x, s.control x = .resizing
  sized : ∀ x size, s.control x = .sized size → s.resizing = none ∧ size = s.threads.length

/-- `number_of_threads_`, the indices and the workers at a stage of a change of their number. -/
def StageOk (s : ThreadedQueue) (r : Resize) : ResizeStage → Prop
  | .compared size => size = s.threads.length ∧ s.numberOfThreads = s.threads.length ∧
      size ≠ r.number ∧ IndexedBy s.threadIndex s.threads ∧ s.AllAlive
  | .growing left => s.numberOfThreads = s.threads.length + left ∧
      IndexedBy s.threadIndex s.threads ∧ s.AllAlive
  | .swapped thread0 => s.numberOfThreads = s.threads.length ∧ r.number < s.threads.length ∧
      IndexedBy (update (update s.threadIndex thread0 (s.threadIndex r.self))
        r.self (s.threadIndex thread0)) s.threads ∧ s.AllAlive ∧
      r.self ∈ s.threads ∧ ∀ u ∈ s.threads, s.threadIndex u < s.threads.length
  | .exchanged tmp => s.numberOfThreads = s.threads.length ∧ r.number < s.threads.length ∧
      IndexedBy (update s.threadIndex r.self tmp) s.threads ∧ s.AllAlive ∧
      ∀ u ∈ s.threads, s.threadIndex u < s.threads.length
  | .shrinking => s.numberOfThreads = s.threads.length ∧ r.number < s.threads.length ∧
      IndexedBy s.threadIndex s.threads ∧ s.AllAlive
  | .joining => s.numberOfThreads = r.number ∧ r.number < s.threads.length ∧
      IndexedBy s.threadIndex s.threads ∧ ∀ u ∈ s.threads.take r.number, s.isAlive u = true
  | .joined => s.numberOfThreads = r.number ∧ r.number < s.threads.length ∧
      IndexedBy s.threadIndex s.threads ∧ (∀ u ∈ s.threads.take r.number, s.isAlive u = true) ∧
      ∀ u ∈ s.threads.drop r.number, s.isAlive u = false

/-- `threads_` with the numbers that go with it. -/
structure ThreadsOk (n clients : Nat) (s : ThreadedQueue) : Prop where
  nodup : s.threads.Nodup
  worker : ∀ u ∈ s.threads, clients < u ∧ u < n
  mem : ∀ u, clients < u → s.isAlive u = true → u ∈ s.threads
  free : s.resizing = none → s.numberOfThreads = s.threads.length ∧
    IndexedBy s.threadIndex s.threads ∧ (s.destroying = false → s.AllAlive)
  resizing : ∀ r, s.resizing = some r → s.destroying = false ∧ s.StageOk r r.stage

/-- What a worker has read is still so. -/
def ReadsOk (s : ThreadedQueue) (u : Nat) : PopStage → Prop
  | .onHold index => (index < s.numberOfThreads ↔ s.threadIndex u < s.numberOfThreads)
  | .passed => s.threadIndex u < s.numberOfThreads → s.destroying = true ∨ s.queue.invokerQueue ≠ []
  | .canContinue index => (index < s.numberOfThreads ↔ s.threadIndex u < s.numberOfThreads) ∧
      (s.threadIndex u < s.numberOfThreads → s.destroying = true ∨ s.queue.invokerQueue ≠ [])

/-- A worker in `pop` holds `mutex_`. -/
def PoppingOk (n clients : Nat) (s : ThreadedQueue) : Prop :=
  ∀ u stage, s.popping = some (u, stage) → (clients < u ∧ s.queue.mutexFree n = true ∧
    ∃ fs, s.queue.thread u = .loop :: fs) ∧ s.ReadsOk u stage

/-- The destructor. -/
structure DestructorOk (clients : Nat) (s : ThreadedQueue) : Prop where
  idle : s.destructor ≠ .notCalled → ∀ t < clients, s.queue.thread t = [.client]
  destroying : s.destroying = true ↔ s.destructor = .joining ∨ s.destructor = .returned
  someone : s.destroying = true → s.numberOfThreads ≠ 0 →
    s.queue.invokerQueue = [] ∨ ∃ u ∈ s.threads, s.isAlive u = true
  left : s.destructor = .returned → ∀ u ∈ s.threads, s.isAlive u = false

/-- What holds in every state. -/
structure PoolInv (n clients : Nat) (s : ThreadedQueue) : Prop where
  queue : s.QueueOk n clients
  controls : s.ControlsOk n
  threads : s.ThreadsOk n clients
  popping : s.PoppingOk n clients
  destructor : s.DestructorOk clients

variable {t x : Nat} {q : CallbackQueue} {f : QueueFrame} {fs : List QueueFrame}

/-! ## Steps of the queue itself -/

/-- What such a step of thread `t` does: the stack of `t` keeps its root and the bodies of
control tasks that are under way, and the deque is left while a worker holds `mutex_`. -/
structure QueueMoves (n clients : Nat) (s : ThreadedQueue) (t : Nat) (q : CallbackQueue) :
    Prop where
  ledger : Inv n q
  later : s.queue.Later q
  front : q.invokerQueue.head? ≠ some none
  others : ∀ u, u ≠ t → u ≠ clients → q.thread u = s.queue.thread u
  root : ∀ root, isRoot root = true → Rooted root (s.queue.thread t) → Rooted root (q.thread t)
  unsignalled : ∀ f ∈ q.thread clients, ∃ x, f = .signal x
  body : ∀ x, IsUnderWay (s.control x) → .body x ∈ s.queue.thread t → .body x ∈ q.thread t
  quiet : s.popping ≠ none → q.invokerQueue = s.queue.invokerQueue ∧ q.mutexFree n = true

theorem isAlive_eq_true {u : Nat} : s.isAlive u = true ↔ s.queue.thread u ≠ [] := by simp [isAlive]

theorem isAlive_congr (hs' : s'.queue = s.queue) (u : Nat) : s'.isAlive u = s.isAlive u := by
  rw [isAlive, isAlive, hs']

theorem QueueOk.congr (h : s.QueueOk n clients) (hs' : s'.queue = s.queue) :
    s'.QueueOk n clients where
  ledger := hs' ▸ h.ledger
  chained := hs' ▸ h.chained
  front := hs' ▸ h.front
  clientRoot := hs' ▸ h.clientRoot
  workerRoot t ht halive := by
    rw [hs']
    exact h.workerRoot t ht ((isAlive_congr hs' t).symm.trans halive)
  unsignalled := hs' ▸ h.unsignalled

theorem ControlsOk.congr (h : s.ControlsOk n) (hs' : s'.queue = s.queue)
    (hcontrol : s'.control = s.control) (hresizing : s'.resizing = s.resizing)
    (hthreads : s'.threads = s.threads) : s'.ControlsOk n where
  body := by
    rw [hs', hcontrol]
    exact h.body
  owner := by
    rw [hresizing, hcontrol]
    exact h.owner
  sized := by
    rw [hresizing, hcontrol, hthreads]
    exact h.sized

/-- The workers that have not left are the same. -/
theorem QueueMoves.isAlive (h : QueueMoves n clients s t q) (hs : s.QueueOk n clients)
    (hst : s.queue.thread t = f :: fs) (hs' : s'.queue = q) {u : Nat} (hu : clients < u) :
    s'.isAlive u = s.isAlive u := by
  by_cases hut : u = t
  · subst hut
    have halive : s.isAlive u = true := isAlive_eq_true.mpr (by simp [hst])
    have hroot := h.root .loop rfl (hs.workerRoot u hu halive)
    rw [halive, isAlive_eq_true, hs']
    exact hroot.ne_nil
  · rw [ThreadedQueue.isAlive, ThreadedQueue.isAlive, hs', h.others u hut (by omega)]

theorem QueueOk.of_moves (h : s.QueueOk n clients) (hm : QueueMoves n clients s t q)
    (hst : s.queue.thread t = f :: fs) (hs' : s'.queue = q) : s'.QueueOk n clients where
  ledger := hs' ▸ hm.ledger
  chained := hs' ▸ h.chained.later hm.later
  front := hs' ▸ hm.front
  clientRoot u hu := by
    rw [hs']
    by_cases hut : u = t
    · subst hut
      exact hm.root .client rfl (h.clientRoot u hu)
    · rw [hm.others u hut (by omega)]
      exact h.clientRoot u hu
  workerRoot u hu halive := by
    rw [hm.isAlive h hst hs' hu] at halive
    rw [hs']
    by_cases hut : u = t
    · subst hut
      exact hm.root .loop rfl (h.workerRoot u hu halive)
    · rw [hm.others u hut (by omega)]
      exact h.workerRoot u hu halive
  unsignalled := hs' ▸ hm.unsignalled

theorem ControlsOk.of_moves (h : s.ControlsOk n) (hs : s.QueueOk n clients)
    (hm : QueueMoves n clients s t q) (hs' : s'.queue = q) (hcontrol : s'.control = s.control)
    (hresizing : s'.resizing = s.resizing) (hthreads : s'.threads = s.threads) :
    s'.ControlsOk n where
  body x hx := by
    rw [hcontrol] at hx
    obtain ⟨hkind, hlt, u, hu, hbody⟩ := h.body x hx
    rw [hs']
    refine ⟨(hm.later.kind x hlt).trans hkind, hlt.trans_le hm.later.count, u, hu, ?_⟩
    by_cases hut : u = t
    · subst hut
      exact hm.body x hx hbody
    · by_cases huc : u = clients
      · subst huc
        obtain ⟨y, hy⟩ := hs.unsignalled _ hbody
        cases hy
      · rwa [hm.others u hut huc]
  owner := by
    rw [hresizing, hcontrol]
    exact h.owner
  sized := by
    rw [hresizing, hcontrol, hthreads]
    exact h.sized

/-- The stages of a change only look at the workers. -/
theorem StageOk.congr {r : Resize} {stage : ResizeStage} (h : s.StageOk r stage)
    (hthreads : s'.threads = s.threads) (hindex : s'.threadIndex = s.threadIndex)
    (hnumber : s'.numberOfThreads = s.numberOfThreads)
    (halive : ∀ u ∈ s.threads, s'.isAlive u = s.isAlive u) : s'.StageOk r stage := by
  have hall : s.AllAlive → s'.AllAlive := fun h u hu ↦
    (halive u (hthreads ▸ hu)).trans (h u (hthreads ▸ hu))
  cases stage with
  | compared size =>
    simp only [StageOk, hthreads, hindex, hnumber] at h ⊢
    exact ⟨h.1, h.2.1, h.2.2.1, h.2.2.2.1, hall h.2.2.2.2⟩
  | growing left =>
    simp only [StageOk, hthreads, hindex, hnumber] at h ⊢
    exact ⟨h.1, h.2.1, hall h.2.2⟩
  | swapped thread0 | exchanged tmp =>
    simp only [StageOk, hthreads, hindex, hnumber] at h ⊢
    exact ⟨h.1, h.2.1, h.2.2.1, hall h.2.2.2.1, h.2.2.2.2⟩
  | shrinking =>
    simp only [StageOk, hthreads, hindex, hnumber] at h ⊢
    exact ⟨h.1, h.2.1, h.2.2.1, hall h.2.2.2⟩
  | joining =>
    simp only [StageOk, hthreads, hindex, hnumber] at h ⊢
    exact ⟨h.1, h.2.1, h.2.2.1, fun u hu ↦ (halive u (mem_of_mem_take hu)).trans (h.2.2.2 u hu)⟩
  | joined =>
    simp only [StageOk, hthreads, hindex, hnumber] at h ⊢
    exact ⟨h.1, h.2.1, h.2.2.1, fun u hu ↦
      (halive u (mem_of_mem_take hu)).trans (h.2.2.2.1 u hu), fun u hu ↦
      (halive u (mem_of_mem_drop hu)).trans (h.2.2.2.2 u hu)⟩

/-- `threads_` and the numbers stay, and so do the workers that have not left. -/
theorem ThreadsOk.congr (h : s.ThreadsOk n clients) (hthreads : s'.threads = s.threads)
    (hindex : s'.threadIndex = s.threadIndex) (hnumber : s'.numberOfThreads = s.numberOfThreads)
    (hresizing : s'.resizing = s.resizing) (hdestroying : s'.destroying = s.destroying)
    (halive : ∀ u, clients < u → s'.isAlive u = s.isAlive u) : s'.ThreadsOk n clients where
  nodup := hthreads ▸ h.nodup
  worker := hthreads ▸ h.worker
  mem u hu hualive := by
    rw [hthreads]
    exact h.mem u hu ((halive u hu).symm.trans hualive)
  free hnone := by
    obtain ⟨hlength, hindexed, hall⟩ := h.free (hresizing ▸ hnone)
    rw [hthreads, hindex, hnumber, hdestroying]
    refine ⟨hlength, hindexed, fun hd u hu ↦ ?_⟩
    rw [hthreads] at hu
    exact (halive u (h.worker u hu).1).trans (hall hd u hu)
  resizing r hr := by
    obtain ⟨hd, hstage⟩ := h.resizing r (hresizing ▸ hr)
    exact ⟨hdestroying ▸ hd, hstage.congr hthreads hindex hnumber fun u hu ↦
      halive u (h.worker u hu).1⟩

theorem PoppingOk.of_moves (h : s.PoppingOk n clients) (hm : QueueMoves n clients s t q)
    (hst : s.queue.thread t = f :: fs) (hf : s.popping ≠ none → f ≠ .loop) (hs' : s'.queue = q)
    (hpopping : s'.popping = s.popping) (hindex : s'.threadIndex = s.threadIndex)
    (hnumber : s'.numberOfThreads = s.numberOfThreads)
    (hdestroying : s'.destroying = s.destroying) : s'.PoppingOk n clients := by
  intro u stage hu
  rw [hpopping] at hu
  obtain ⟨⟨hclients, -, gs, hloop⟩, hreads⟩ := h u stage hu
  obtain ⟨hqueue, hfree⟩ := hm.quiet (by simp [hu])
  have hut : u ≠ t := by
    rintro rfl
    rw [hloop] at hst
    exact hf (by simp [hu]) (cons.inj hst).1.symm
  refine ⟨⟨hclients, hs' ▸ hfree, gs, ?_⟩, ?_⟩
  · rw [hs', hm.others u hut (by omega)]
    exact hloop
  · cases stage <;> simpa only [ReadsOk, hindex, hnumber, hdestroying, hs', hqueue] using hreads

theorem DestructorOk.of_moves (h : s.DestructorOk clients) (hs : s.QueueOk n clients)
    (hthreads : s.ThreadsOk n clients) (hm : QueueMoves n clients s t q)
    (hst : s.queue.thread t = f :: fs) (ht : t ≠ clients)
    (hclient : t < clients → s.destructor = .notCalled) (hs' : s'.queue = q)
    (hthreads' : s'.threads = s.threads) (hnumber : s'.numberOfThreads = s.numberOfThreads)
    (hdestroying : s'.destroying = s.destroying) (hdestructor : s'.destructor = s.destructor) :
    s'.DestructorOk clients where
  idle hd u hu := by
    rw [hdestructor] at hd
    have hut : u ≠ t := by
      rintro rfl
      exact hd (hclient hu)
    rw [hs', hm.others u hut (by omega)]
    exact h.idle hd u hu
  destroying := by
    rw [hdestroying, hdestructor]
    exact h.destroying
  someone hd hne := by
    rw [hdestroying] at hd
    have htc : clients < t := by
      by_contra hle
      have hnot := hclient (by omega)
      rcases h.destroying.mp hd with hj | hr
      · rw [hj] at hnot
        cases hnot
      · rw [hr] at hnot
        cases hnot
    have halive : s.isAlive t = true := isAlive_eq_true.mpr (by simp [hst])
    refine .inr ⟨t, hthreads' ▸ hthreads.mem t htc halive, ?_⟩
    rw [hm.isAlive hs hst hs' htc]
    exact halive
  left hd u hu := by
    rw [hdestructor] at hd
    rw [hthreads'] at hu
    rw [hm.isAlive hs hst hs' (hthreads.worker u hu).1]
    exact h.left hd u hu

/-- A step of the queue itself keeps the invariant. -/
theorem PoolInv.of_moves (h : s.PoolInv n clients) (hm : QueueMoves n clients s t q)
    (hst : s.queue.thread t = f :: fs) (hf : s.popping ≠ none → f ≠ .loop) (ht : t ≠ clients)
    (hclient : t < clients → s.destructor = .notCalled) (number : Nat → Nat)
    (inlined : List Nat) :
    PoolInv n clients { s with queue := q, number := number, inlined := inlined } where
  queue := h.queue.of_moves hm hst rfl
  controls := h.controls.of_moves h.queue hm rfl rfl rfl rfl
  threads := h.threads.congr rfl rfl rfl rfl rfl fun _ hu ↦ hm.isAlive h.queue hst rfl hu
  popping := h.popping.of_moves hm hst hf rfl rfl rfl rfl rfl
  destructor := h.destructor.of_moves h.queue h.threads hm hst ht hclient rfl rfl rfl rfl rfl

theorem mutexFree_iff {s : CallbackQueue} :
    s.mutexFree n = true ↔ ∀ u < n, mutexFrames (s.thread u) = [] := by
  simp [mutexFree, mutexFrames]

/-- A stack changes, with the same frames that hold `mutex_`. -/
theorem mutexFree_update {s : CallbackQueue} {stack : List QueueFrame} (h : s.mutexFree n = true)
    (hthread : q.thread = update s.thread t stack)
    (hframes : mutexFrames stack = mutexFrames (s.thread t)) (ht : t < n) :
    q.mutexFree n = true := by
  rw [mutexFree_iff] at h ⊢
  intro u hu
  rw [hthread]
  by_cases hut : u = t
  · subst hut
    rw [update_self, hframes]
    exact h u hu
  · rw [update_of_ne hut]
    exact h u hu

theorem PoolInv.mutexFree (h : s.PoolInv n clients) (hp : s.popping ≠ none) :
    s.queue.mutexFree n = true := by
  obtain ⟨⟨u, stage⟩, hu⟩ := Option.ne_none_iff_exists'.mp hp
  exact (h.popping u stage hu).1.2.1

/-- A step of the queue that takes `mutex_` only when no worker holds it in `pop`, and that ends
no function of a control task that is under way. -/
theorem QueueMoves.of_step {action : QueueAction} (h : s.PoolInv n clients) (ht : t < n)
    (htc : t ≠ clients) (hst : s.queue.thread t = f :: fs)
    (hs : s.queue.step n ⟨t, action⟩ = some q)
    (hmutex : action = .advance → wantsMutex f = true → s.popping = none)
    (hfinish : action = .finish → ∀ x, f = .body x → ¬IsUnderWay (s.control x)) :
    QueueMoves n clients s t q := by
  have heffect := StepEffect.of_step h.queue.front hst hs
  obtain ⟨stack, hthread, hgrows⟩ := heffect.stack
  have hself : q.thread t = stack := by rw [hthread, update_self]
  have hother : ∀ u, u ≠ t → q.thread u = s.queue.thread u := fun u hu ↦ by
    rw [hthread, update_of_ne hu]
  refine ⟨h.queue.ledger.step hs, heffect.later, heffect.front, fun u hu _ ↦ hother u hu,
    fun root hroot hr ↦ ?_, ?_, fun x hx hbody ↦ ?_, fun hp ↦ ?_⟩
  · rw [hself]
    exact hgrows.rooted hroot (hst ▸ hr)
  · rw [hother clients (Ne.symm htc)]
    exact h.queue.unsignalled
  · rw [hst] at hbody
    rw [hself]
    refine (hgrows.body_mem hbody).resolve_right ?_
    rintro ⟨hfx, haction⟩
    exact hfinish haction x hfx hx
  · have hfree := h.mutexFree hp
    have htouch : ¬TouchesDeque f action := by
      rintro ⟨haction, hwants | hholds⟩
      · exact hp (hmutex haction hwants)
      · have hany : (s.queue.thread t).any holdsMutex = true := by simp [hst, hholds]
        rw [not_mutexFree ht hany] at hfree
        cases hfree
    have hquiet := Quiet.of_step hst hs htouch
    obtain ⟨stack', hthread', hframes⟩ := hquiet.thread
    exact ⟨hquiet.queue, mutexFree_update hfree hthread' (hst ▸ hframes) ht⟩

/-- `push_control` calls the function itself. -/
theorem QueueMoves.callInline (h : s.PoolInv n clients) (ht : t < n) (htc : t ≠ clients)
    {futures : List Nat} (hst : s.queue.thread t = .mustWait [] (.pushControl x futures) :: fs) :
    QueueMoves n clients s t ((s.queue.setStatus x .running).setStack t (.invoke x :: fs)) := by
  have hother : ∀ u, u ≠ t →
      ((s.queue.setStatus x .running).setStack t (.invoke x :: fs)).thread u =
        s.queue.thread u := fun u hu ↦ update_of_ne hu ..
  have hgrows : Grows .advance (.mustWait [] (.pushControl x futures)) fs (.invoke x :: fs) :=
    .replace [.invoke x] (by simp [isRoot]) rfl (by simp)
  refine ⟨h.queue.ledger.callInline ht hst, .progress rfl rfl rfl rfl rfl, h.queue.front,
    fun u hu _ ↦ hother u hu, fun root hroot hr ↦ ?_, ?_, fun y hy hbody ↦ ?_, fun hp ↦ ⟨rfl, ?_⟩⟩
  · rw [setStack_thread, update_self]
    exact hgrows.rooted hroot (hst ▸ hr)
  · rw [hother clients (Ne.symm htc)]
    exact h.queue.unsignalled
  · rw [hst] at hbody
    rw [setStack_thread, update_self]
    exact (hgrows.body_mem hbody).resolve_right (by simp)
  · refine mutexFree_update (h.mutexFree hp) rfl ?_ ht
    rw [hst]
    rfl

/-- The frame of a call that is not made is left to the thread that never runs. -/
theorem QueueMoves.moveSignal (hm : QueueMoves n clients s t q) (hs : s.QueueOk n clients)
    (ht : t < n) (hclients : clients < n) (htc : t ≠ clients)
    (hqt : q.thread t = .signal x :: fs) :
    QueueMoves n clients s t
      ((q.setStack t fs).setStack clients (.signal x :: q.thread clients)) := by
  have hthread : ∀ u, u ≠ clients →
      ((q.setStack t fs).setStack clients (.signal x :: q.thread clients)).thread u =
        update q.thread t fs u := fun u hu ↦ update_of_ne hu ..
  have hself : ((q.setStack t fs).setStack clients (.signal x :: q.thread clients)).thread t =
      fs := by rw [hthread t htc, update_self]
  refine ⟨hm.ledger.moveFrame ht hclients (Ne.symm htc) hqt trivial,
    hm.later.congr rfl rfl rfl rfl, hm.front, fun u hu huc ↦ ?_, fun root hroot hr ↦ ?_,
    fun f hf ↦ ?_, fun y hy hbody ↦ ?_, fun hp ↦ ⟨(hm.quiet hp).1, ?_⟩⟩
  · rw [hthread u huc, update_of_ne hu]
    exact hm.others u hu huc
  · rw [hself]
    have hroot' := hm.root root hroot hr
    rw [hqt] at hroot'
    exact hroot'.tail rfl hroot
  · rw [setStack_thread, update_self] at hf
    rcases mem_cons.mp hf with rfl | hf
    · exact ⟨x, rfl⟩
    · exact hm.unsignalled f hf
  · rw [hself]
    have hmem := hm.body y hy hbody
    rw [hqt] at hmem
    exact (mem_cons.mp hmem).resolve_left (by simp)
  · rw [mutexFree_iff]
    intro u hu
    have hold := mutexFree_iff.mp (hm.quiet hp).2
    by_cases huc : u = clients
    · subst huc
      rw [setStack_thread, update_self]
      exact hold u hu
    · rw [hthread u huc]
      by_cases hut : u = t
      · subst hut
        rw [update_self]
        have hsignal := hold u hu
        rwa [hqt] at hsignal
      · rw [update_of_ne hut]
        exact hold u hu

/-! ## The steps of `pop` -/

/-- Only a worker has a loop, and nothing below it. -/
theorem QueueOk.of_loop (h : s.QueueOk n clients) (htc : t ≠ clients)
    (hst : s.queue.thread t = .loop :: fs) : clients < t ∧ fs = [] := by
  have hlt : clients < t := by
    by_contra hle
    have hroot := h.clientRoot t (by omega)
    rw [hst] at hroot
    cases (hroot.eq_singleton rfl).1
  have hroot := h.workerRoot t hlt (isAlive_eq_true.mpr (by simp [hst]))
  rw [hst] at hroot
  exact ⟨hlt, (hroot.eq_singleton rfl).2⟩

/-- Nothing changes but what a worker has read. -/
theorem PoolInv.setPopping (h : s.PoolInv n clients) {popping : Option (Nat × PopStage)}
    (hpopping : PoppingOk n clients { s with popping := popping }) :
    PoolInv n clients { s with popping := popping } where
  queue := h.queue.congr rfl
  controls := h.controls.congr rfl rfl rfl rfl
  threads := h.threads.congr rfl rfl rfl rfl rfl fun _ _ ↦ rfl
  popping := hpopping
  destructor := ⟨h.destructor.idle, h.destructor.destroying, h.destructor.someone,
    h.destructor.left⟩

/-- A worker gives `mutex_` back. -/
theorem PoolInv.release (h : s.PoolInv n clients) : PoolInv n clients { s with popping := none } :=
  h.setPopping fun _ _ hu ↦ absurd hu (by simp)

/-- A worker holds `mutex_` at a stage where what it has read is so. -/
theorem PoolInv.setStage (h : s.PoolInv n clients) (htc : t ≠ clients)
    (hst : s.queue.thread t = .loop :: fs) (hfree : s.queue.mutexFree n = true)
    {stage : PopStage} (hreads : s.ReadsOk t stage) :
    PoolInv n clients { s with popping := some (t, stage) } := by
  refine h.setPopping fun u stage' hu ↦ ?_
  obtain ⟨rfl, rfl⟩ := Prod.mk.inj (Option.some.inj hu)
  refine ⟨⟨(h.queue.of_loop htc hst).1, hfree, fs, hst⟩, ?_⟩
  cases stage <;> exact hreads

/-- The index of a worker is its place, and the workers up to `number_of_threads_` have places,
unless others are waited for. -/
theorem ThreadsOk.index_lt (h : s.ThreadsOk n clients) {u : Nat} (hu : u ∈ s.threads)
    (hstage : ∀ r, s.resizing = some r → r.stage ≠ .joining ∧ r.stage ≠ .joined) :
    s.threadIndex u < s.numberOfThreads := by
  obtain ⟨i, hi⟩ := mem_iff_getElem?.mp hu
  have hlt : i < s.threads.length := (List.getElem?_eq_some_iff.mp hi).1
  cases hr : s.resizing with
  | none =>
    obtain ⟨hlength, hindexed, -⟩ := h.free hr
    rw [hlength, hindexed i u hi]
    exact hlt
  | some r =>
    obtain ⟨-, hok⟩ := h.resizing r hr
    obtain ⟨hjoining, hjoined⟩ := hstage r hr
    cases hrs : r.stage with
    | compared size =>
      rw [hrs] at hok
      rw [hok.2.1, hok.2.2.2.1 i u hi]
      exact hlt
    | growing left =>
      rw [hrs] at hok
      rw [hok.1, hok.2.1 i u hi]
      omega
    | swapped thread0 =>
      rw [hrs] at hok
      rw [hok.1]
      exact hok.2.2.2.2.2 u hu
    | exchanged tmp =>
      rw [hrs] at hok
      rw [hok.1]
      exact hok.2.2.2.2 u hu
    | shrinking =>
      rw [hrs] at hok
      rw [hok.1, hok.2.2.1 i u hi]
      exact hlt
    | joining => exact absurd hrs hjoining
    | joined => exact absurd hrs hjoined

/-- Why a worker leaves its loop. -/
theorem PoolInv.leaves (h : s.PoolInv n clients) {index : Nat}
    (hp : s.popping = some (t, .canContinue index))
    (hno : ¬(index < s.numberOfThreads ∧ s.queue.invokerQueue ≠ [])) :
    s.numberOfThreads ≤ s.threadIndex t ∨ s.destroying = true ∧ s.queue.invokerQueue = [] := by
  obtain ⟨-, hiff, hqueue⟩ := h.popping t _ hp
  by_cases hlt : s.threadIndex t < s.numberOfThreads
  · have hnil : s.queue.invokerQueue = [] := by
      by_contra hne
      exact hno ⟨hiff.mpr hlt, hne⟩
    exact .inr ⟨(hqueue hlt).resolve_right (by simp [hnil]), hnil⟩
  · exact .inl (Nat.not_lt.mp hlt)

/-- A worker whose index is not below `number_of_threads_` is one that is waited for. -/
theorem ThreadsOk.leaves (h : s.ThreadsOk n clients) (ht : t ∈ s.threads)
    (hindex : s.numberOfThreads ≤ s.threadIndex t) : ∃ r, s.resizing = some r ∧
      (r.stage = .joining ∨ r.stage = .joined) := by
  by_contra hno
  have hlt := h.index_lt ht fun r hr ↦
    ⟨fun hj ↦ hno ⟨r, hr, .inl hj⟩, fun hj ↦ hno ⟨r, hr, .inr hj⟩⟩
  omega

/-- The workers that stay are not the one that leaves. -/
theorem ne_of_mem_take {k u : Nat} (hindexed : IndexedBy s.threadIndex s.threads)
    (hindex : k ≤ s.threadIndex t) (hu : u ∈ s.threads.take k) : u ≠ t := by
  rintro rfl
  obtain ⟨i, hi⟩ := mem_iff_getElem?.mp hu
  have hik : i < k := by
    by_contra hle
    rw [getElem?_take, if_neg hle] at hi
    cases hi
  rw [getElem?_take_of_lt hik] at hi
  have := hindexed i u hi
  omega

/-- The threads after worker `t` has left. -/
theorem ThreadsOk.leave (h : s.ThreadsOk n clients) (htc : clients < t)
    (halive : s.isAlive t = true)
    (hleave : s.numberOfThreads ≤ s.threadIndex t ∨ s.destroying = true) :
    ThreadsOk n clients { s with queue := s.queue.setStack t [], popping := none } := by
  have hmem := h.mem t htc halive
  have hother : ∀ u, u ≠ t → isAlive { s with
      queue := s.queue.setStack t [], popping := none } u = s.isAlive u := fun u hu ↦ by
    simp [isAlive, update_of_ne hu]
  have hself : isAlive { s with
      queue := s.queue.setStack t [], popping := none } t = false := by
    simp [isAlive]
  refine ⟨h.nodup, h.worker, fun u hu hualive ↦ ?_, fun hnone ↦ ?_, fun r hr ↦ ?_⟩
  · have hut : u ≠ t := by
      rintro rfl
      rw [hself] at hualive
      cases hualive
    exact h.mem u hu ((hother u hut).symm.trans hualive)
  · obtain ⟨hlength, hindexed, -⟩ := h.free hnone
    refine ⟨hlength, hindexed, fun hd ↦ ?_⟩
    rcases hleave with hindex | hdestroying
    · obtain ⟨r, hr, -⟩ := h.leaves hmem hindex
      rw [show s.resizing = none from hnone] at hr
      cases hr
    · rw [show s.destroying = false from hd] at hdestroying
      cases hdestroying
  · obtain ⟨hd, hok⟩ := h.resizing r hr
    refine ⟨hd, ?_⟩
    have hindex : s.numberOfThreads ≤ s.threadIndex t := hleave.resolve_right (by simp [hd])
    obtain ⟨r', hr', hstage⟩ := h.leaves hmem hindex
    obtain rfl : r' = r := Option.some.inj (hr'.symm.trans hr)
    rcases hstage with hstage | hstage
    · rw [hstage] at hok ⊢
      obtain ⟨hnumber, hlt, hindexed, htake⟩ := hok
      refine ⟨hnumber, hlt, hindexed, fun u hu ↦ ?_⟩
      rw [hother u (ne_of_mem_take hindexed (hnumber ▸ hindex) hu)]
      exact htake u hu
    · rw [hstage] at hok ⊢
      obtain ⟨hnumber, hlt, hindexed, htake, hdrop⟩ := hok
      refine ⟨hnumber, hlt, hindexed, fun u hu ↦ ?_, fun u hu ↦ ?_⟩
      · rw [hother u (ne_of_mem_take hindexed (hnumber ▸ hindex) hu)]
        exact htake u hu
      · by_cases hut : u = t
        · rw [hut]
          exact hself
        · rw [hother u hut]
          exact hdrop u hu

/-- A worker leaves its loop. -/
theorem PoolInv.leave (h : s.PoolInv n clients) (htc : t ≠ clients)
    (hst : s.queue.thread t = .loop :: fs)
    (hleave : s.numberOfThreads ≤ s.threadIndex t ∨
      s.destroying = true ∧ s.queue.invokerQueue = []) :
    PoolInv n clients { s with queue := s.queue.setStack t fs, popping := none } := by
  obtain ⟨hlt, rfl⟩ := h.queue.of_loop htc hst
  have halive : s.isAlive t = true := isAlive_eq_true.mpr (by simp [hst])
  have hother : ∀ u, u ≠ t → (s.queue.setStack t []).thread u = s.queue.thread u := fun u hu ↦
    update_of_ne hu ..
  refine ⟨⟨?_, ?_, h.queue.front, fun u hu ↦ ?_, fun u hu hualive ↦ ?_, ?_⟩, ⟨fun x hx ↦ ?_,
    h.controls.owner, h.controls.sized⟩, ?_, fun u stage hu ↦ absurd hu (by simp),
    ⟨fun hd u hu ↦ ?_, h.destructor.destroying, fun hd hne ↦ .inl ?_, fun hd u hu ↦ ?_⟩⟩
  · exact h.queue.ledger.setIdle (by rw [hst]; rfl) rfl (by simp)
  · exact h.queue.chained.later (.of_eq rfl rfl rfl rfl)
  · rw [hother u (by omega)]
    exact h.queue.clientRoot u hu
  · have hut : u ≠ t := by
      rintro rfl
      simp [isAlive] at hualive
    rw [hother u hut]
    refine h.queue.workerRoot u hu ?_
    simpa [isAlive, update_of_ne hut] using hualive
  · rw [hother clients (Ne.symm htc)]
    exact h.queue.unsignalled
  · obtain ⟨hkind, hcount, u, hu, hbody⟩ := h.controls.body x hx
    refine ⟨hkind, hcount, u, hu, ?_⟩
    have hut : u ≠ t := by
      rintro rfl
      rw [hst] at hbody
      simp at hbody
    rw [hother u hut]
    exact hbody
  · exact h.threads.leave hlt halive (hleave.imp_right And.left)
  · rw [hother u (by omega)]
    exact h.destructor.idle hd u hu
  · have hnone : s.resizing = none := by
      by_contra hsome
      obtain ⟨r, hr⟩ := Option.ne_none_iff_exists'.mp hsome
      have hfalse := (h.threads.resizing r hr).1
      rw [show s.destroying = true from hd] at hfalse
      cases hfalse
    have hindex := h.threads.index_lt (h.threads.mem t hlt halive) (by simp [hnone])
    exact (hleave.resolve_left (by omega)).2
  · by_cases hut : u = t
    · simp [hut, isAlive]
    · simpa [isAlive, update_of_ne hut] using h.destructor.left hd u hu

/-- The steps of `pop`, with what makes the worker take each. -/
inductive PopStep (n : Nat) (s : ThreadedQueue) (t : Nat) (fs : List QueueFrame) :
    ThreadedQueue → Prop
  | lock (hp : s.popping = none) (hfree : s.queue.mutexFree n = true) :
    PopStep n s t fs { s with popping := some (t, .onHold (s.threadIndex t)) }
  | wait (index : Nat) (hp : s.popping = some (t, .onHold index)) :
    PopStep n s t fs { s with popping := none }
  | pass (index : Nat) (hp : s.popping = some (t, .onHold index))
    (hpass : ¬(index < s.numberOfThreads ∧ s.destroying = false ∧ s.queue.invokerQueue = [])) :
    PopStep n s t fs { s with popping := some (t, .passed) }
  | popHoles (hp : s.popping = some (t, .passed)) : PopStep n s t fs { s with
      queue := { s.queue with invokerQueue := popFrontNullptr s.queue.invokerQueue }
      popping := some (t, .canContinue (s.threadIndex t)) }
  | take (index : Nat) (hp : s.popping = some (t, .canContinue index)) (q : CallbackQueue)
    (hq : s.queue.step n ⟨t, .advance⟩ = some q) :
    PopStep n s t fs { s with queue := q, popping := none }
  | leave (index : Nat) (hp : s.popping = some (t, .canContinue index))
    (hno : ¬(index < s.numberOfThreads ∧ s.queue.invokerQueue ≠ [])) :
    PopStep n s t fs { s with queue := s.queue.setStack t fs, popping := none }

theorem PopStep.of_pop (hs : s.pop n t fs = some s') : PopStep n s t fs s' := by
  unfold pop at hs
  cases hp : s.popping with
  | none =>
    simp only [hp, ite_some_iff] at hs
    obtain ⟨hfree, rfl⟩ := hs
    exact .lock hp hfree
  | some popping =>
    obtain ⟨u, stage⟩ := popping
    simp only [hp, Option.ite_none_right_eq_some] at hs
    obtain ⟨rfl, hs⟩ := hs
    cases stage with
    | onHold index =>
      simp only at hs
      split at hs
      · cases hs
        exact .wait index hp
      next hpass =>
        cases hs
        exact .pass index hp hpass
    | passed =>
      cases hs
      exact .popHoles hp
    | canContinue index =>
      simp only at hs
      split at hs
      · obtain ⟨q, hq, rfl⟩ := Option.map_eq_some_iff.mp hs
        exact .take index hp q hq
      next hno =>
        cases hs
        exact .leave index hp hno

/-- A worker takes a task, which is a step of the queue itself. -/
theorem QueueMoves.take (h : s.PoolInv n clients) (ht : t < n) (htc : t ≠ clients)
    (hst : s.queue.thread t = .loop :: fs) (hq : s.queue.step n ⟨t, .advance⟩ = some q) :
    QueueMoves n clients { s with popping := none } t q :=
  .of_step h.release ht htc hst hq (fun _ _ ↦ rfl) (by simp)

/-- The steps of `pop` keep the invariant. -/
theorem PoolInv.pop (h : s.PoolInv n clients) (ht : t < n) (htc : t ≠ clients)
    (hst : s.queue.thread t = .loop :: fs) (hs : s.pop n t fs = some s') :
    s'.PoolInv n clients := by
  cases PopStep.of_pop hs with
  | lock hp hfree => exact h.setStage htc hst hfree Iff.rfl
  | wait index hp => exact h.release
  | pass index hp hpass =>
    obtain ⟨⟨-, hfree, -⟩, hreads⟩ := h.popping t _ hp
    refine h.setStage htc hst hfree fun hlt ↦ ?_
    by_contra hno
    simp only [not_or, Bool.not_eq_true, not_not] at hno
    exact hpass ⟨hreads.mpr hlt, hno.1, hno.2⟩
  | popHoles hp =>
    obtain ⟨⟨-, hfree, -⟩, hreads⟩ := h.popping t _ hp
    rw [popFrontNullptr_eq_self h.queue.front]
    exact h.setStage htc hst hfree ⟨Iff.rfl, hreads⟩
  | take index hp q hq =>
    refine h.release.of_moves (.take h ht htc hst hq) hst (fun hne ↦ absurd rfl hne) htc
      (fun hlt ↦ ?_) s.number s.inlined
    have := (h.queue.of_loop htc hst).1
    omega
  | leave index hp hno => exact h.leave htc hst (h.leaves hp hno)

end Hisab.Parallel.ThreadedQueue
