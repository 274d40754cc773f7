import Hisab.Parallel.ThreadedResize

/-!
# When a worker leaves its loop

The invariant holds in every state of the queue with its threads, so that a worker leaves its
loop only if its index is past `number_of_threads_`, or if the queue is destroyed and no task is
left. A task of the deque is called at some time, unless it stays there; and when the destructor
has returned, none is left there.
-/

namespace Hisab.Parallel.ThreadedQueue

open Base CallbackQueue Function Option ThreadedQueue List

variable {n clients t x : Nat} {s s' : ThreadedQueue} {q : CallbackQueue} {f : QueueFrame}
  {fs : List QueueFrame} {action : QueueAction}

/-! ## The invariant in every state -/

theorem PoolInv.start (n clients : Nat) : PoolInv n clients (start clients) := by
  have hthread : ∀ u, (ThreadedQueue.start clients).queue.thread u =
      if u < clients then [.client] else [] := fun _ ↦ rfl
  refine ⟨⟨?_, ⟨fun x hx ↦ absurd hx (Nat.not_lt_zero x), fun y hy ↦ absurd hy (Nat.not_lt_zero y)⟩,
    by simp [ThreadedQueue.start], fun u hu ↦ ?_, fun u hu hualive ↦ ?_, ?_⟩,
    ⟨fun x hx ↦ hx.elim, fun hne ↦ absurd rfl hne, fun _ _ hx ↦ (nomatch hx)⟩,
    ⟨.nil, by simp [ThreadedQueue.start], fun u hu hualive ↦ ?_,
      fun _ ↦ ⟨rfl, by simp [IndexedBy, ThreadedQueue.start],
        fun _ ↦ by simp [AllAlive, ThreadedQueue.start]⟩, fun _ hr ↦ (nomatch hr)⟩,
    fun _ _ hp ↦ (nomatch hp),
    ⟨fun hne ↦ absurd rfl hne, by simp [ThreadedQueue.start], fun hd ↦ (nomatch hd),
      fun hd ↦ (nomatch hd)⟩⟩
  · refine (Inv.start n 0).of_roles rfl rfl rfl rfl rfl (.of_eq (held_congr fun u _ ↦ ?_))
      fun u _ f hf ↦ ?_
    · rw [hthread]
      split <;> rfl
    · rw [hthread] at hf
      split at hf
      · exact .inl hf
      · cases hf
  · rw [hthread, if_pos hu]
    exact ⟨[], rfl, by simp⟩
  · rw [isAlive_eq_true, hthread, if_neg (by omega)] at hualive
    exact absurd rfl hualive
  · rw [hthread]
    simp
  · rw [isAlive_eq_true, hthread, if_neg (by omega)] at hualive
    exact absurd rfl hualive

/-- `destroying_` is set by the second step of the destructor. -/
theorem PoolInv.not_destroying (h : s.PoolInv n clients)
    (hd : s.destructor = .notCalled ∨ s.destructor = .called) : s.destroying = false := by
  by_contra htrue
  rcases h.destructor.destroying.mp (by simpa using htrue) with hj | hr
  · simp [hj] at hd
  · simp [hr] at hd

/-- The steps of the destructor keep the invariant. -/
theorem PoolInv.destroy (h : s.PoolInv n clients) (hs : s.destroy n clients = some s') :
    s'.PoolInv n clients := by
  have hreads : ∀ {destroying : Bool} {destructor : DestructorStage}, s.popping = none →
      PoppingOk n clients { s with destroying := destroying, destructor := destructor } :=
    fun hp _ _ hu ↦ absurd (hp.symm.trans hu) (by simp)
  unfold ThreadedQueue.destroy at hs
  cases hd : s.destructor with
  | notCalled =>
    simp only [hd, ite_some_iff] at hs
    obtain ⟨hidle, rfl⟩ := hs
    have hdestroying : ¬s.destroying = true := by simp [h.not_destroying (.inl hd)]
    exact ⟨h.queue.congr rfl, h.controls.congr rfl rfl rfl rfl,
      h.threads.congr rfl rfl rfl rfl rfl fun _ _ ↦ rfl,
      fun u stage hu ↦ ⟨(h.popping u stage hu).1, (h.popping u stage hu).2.congr rfl rfl rfl rfl⟩,
      ⟨fun _ u hu ↦ by simpa using all_eq_true.mp hidle u (mem_range.mpr hu),
        by simpa using hdestroying, fun htrue ↦ absurd htrue hdestroying, by simp⟩⟩
  | called =>
    simp only [hd, ite_some_iff] at hs
    obtain ⟨⟨hnone, -, hp⟩, rfl⟩ := hs
    obtain ⟨hlength, hindexed, hall⟩ := h.threads.free hnone
    have hdestroying : s.destroying = false := h.not_destroying (.inr hd)
    refine ⟨h.queue.congr rfl, h.controls.congr rfl rfl rfl rfl,
      ⟨h.threads.nodup, h.threads.worker, h.threads.mem,
        fun _ ↦ ⟨hlength, hindexed, by simp⟩, fun r hr ↦ absurd (hnone.symm.trans hr) (by simp)⟩,
      hreads hp, ⟨fun _ ↦ h.destructor.idle (by simp [hd]), by simp, fun _ hne ↦ .inr ?_, by simp⟩⟩
    obtain ⟨u, hu⟩ := exists_mem_of_ne_nil s.threads fun hnil ↦ by
      rw [hnil] at hlength
      exact hne hlength
    exact ⟨u, hu, hall hdestroying u hu⟩
  | joining =>
    simp only [hd, ite_some_iff] at hs
    obtain ⟨hleft, rfl⟩ := hs
    have hdestroying : s.destroying = true := h.destructor.destroying.mpr (.inl hd)
    exact ⟨h.queue.congr rfl, h.controls.congr rfl rfl rfl rfl,
      h.threads.congr rfl rfl rfl rfl rfl fun _ _ ↦ rfl,
      fun u stage hu ↦ ⟨(h.popping u stage hu).1, (h.popping u stage hu).2.congr rfl rfl rfl rfl⟩,
      ⟨fun _ ↦ h.destructor.idle (by simp [hd]), by simp [hdestroying], h.destructor.someone,
        fun _ u hu ↦ by simpa [isAlive] using all_eq_true.mp hleft u hu⟩⟩
  | returned =>
    simp only [hd] at hs
    cases hs

/-- A step of the queue itself. -/
theorem PoolInv.inner (h : s.PoolInv n clients) (ht : t < n) (htc : t ≠ clients)
    (hclient : t < clients → s.destructor = .notCalled) (hst : s.queue.thread t = f :: fs)
    (hf : f ≠ .loop) (hs : s.inner n ⟨t, action⟩ = some s')
    (hmutex : action = .advance → wantsMutex f = true → s.popping = none)
    (hfinish : action ≠ .finish) : s'.PoolInv n clients := by
  obtain ⟨q, hq, rfl⟩ := map_eq_some_iff.mp hs
  exact h.of_moves (.of_step h ht htc hst hq hmutex fun hf ↦ absurd hf hfinish) hst (fun _ ↦ hf) htc
    hclient s.number s.inlined

/-- The next step of the innermost frame keeps the invariant. -/
theorem PoolInv.advance (h : s.PoolInv n clients) (ht : t < n) (htc : t ≠ clients)
    (hclient : t < clients → s.destructor = .notCalled) (hst : s.queue.thread t = f :: fs)
    (hs : s.advance n clients t fs f = some s') : s'.PoolInv n clients := by
  unfold ThreadedQueue.advance at hs
  split at hs
  · exact h.pop ht htc hst hs
  next x =>
    simp only [ite_none_right_eq_some] at hs
    exact h.runControl ht (hst ▸ mem_cons_self) hs.1 hs.2
  next x futures =>
    split at hs
    · cases hs
      exact h.of_moves (.callInline h ht htc hst) hst (by simp) htc hclient s.number _
    · exact h.inner ht htc hclient hst (by simp) hs (by simp [wantsMutex]) (by simp)
  next hloop _ _ =>
    split at hs
    · cases hs
    next hguard =>
      refine h.inner ht htc hclient hst hloop hs (fun _ hwants ↦ ?_) (by simp)
      simpa [hwants] using hguard

/-- What `finish` makes of the stack. -/
theorem thread_of_finish {s : CallbackQueue} (hst : s.thread t = .body x :: fs)
    (hs : s.step n ⟨t, .finish⟩ = some q) : q.thread t = .signal x :: fs := by
  simp only [CallbackQueue.step, hst, CallbackQueue.finish, ite_none_right_eq_some,
    some.injEq] at hs
  obtain ⟨-, -, rfl⟩ := hs
  exact update_self ..

/-- The return of a function keeps the invariant. -/
theorem PoolInv.finish (h : s.PoolInv n clients) (hclients : clients < n) (ht : t < n)
    (htc : t ≠ clients) (hclient : t < clients → s.destructor = .notCalled)
    (hst : s.queue.thread t = .body x :: fs) (hs : s.finish n clients t x fs = some s') :
    s'.PoolInv n clients := by
  obtain ⟨hreturned, hs⟩ := ite_none_left_eq_some.mp hs
  obtain ⟨q, hq, rfl⟩ := map_eq_some_iff.mp hs
  have hm : QueueMoves n clients s t q := by
    refine .of_step h ht htc hst hq (by simp) fun _ y hy hunder ↦ hreturned ?_
    cases hy
    refine ⟨(h.controls.body x hunder).1, fun hret ↦ ?_⟩
    rw [hret] at hunder
    exact hunder
  split
  · exact h.of_moves (hm.moveSignal h.queue ht hclients htc (thread_of_finish hst hq)) hst (by simp)
      htc hclient s.number s.inlined
  · exact h.of_moves hm hst (by simp) htc hclient s.number s.inlined

/-- A call is made by a client or by a task. -/
theorem ne_loop_of_call {s : CallbackQueue} (hst : s.thread t = f :: fs)
    (hs : s.step n ⟨t, action⟩ = some q) (hadvance : action ≠ .advance) : f ≠ .loop := by
  rintro rfl
  simp only [CallbackQueue.step, hst, runsUserCode, ite_none_right_eq_some] at hs
  cases action with
  | advance => exact hadvance rfl
  | _ => simp at hs

theorem mayRun_iff : s.mayRun n clients t = true ↔ clients < n ∧ t < n ∧ t ≠ clients ∧
    (t < clients → s.destructor = .notCalled) ∧ s.destructor ≠ .returned := by
  simp only [mayRun, Bool.and_eq_true, Bool.or_eq_true, decide_eq_true_eq]
  constructor
  · rintro ⟨⟨⟨⟨h1, h2⟩, h3⟩, h4⟩, h5⟩
    exact ⟨h1, h2, h3, fun hlt ↦ h4.resolve_left (by omega), h5⟩
  · rintro ⟨h1, h2, h3, h4, h5⟩
    refine ⟨⟨⟨⟨h1, h2⟩, h3⟩, ?_⟩, h5⟩
    by_cases hle : clients ≤ t
    · exact .inl hle
    · exact .inr (h4 (by omega))

theorem PoolInv.step (h : s.PoolInv n clients) {l : ThreadedStep}
    (hs : s.step n clients l = some s') : s'.PoolInv n clients := by
  cases l with
  | destroy => exact h.destroy hs
  | setNumberOfThreads t number =>
    obtain ⟨hrun, hs⟩ := ite_none_right_eq_some.mp hs
    obtain ⟨-, ht, htc, hclient, -⟩ := mayRun_iff.mp hrun
    obtain ⟨q, hq, rfl⟩ := map_eq_some_iff.mp hs
    cases hst : s.queue.thread t with
    | nil => simp [CallbackQueue.step, hst] at hq
    | cons f fs =>
      exact h.of_moves (.of_step h ht htc hst hq (by simp) (by simp)) hst
        (fun _ ↦ ne_loop_of_call hst hq (by simp)) htc hclient _ s.inlined
  | run t action =>
    obtain ⟨hrun, hs⟩ := ite_none_right_eq_some.mp hs
    obtain ⟨hclients, ht, htc, hclient, -⟩ := mayRun_iff.mp hrun
    cases hst : s.queue.thread t with
    | nil => simp [hst] at hs
    | cons f fs =>
      simp only [hst] at hs
      cases action with
      | advance => exact h.advance ht htc hclient hst hs
      | pushControl => cases hs
      | finish =>
        cases f with
        | body x => exact h.finish hclients ht htc hclient hst hs
        | _ => cases hs
      | push _ | pushDependent _ _ | wait _ =>
        obtain ⟨q, hq, -⟩ := map_eq_some_iff.mp hs
        exact h.inner ht htc hclient hst (ne_loop_of_call hst hq (by simp)) hs (by simp) (by simp)

theorem PoolInv.of_reachable (h : (system n clients).Reachable s) : PoolInv n clients s := by
  refine h.invariant ?_ fun _ _ _ hs hstep ↦ hs.step hstep
  rintro s rfl
  exact .start n clients

/-! ## No task is lost -/

/-- Task `x` is in the deque, about to be called, or was called. -/
def Pending (n : Nat) (q : CallbackQueue) (x : Nat) : Prop :=
  some x ∈ q.invokerQueue ∨ (∃ t < n, .invoke x ∈ q.thread t) ∨ x ∈ q.entered

/-- Task `x` was called, and no thread is in its function any more. -/
def Executed (n : Nat) (s : ThreadedQueue) (x : Nat) : Prop :=
  x ∈ s.queue.entered ∧ ∀ t < n, .body x ∉ s.queue.thread t

theorem Pending.of_effect {p : CallbackQueue} (h : Pending n p x) (ht : t < n)
    (hst : p.thread t = f :: fs) (he : StepEffect p t action f fs q) : Pending n q x := by
  obtain ⟨stack, hthread, hgrows⟩ := he.stack
  rcases h with hqueue | ⟨u, hu, hinvoke⟩ | hentered
  · rcases he.taken x hqueue with hqueue | hinvoke
    · exact .inl hqueue
    · exact .inr (.inl ⟨t, ht, hinvoke⟩)
  · by_cases hut : u = t
    · subst hut
      rw [hst] at hinvoke
      rcases mem_cons.mp hinvoke with hf | hmem
      · exact .inr (.inr (he.invoked x hf.symm))
      · refine .inr (.inl ⟨u, hu, ?_⟩)
        rw [hthread, update_self]
        exact hgrows.mem hmem (by simp)
    · refine .inr (.inl ⟨u, hu, ?_⟩)
      rw [hthread, update_of_ne hut]
      exact hinvoke
  · exact .inr (.inr (he.later.entered hentered))

/-- The deque loses at most holes, and a thread only frames that call nothing. -/
theorem Pending.of_frames {p : CallbackQueue} (h : Pending n p x)
    (hqueue : some x ∈ p.invokerQueue → some x ∈ q.invokerQueue)
    (hframes : ∀ u, .invoke x ∈ p.thread u → .invoke x ∈ q.thread u)
    (hentered : q.entered = p.entered) : Pending n q x := by
  rcases h with h | ⟨u, hu, hinvoke⟩ | h
  · exact .inl (hqueue h)
  · exact .inr (.inl ⟨u, hu, hframes u hinvoke⟩)
  · exact .inr (.inr (hentered ▸ h))

/-- A stack is replaced by one that calls as much. -/
theorem invoke_mem_setStack {p : CallbackQueue} {stack : List QueueFrame}
    (hstack : .invoke x ∈ p.thread t → .invoke x ∈ stack) {u : Nat}
    (hu : .invoke x ∈ p.thread u) : .invoke x ∈ (p.setStack t stack).thread u := by
  by_cases hut : u = t
  · subst hut
    rw [setStack_thread, update_self]
    exact hstack hu
  · rw [setStack_thread, update_of_ne hut]
    exact hu

theorem PoolInv.pending_inner (h : s.PoolInv n clients) (ht : t < n)
    (hst : s.queue.thread t = f :: fs) (hs : s.inner n ⟨t, action⟩ = some s')
    (hx : Pending n s.queue x) : Pending n s'.queue x := by
  obtain ⟨q, hq, rfl⟩ := map_eq_some_iff.mp hs
  exact hx.of_effect ht hst (.of_step h.queue.front hst hq)

theorem PoolInv.pending_pop (h : s.PoolInv n clients) (ht : t < n)
    (hst : s.queue.thread t = .loop :: fs) (hs : s.pop n t fs = some s')
    (hx : Pending n s.queue x) : Pending n s'.queue x := by
  cases PopStep.of_pop hs with
  | lock _ _ | wait _ _ | pass _ _ _ => exact hx
  | popHoles _ => exact hx.of_frames (mem_popFrontNullptr _ x).mpr (fun _ ↦ id) rfl
  | take _ _ q hq => exact hx.of_effect ht hst (.of_step h.queue.front hst hq)
  | leave _ _ _ =>
    refine hx.of_frames id (fun v hv ↦ invoke_mem_setStack (fun hmem ↦ ?_) hv) rfl
    rw [hst] at hmem
    exact (mem_cons.mp hmem).resolve_left (by simp)

/-- The function of a control task only starts threads. -/
theorem pending_runControl {y : Nat} (hs : s.runControl n clients t y = some s')
    (hx : Pending n s.queue x) : Pending n s'.queue x := by
  suffices hsame : s'.queue = s.queue ∨ ∃ u, s.queue.thread u = [] ∧
      s'.queue = s.queue.setStack u [.loop] by
    rcases hsame with hsame | ⟨u, hnil, hsame⟩
    · rwa [hsame]
    · rw [hsame]
      refine hx.of_frames id (fun v hv ↦ invoke_mem_setStack (fun hmem ↦ ?_) hv) rfl
      rw [hnil] at hmem
      cases hmem
  unfold runControl at hs
  cases hy : s.control y with
  | entered =>
    simp only [hy] at hs
    cases hs
    exact .inl rfl
  | sized size =>
    simp only [hy, ite_none_right_eq_some] at hs
    obtain ⟨-, hs⟩ := hs
    split at hs
    · cases hs
      exact .inl rfl
    · cases hs
      exact .inl rfl
  | resizing =>
    simp only [hy] at hs
    obtain ⟨r, -, hs⟩ := bind_eq_some_iff.mp hs
    unfold resize at hs
    cases hrs : r.stage with
    | compared size =>
      simp only [hrs, swapThreads] at hs
      split at hs
      · cases hs
        exact .inl rfl
      · split at hs
        · split at hs
          · split at hs
            · cases hs
              exact .inl rfl
            · cases hs
              exact .inl rfl
          · cases hs
        · cases hs
          exact .inl rfl
    | growing left =>
      cases left with
      | zero =>
        simp only [hrs] at hs
        cases hs
        exact .inl rfl
      | succ left =>
        simp only [hrs] at hs
        obtain ⟨u, hu, rfl⟩ := map_eq_some_iff.mp hs
        have hfind := find?_some hu
        simp only [Bool.and_eq_true] at hfind
        exact .inr ⟨u, by simpa [isAlive] using hfind.1.2, rfl⟩
    | swapped _ | exchanged _ | joined =>
      simp only [hrs] at hs
      cases hs
      exact .inl rfl
    | shrinking | joining =>
      simp only [hrs, ite_some_iff] at hs
      obtain ⟨-, rfl⟩ := hs
      exact .inl rfl
  | returned =>
    simp only [hy] at hs
    cases hs

theorem PoolInv.pending_advance (h : s.PoolInv n clients) (ht : t < n)
    (hst : s.queue.thread t = f :: fs) (hs : s.advance n clients t fs f = some s')
    (hx : Pending n s.queue x) : Pending n s'.queue x := by
  unfold ThreadedQueue.advance at hs
  split at hs
  · exact h.pending_pop ht hst hs hx
  · simp only [ite_none_right_eq_some] at hs
    exact pending_runControl hs.2 hx
  · split at hs
    · cases hs
      refine hx.of_frames id (fun v hv ↦ invoke_mem_setStack (fun hmem ↦ ?_) hv) rfl
      have hmem : .invoke x ∈ s.queue.thread t := hmem
      rw [hst] at hmem
      exact mem_cons_of_mem _ ((mem_cons.mp hmem).resolve_left (by simp))
    · exact h.pending_inner ht hst hs hx
  · split at hs
    · cases hs
    · exact h.pending_inner ht hst hs hx

theorem PoolInv.pending_finish {y : Nat} (h : s.PoolInv n clients) (ht : t < n)
    (hst : s.queue.thread t = .body y :: fs) (hs : s.finish n clients t y fs = some s')
    (hx : Pending n s.queue x) : Pending n s'.queue x := by
  simp only [ThreadedQueue.finish, ite_none_left_eq_some] at hs
  obtain ⟨q, hq, rfl⟩ := map_eq_some_iff.mp hs.2
  have hqx : Pending n q x := hx.of_effect ht hst (.of_step h.queue.front hst hq)
  split
  · refine hqx.of_frames id (fun v hv ↦ invoke_mem_setStack (fun hmem ↦ ?_)
      (invoke_mem_setStack (fun hmem ↦ ?_) hv)) rfl
    · by_cases hct : clients = t
      · subst hct
        rw [setStack_thread, update_self] at hmem
        refine mem_cons_of_mem _ ?_
        rw [thread_of_finish hst hq]
        exact mem_cons_of_mem _ hmem
      · rw [setStack_thread, update_of_ne hct] at hmem
        exact mem_cons_of_mem _ hmem
    · rw [thread_of_finish hst hq] at hmem
      exact (mem_cons.mp hmem).resolve_left (by simp)
  · exact hqx

theorem PoolInv.pending_step (h : s.PoolInv n clients) {l : ThreadedStep}
    (hs : s.step n clients l = some s') (hx : Pending n s.queue x) : Pending n s'.queue x := by
  cases l with
  | destroy =>
    simp only [ThreadedQueue.step] at hs
    unfold ThreadedQueue.destroy at hs
    cases hd : s.destructor with
    | notCalled | called | joining =>
      simp only [hd, ite_some_iff] at hs
      obtain ⟨-, rfl⟩ := hs
      exact hx
    | returned =>
      simp only [hd] at hs
      cases hs
  | setNumberOfThreads t number =>
    obtain ⟨hrun, hs⟩ := ite_none_right_eq_some.mp hs
    obtain ⟨-, ht, -⟩ := mayRun_iff.mp hrun
    obtain ⟨q, hq, rfl⟩ := map_eq_some_iff.mp hs
    cases hst : s.queue.thread t with
    | nil => simp [CallbackQueue.step, hst] at hq
    | cons f fs => exact hx.of_effect ht hst (.of_step h.queue.front hst hq)
  | run t action =>
    obtain ⟨hrun, hs⟩ := ite_none_right_eq_some.mp hs
    obtain ⟨-, ht, -⟩ := mayRun_iff.mp hrun
    cases hst : s.queue.thread t with
    | nil => simp [hst] at hs
    | cons f fs =>
      simp only [hst] at hs
      cases action with
      | advance => exact h.pending_advance ht hst hs hx
      | pushControl => cases hs
      | finish =>
        cases f with
        | body y => exact h.pending_finish ht hst hs hx
        | _ => cases hs
      | push _ | pushDependent _ _ | wait _ => exact h.pending_inner ht hst hs hx

theorem PoolInv.pending_run (h : s.PoolInv n clients) {ls : List ThreadedStep}
    (hrun : (system n clients).Run s ls s') (hx : Pending n s.queue x) :
    s'.PoolInv n clients ∧ Pending n s'.queue x :=
  hrun.invariant (I := fun s ↦ PoolInv n clients s ∧ Pending n s.queue x)
    (fun _ _ _ hs hstep ↦ ⟨hs.1.step hstep, hs.1.pending_step hstep hs.2⟩) ⟨h, hx⟩

/-! ## The end -/

/-- When the destructor has returned, no thread is in a function. -/
theorem PoolInv.idle (h : s.PoolInv n clients) (hd : s.destructor = .returned) (t : Nat) :
    ∀ f ∈ s.queue.thread t, f = .client ∨ ∃ x, f = .signal x := by
  intro f hf
  rcases Nat.lt_trichotomy t clients with hlt | rfl | hgt
  · rw [h.destructor.idle (by simp [hd]) t hlt] at hf
    exact .inl (mem_singleton.mp hf)
  · exact .inr (h.queue.unsignalled f hf)
  · have halive : s.isAlive t = true := isAlive_eq_true.mpr (ne_nil_of_mem hf)
    have hleft := h.destructor.left hd t (h.threads.mem t hgt halive)
    rw [halive] at hleft
    cases hleft

/-- A task that was not lost was executed when the destructor of a queue with threads has
returned. -/
theorem PoolInv.executed (h : s.PoolInv n clients) (hd : s.destructor = .returned)
    (hne : s.numberOfThreads ≠ 0) (hx : Pending n s.queue x) : s.Executed n x := by
  have hdestroying := h.destructor.destroying.mpr (.inr hd)
  have hnil : s.queue.invokerQueue = [] := by
    refine (h.destructor.someone hdestroying hne).resolve_right ?_
    rintro ⟨u, hu, halive⟩
    rw [h.destructor.left hd u hu] at halive
    cases halive
  have hno : ∀ t, .invoke x ∉ s.queue.thread t ∧ .body x ∉ s.queue.thread t := by
    intro t
    constructor
    · intro hmem
      rcases h.idle hd t _ hmem with hf | ⟨y, hf⟩ <;> cases hf
    · intro hmem
      rcases h.idle hd t _ hmem with hf | ⟨y, hf⟩ <;> cases hf
  refine ⟨?_, fun t _ ↦ (hno t).2⟩
  rcases hx with hx | ⟨t, -, hx⟩ | hx
  · rw [hnil] at hx
    cases hx
  · exact absurd hx (hno t).1
  · exact hx

/-- A worker that leaves its loop. -/
theorem PoolInv.of_left (h : s.PoolInv n clients)
    (hst : s.queue.thread t = .loop :: fs) (hs : s.step n clients (.run t .advance) = some s')
    (hleft : s'.queue.thread t = fs) :
    s.numberOfThreads ≤ s.threadIndex t ∨ s.destroying = true ∧ s.queue.invokerQueue = [] := by
  simp only [ThreadedQueue.step, ite_none_right_eq_some, hst] at hs
  obtain ⟨hrun, hs⟩ := hs
  obtain ⟨-, ht, htc, -⟩ := mayRun_iff.mp hrun
  have hstays : s'.queue.thread t ≠ .loop :: fs := by simp [hleft]
  cases PopStep.of_pop hs with
  | lock _ _ | wait _ _ | pass _ _ _ | popHoles _ => exact absurd hst hstays
  | take _ _ q hq =>
    have hlt := (h.queue.of_loop htc hst).1
    have hroot := (QueueMoves.take h ht htc hst hq).root .loop rfl
      (h.queue.workerRoot t hlt (isAlive_eq_true.mpr (by simp [hst])))
    obtain rfl := (h.queue.of_loop htc hst).2
    exact absurd hleft hroot.ne_nil
  | leave _ hp hno => exact h.leaves hp hno

/-- In every state, with any number of threads and clients, whatever changes of the number of
threads there were: a deque that is not empty begins with a task. `pop` returns false only to a
worker whose index is not below `number_of_threads_`, or when the queue is destroyed and its deque
is empty. And what is in the deque is executed before the destructor returns, unless there are
no threads then. -/
theorem worker_leaves_rightly (n clients : Nat) (s : ThreadedQueue)
    (h : (system n clients).Reachable s) :
    (s.queue.invokerQueue ≠ [] → ∃ x q, s.queue.invokerQueue = some x :: q) ∧
    (∀ t fs s', s.queue.thread t = .loop :: fs → s.step n clients (.run t .advance) = some s' →
      s'.queue.thread t = fs →
        s.numberOfThreads ≤ s.threadIndex t ∨ s.destroying = true ∧ s.queue.invokerQueue = []) ∧
    ∀ ls s', (system n clients).Run s ls s' → s'.destructor = .returned →
      s'.numberOfThreads ≠ 0 → ∀ x, some x ∈ s.queue.invokerQueue → s'.Executed n x := by
  have hinv := PoolInv.of_reachable h
  refine ⟨fun hne ↦ ?_, fun t fs s' hst hs hleft ↦ hinv.of_left hst hs hleft,
    fun ls s' hrun hd hthreads x hx ↦ ?_⟩
  · cases hq : s.queue.invokerQueue with
    | nil => exact absurd hq hne
    | cons a q =>
      cases a with
      | none => exact absurd (by rw [hq]; rfl) hinv.queue.front
      | some x => exact ⟨x, q, rfl⟩
  · obtain ⟨hinv', hpending⟩ := hinv.pending_run hrun (.inl hx)
    exact hinv'.executed hd hthreads hpending

/-- A client starts a worker and pushes a task. -/
def pushOne : List ThreadedStep :=
  [.setNumberOfThreads 0 1, .run 0 .advance, .run 0 .advance, .run 0 .advance, .run 0 .advance,
    .run 0 .advance, .run 0 .advance, .run 0 .advance, .run 0 .finish, .run 0 (.push false),
    .run 0 .advance]

/-- The destructor is called, and the worker executes the task before it leaves. -/
def destroyIt : List ThreadedStep :=
  [.destroy, .destroy, .run 2 .advance, .run 2 .advance, .run 2 .advance, .run 2 .advance,
    .run 2 .advance, .run 2 .finish, .run 2 .advance, .run 2 .advance, .run 2 .advance,
    .run 2 .advance, .run 2 .advance, .run 2 .advance, .destroy]

/-- The task in the deque is executed. -/
theorem pushed_executed : ∃ s s', (system 3 1).Reachable s ∧
    s.queue.invokerQueue = [some 1] ∧ (system 3 1).Run s destroyIt s' ∧
    s'.destructor = .returned ∧ s'.Executed 3 1 := by
  have hpushed : (pushOne.foldlM (step 3 1) (start 1)).map (fun s ↦ s.queue.invokerQueue) =
      some [some 1] := by decide +kernel
  have hdestroyed : ((pushOne ++ destroyIt).foldlM (step 3 1) (start 1)).map
      (fun s ↦ (s.destructor, s.numberOfThreads)) = some (.returned, 1) := by decide +kernel
  obtain ⟨s, hs, hq⟩ := map_eq_some_iff.mp hpushed
  obtain ⟨s', hs', hd⟩ := map_eq_some_iff.mp hdestroyed
  rw [foldlM_append, hs] at hs'
  obtain ⟨hreturned, hthreads⟩ := Prod.mk.inj hd
  have hreach : (system 3 1).Reachable s := ⟨_, pushOne, rfl, .of_foldlM (fun _ _ _ h ↦ h) hs⟩
  have hrun : (system 3 1).Run s destroyIt s' := .of_foldlM (fun _ _ _ h ↦ h) hs'
  refine ⟨s, s', hreach, hq, hrun, hreturned, ?_⟩
  exact (worker_leaves_rightly 3 1 s hreach).2.2 destroyIt s' hrun hreturned (by simp [hthreads]) 1
    (by simp [hq])

end Hisab.Parallel.ThreadedQueue
