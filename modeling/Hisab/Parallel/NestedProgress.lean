import Hisab.Parallel.NestedPool

/-!
# Nested proxies do not deadlock

The futures of a nested proxy belong to jobs at the threads it took beyond its caller's, which
have higher positions in the pool. So a pool thread waits for higher ones only, and the
highest one that has work can go on.
-/

namespace Hisab.Parallel

open Base Function List Option

/-- The threads whose jobs have futures: a nested proxy's first thread is its caller's, which
runs its jobs in `join`. -/
def PoolProxy.futureThreads (x : PoolProxy) : List Nat :=
  if x.parent.isSome then x.threads.tail else x.threads

/-- The proxy that a frame is in `join` of. -/
def JobMode.joining : JobMode → Option Nat
  | .running => none
  | .helping p | .waiting p _ => some p

namespace NestedPool

variable {n : Nat} {s t : NestedPool} {i : Nat} {x : PoolProxy} {f : JobFrame} {fs : List JobFrame}

/-! ## The invariant -/

/-- A thread's jobs are queued in the order of their submission, at a thread of their proxy
and after the job that created it. Its frames stand for the jobs at their indices, which grow
with the nesting, and all but the innermost are in the loop of `join`. -/
structure ThreadOk (proxies : List PoolProxy) (nextJob : Nat) (futures : Nat → List Nat) (i : Nat)
    (th : PoolThread) : Prop where
  sorted : th.jobs.Pairwise fun d e ↦ d.id < e.id
  owner : ∀ e ∈ th.jobs, e.id < nextJob ∧ ∃ x, proxies[e.proxy]? = some x ∧ i ∈ x.threads ∧
    ∀ c, x.creator = some c → c.2 < e.id
  frames : ∀ f ∈ th.stack, ∃ e, th.jobs[f.jobIndex]? = some e ∧ e.id = f.job
  nested : th.stack.Pairwise fun f g ↦ g.jobIndex < f.jobIndex
  lower : ∀ f ∈ th.stack.tail, ∃ p, f.mode = .helping p
  joins : ∀ f ∈ th.stack, ∀ p, f.mode.joining = some p →
    ∃ x, proxies[p]? = some x ∧ x.creator = some (i, f.job)
  waits : ∀ f fs p rest, th.stack = f :: fs → f.mode = .waiting p rest → rest ⊆ futures p

/-- A future belongs to a job at one of the threads that have futures, and is finished when no
queue holds it. -/
def FutureOk (s : NestedPool) (p a : Nat) : Prop :=
  a < s.nextJob ∧ ∃ x, s.proxies[p]? = some x ∧
    (∀ j, ∀ e ∈ (s.thread j).jobs, e.id = a → j ∈ x.futureThreads) ∧
    (a ∉ s.finished → ∃ j, ∃ e ∈ (s.thread j).jobs, e.id = a)

/-- What holds in every state. -/
structure Inv (n : Nat) (s : NestedPool) : Prop where
  proxies : ProxiesOk n s.proxies
  threads : ∀ i, ThreadOk s.proxies s.nextJob s.futures i (s.thread i)
  futures : ∀ p, ∀ a ∈ s.futures p, s.FutureOk p a

section ThreadOk

variable {proxies proxies' : List PoolProxy} {nextJob nextJob' : Nat}
  {futures futures' : Nat → List Nat} {i : Nat} {th : PoolThread}

/-- More proxies, jobs and futures leave a thread right. -/
theorem ThreadOk.mono (h : ThreadOk proxies nextJob futures i th)
    (hp : ∀ (p : Nat) (x : PoolProxy), proxies[p]? = some x → proxies'[p]? = some x)
    (hn : nextJob ≤ nextJob')
    (hf : ∀ f fs p rest, th.stack = f :: fs → f.mode = .waiting p rest →
      futures p ⊆ futures' p) : ThreadOk proxies' nextJob' futures' i th where
  sorted := h.sorted
  owner e he := by
    obtain ⟨hid, x, hx, hrest⟩ := h.owner e he
    exact ⟨by omega, x, hp _ x hx, hrest⟩
  frames := h.frames
  nested := h.nested
  lower := h.lower
  joins f hf p hj := by
    obtain ⟨x, hx, hc⟩ := h.joins f hf p hj
    exact ⟨x, hp p x hx, hc⟩
  waits f fs p rest hst hm := List.Subset.trans (h.waits f fs p rest hst hm) (hf f fs p rest hst hm)

/-- A fresh job is queued at one of its proxy's threads. -/
theorem ThreadOk.submit (h : ThreadOk proxies nextJob futures i th) {p : Nat} {x : PoolProxy}
    (hp : proxies[p]? = some x) (hi : i ∈ x.threads)
    (hc : ∀ c, x.creator = some c → c.2 < nextJob) :
    ThreadOk proxies (nextJob + 1) futures i { th with jobs := th.jobs ++ [⟨nextJob, p⟩] } where
  sorted := by
    refine pairwise_append.mpr ⟨h.sorted, pairwise_singleton _ _, fun d hd e he ↦ ?_⟩
    rw [mem_singleton.mp he]
    exact (h.owner d hd).1
  owner e he := by
    rcases mem_append.mp he with he | he
    · obtain ⟨hid, hrest⟩ := h.owner e he
      exact ⟨by omega, hrest⟩
    · rw [mem_singleton.mp he]
      exact ⟨Nat.lt_succ_self _, x, hp, hi, hc⟩
  frames f hf := by
    obtain ⟨e, he, hid⟩ := h.frames f hf
    have hlt := (List.getElem?_eq_some_iff.mp he).1
    exact ⟨e, by rw [getElem?_append_left hlt, he], hid⟩
  nested := h.nested
  lower := h.lower
  joins := h.joins
  waits := h.waits

/-- The innermost frame goes on in another mode. -/
theorem ThreadOk.setMode (h : ThreadOk proxies nextJob futures i th) {f : JobFrame}
    {fs : List JobFrame} (hst : th.stack = f :: fs) (mode : JobMode)
    (hj : ∀ p, mode.joining = some p → ∃ x, proxies[p]? = some x ∧ x.creator = some (i, f.job))
    (hw : ∀ p rest, mode = .waiting p rest → rest ⊆ futures p) :
    ThreadOk proxies nextJob futures i { th with stack := { f with mode := mode } :: fs } where
  sorted := h.sorted
  owner := h.owner
  frames g hg := by
    rcases mem_cons.mp hg with rfl | hg
    · exact h.frames f (hst ▸ mem_cons_self)
    · exact h.frames g (hst ▸ mem_cons_of_mem _ hg)
  nested := by
    have hold := h.nested
    rw [hst, pairwise_cons] at hold
    exact pairwise_cons.mpr hold
  lower g hg := h.lower g (hst ▸ hg)
  joins g hg := by
    rcases mem_cons.mp hg with rfl | hg
    · exact hj
    · exact h.joins g (hst ▸ mem_cons_of_mem _ hg)
  waits g gs p rest hgs hm := by
    obtain ⟨rfl, -⟩ := cons.inj hgs
    exact hw p rest hm

/-- A job is started above the frames there are, whose indices are lower. -/
theorem ThreadOk.push (h : ThreadOk proxies nextJob futures i th) {k : Nat} {e : ThreadJob}
    (he : th.jobs[k]? = some e) (hlt : ∀ f ∈ th.stack, f.jobIndex < k)
    (hlow : ∀ f ∈ th.stack, ∃ p, f.mode = .helping p) :
    ThreadOk proxies nextJob futures i
      { th with stack := { jobIndex := k, job := e.id } :: th.stack } where
  sorted := h.sorted
  owner := h.owner
  frames f hf := by
    rcases mem_cons.mp hf with rfl | hf
    · exact ⟨e, he, rfl⟩
    · exact h.frames f hf
  nested := pairwise_cons.mpr ⟨hlt, h.nested⟩
  lower := hlow
  joins f hf p hj := by
    rcases mem_cons.mp hf with rfl | hf
    · cases hj
    · exact h.joins f hf p hj
  waits f fs p rest hfs hm := by
    obtain ⟨rfl, -⟩ := cons.inj hfs
    cases hm

/-- The innermost job ends: the entry at its index goes, and no other frame's moves. -/
theorem ThreadOk.pop (h : ThreadOk proxies nextJob futures i th) {f : JobFrame}
    {fs : List JobFrame} (hst : th.stack = f :: fs) :
    ThreadOk proxies nextJob futures i { jobs := th.jobs.eraseIdx f.jobIndex, stack := fs } where
  sorted := h.sorted.sublist (eraseIdx_sublist _ _)
  owner e he := h.owner e (mem_of_mem_eraseIdx he)
  frames g hg := by
    obtain ⟨e, he, hid⟩ := h.frames g (hst ▸ mem_cons_of_mem _ hg)
    have hlt : g.jobIndex < f.jobIndex := by
      have hold := h.nested
      rw [hst, pairwise_cons] at hold
      exact hold.1 g hg
    exact ⟨e, by rw [getElem?_eraseIdx_of_lt hlt, he], hid⟩
  nested := by
    have hold := h.nested
    rw [hst, pairwise_cons] at hold
    exact hold.2
  lower g hg := h.lower g (hst ▸ mem_of_mem_tail hg)
  joins g hg := h.joins g (hst ▸ mem_cons_of_mem _ hg)
  waits g gs p rest hgs hm := by
    have hgs : fs = g :: gs := hgs
    obtain ⟨q, hq⟩ := h.lower g (by rw [hst, hgs]; exact mem_cons_self)
    rw [hq] at hm
    cases hm

end ThreadOk

/-! ## The steps -/

@[simp] theorem thread_setThread_self (s : NestedPool) (i : Nat) (th : PoolThread) :
    (s.setThread i th).thread i = th := update_self ..

theorem thread_setThread_of_ne {i j : Nat} (h : j ≠ i) (th : PoolThread) :
    (s.setThread i th).thread j = s.thread j := update_of_ne h ..

/-- Every thread is right when the one that stepped is. -/
theorem forall_setThread {P : Nat → PoolThread → Prop} {th : PoolThread} (hi : P i th)
    (hs : ∀ j, P j (s.thread j)) (j : Nat) : P j ((s.setThread i th).thread j) := by
  by_cases hj : j = i
  · subst hj
    rwa [thread_setThread_self]
  · rw [thread_setThread_of_ne hj]
    exact hs j

/-- A further proxy. -/
theorem Inv.allocate (h : Inv n s) {y : PoolProxy} (hy : ProxyOk n s.proxies s.proxies.length y) :
    Inv n { s with proxies := s.proxies ++ [y] } := by
  have hold : ∀ (p : Nat) (x : PoolProxy), s.proxies[p]? = some x →
      (s.proxies ++ [y])[p]? = some x := by
    intro p x hp
    rw [getElem?_append_left (List.getElem?_eq_some_iff.mp hp).1, hp]
  refine ⟨h.proxies.append hy, fun i ↦ (h.threads i).mono hold le_rfl
    fun _ _ _ _ _ _ ↦ List.Subset.refl _, fun p a ha ↦ ?_⟩
  obtain ⟨hlt, x, hx, hrest⟩ := h.futures p a ha
  exact ⟨hlt, x, hold p x hx, hrest⟩

/-- The threads go on with the jobs they have. -/
theorem Inv.of_threads (h : Inv n s) {f : Nat → PoolThread} {invoked : List Nat}
    (hjobs : ∀ j, (f j).jobs = (s.thread j).jobs)
    (hok : ∀ j, ThreadOk s.proxies s.nextJob s.futures j (f j)) :
    Inv n { s with thread := f, invoked := invoked } := by
  refine ⟨h.proxies, hok, fun p a ha ↦ ?_⟩
  obtain ⟨hlt, x, hx, hthread, hfin⟩ := h.futures p a ha
  refine ⟨hlt, x, hx, fun j e he ↦ hthread j e (hjobs j ▸ he), fun hne ↦ ?_⟩
  obtain ⟨j, e, he, hid⟩ := hfin hne
  exact ⟨j, e, (hjobs j).symm ▸ he, hid⟩

/-- One thread goes on with the jobs it has. -/
theorem Inv.setThread (h : Inv n s) {th : PoolThread} {invoked : List Nat}
    (hjobs : th.jobs = (s.thread i).jobs) (hok : ThreadOk s.proxies s.nextJob s.futures i th) :
    Inv n { s.setThread i th with invoked := invoked } := by
  refine h.of_threads (fun j ↦ ?_)
    (forall_setThread hok h.threads)
  by_cases hj : j = i
  · subst hj
    rw [thread_setThread_self, hjobs]
  · rw [thread_setThread_of_ne hj]

/-- The thread that a job goes to has futures, unless it is the caller's own. -/
theorem mem_futureThreads {i k : Nat} (hi : x.threads[k]? = some i)
    (hown : ¬(x.parent.isSome && k == 0) = true) : i ∈ x.futureThreads := by
  unfold PoolProxy.futureThreads
  split
  next hp =>
    rw [hp, Bool.true_and, beq_iff_eq] at hown
    obtain ⟨k, rfl⟩ := Nat.exists_eq_add_one_of_ne_zero hown
    exact mem_of_getElem? (getElem?_tail.trans hi)
  · exact mem_of_getElem? hi

/-- A fresh job is queued at a thread of its proxy, with a future if that thread has them. -/
theorem Inv.queue (h : Inv n s) {p i : Nat} (hp : s.proxies[p]? = some x) (hi : i ∈ x.threads)
    (hc : ∀ c, x.creator = some c → c.2 < s.nextJob) {futures : Nat → List Nat}
    {nextThread : Nat → Nat} {unjoined : Nat → Bool} (hold : ∀ q, s.futures q ⊆ futures q)
    (hnew : ∀ q, ∀ a ∈ futures q, a ∈ s.futures q ∨ q = p ∧ a = s.nextJob ∧ i ∈ x.futureThreads) :
    Inv n { s.setThread i { s.thread i with jobs := (s.thread i).jobs ++ [⟨s.nextJob, p⟩] } with
      nextThread := nextThread
      futures := futures
      unjoined := unjoined
      nextJob := s.nextJob + 1 } := by
  have hmono : ∀ j th, ThreadOk s.proxies s.nextJob s.futures j th →
      ThreadOk s.proxies (s.nextJob + 1) futures j th := fun j th hth ↦
    hth.mono (fun _ _ hx ↦ hx) (Nat.le_succ _) fun _ _ q _ _ _ ↦ hold q
  -- The queues hold the new job and what they held before.
  have hjobs : ∀ j e, e ∈ ((s.setThread i { s.thread i with
      jobs := (s.thread i).jobs ++ [⟨s.nextJob, p⟩] }).thread j).jobs ↔
      e ∈ (s.thread j).jobs ∨ j = i ∧ e = ⟨s.nextJob, p⟩ := by
    intro j e
    by_cases hj : j = i
    · subst hj
      simp
    · simp [thread_setThread_of_ne hj, hj]
  refine ⟨h.proxies, forall_setThread ?_
    fun j ↦ hmono j _ (h.threads j), fun q a ha ↦ ?_⟩
  · have hsub := (h.threads i).submit hp hi hc
    exact hsub.mono (fun _ _ hx ↦ hx) le_rfl fun _ _ q _ _ _ ↦ hold q
  · rcases hnew q a ha with hmem | ⟨rfl, rfl, hfut⟩
    · obtain ⟨hlt, y, hy, hthread, hfin⟩ := h.futures q a hmem
      refine ⟨Nat.lt_succ_of_lt hlt, y, hy, fun j e he hid ↦ ?_, fun hne ↦ ?_⟩
      · rcases (hjobs j e).mp he with he | ⟨-, rfl⟩
        · exact hthread j e he hid
        · exact absurd hid (Nat.ne_of_gt hlt)
      · obtain ⟨j, e, he, hid⟩ := hfin hne
        exact ⟨j, e, (hjobs j e).mpr (.inl he), hid⟩
    · refine ⟨Nat.lt_succ_self _, x, hp, fun j e he hid ↦ ?_, fun _ ↦ ?_⟩
      · rcases (hjobs j e).mp he with he | ⟨rfl, -⟩
        · exact absurd hid (Nat.ne_of_lt ((h.threads j).owner e he).1)
        · exact hfut
      · exact ⟨i, _, (hjobs i _).mpr (.inr ⟨rfl, rfl⟩), rfl⟩

theorem Inv.doJob (h : Inv n s) {p : Nat} (hp : s.proxies[p]? = some x)
    (hc : ∀ c, x.creator = some c → c.2 < s.nextJob) (hs : s.doJob p x = some t) : Inv n t := by
  obtain ⟨i, hi, rfl⟩ := map_eq_some_iff.mp hs
  refine h.queue hp (mem_of_getElem? hi) hc (fun q ↦ ?_) fun q a ha ↦ ?_
  · split
    · exact List.Subset.refl _
    · by_cases hq : q = p
      · subst hq
        rw [update_self]
        exact subset_append_left _ _
      · rw [update_of_ne hq]
        exact List.Subset.refl _
  · split at ha
    · exact .inl ha
    next hown =>
      by_cases hq : q = p
      · subst hq
        rw [update_self] at ha
        rcases mem_append.mp ha with ha | ha
        · exact .inl ha
        · exact .inr ⟨rfl, mem_singleton.mp ha, mem_futureThreads hi hown⟩
      · rw [update_of_ne hq] at ha
        exact .inl ha

/-- `join` of a proxy that no thread waits for goes to its end. -/
theorem Inv.clearFutures (h : Inv n s) {p : Nat}
    (hp : ∀ i f fs rest, (s.thread i).stack = f :: fs → f.mode ≠ .waiting p rest) :
    Inv n (s.clearFutures p) := by
  refine ⟨h.proxies, fun i ↦ (h.threads i).mono (fun _ _ hx ↦ hx) le_rfl
    fun f fs q rest hst hm ↦ ?_, fun q a ha ↦ ?_⟩
  · have hq : q ≠ p := by
      rintro rfl
      exact hp i f fs rest hst hm
    simp [NestedPool.clearFutures, update_of_ne hq]
  · by_cases hq : q = p
    · subst hq
      simp [NestedPool.clearFutures] at ha
    · simp only [NestedPool.clearFutures, update_of_ne hq] at ha
      exact h.futures q a ha

/-- A job that is started lies above the frames there are. -/
theorem Inv.runJob (h : Inv n s) {i k : Nat} (hlt : ∀ f ∈ (s.thread i).stack, f.jobIndex < k)
    (hlow : ∀ f ∈ (s.thread i).stack, ∃ p, f.mode = .helping p) (hs : s.runJob i k = some t) :
    Inv n t := by
  obtain ⟨e, he, rfl⟩ := map_eq_some_iff.mp hs
  exact h.setThread rfl ((h.threads i).push he hlt hlow)

theorem Inv.endJob (h : Inv n s) (hst : (s.thread i).stack = f :: fs)
    (hs : s.endJob i f fs = some t) : Inv n t := by
  obtain ⟨e, he, rfl⟩ := map_eq_some_iff.mp hs
  -- A queue holds what it held, but for the job that finished.
  have hsub : ∀ j d, d ∈ ((s.setThread i ⟨(s.thread i).jobs.eraseIdx f.jobIndex, fs⟩).thread
      j).jobs → d ∈ (s.thread j).jobs := by
    intro j d hd
    by_cases hj : j = i
    · subst hj
      rw [thread_setThread_self] at hd
      exact mem_of_mem_eraseIdx hd
    · rwa [thread_setThread_of_ne hj] at hd
  have hkeep : ∀ j d, d ∈ (s.thread j).jobs → d.id ≠ e.id →
      d ∈ ((s.setThread i ⟨(s.thread i).jobs.eraseIdx f.jobIndex, fs⟩).thread j).jobs := by
    intro j d hd hne
    by_cases hj : j = i
    · subst hj
      rw [thread_setThread_self, mem_eraseIdx_iff_getElem?]
      obtain ⟨k, hk⟩ := mem_iff_getElem?.mp hd
      refine ⟨k, fun hkf ↦ hne ?_, hk⟩
      rw [hkf, he, some.injEq] at hk
      rw [hk]
    · rwa [thread_setThread_of_ne hj]
  refine ⟨h.proxies, forall_setThread
    ((h.threads i).pop hst) h.threads, fun p a ha ↦ ?_⟩
  obtain ⟨hlt, x, hx, hthread, hfin⟩ := h.futures p a ha
  refine ⟨hlt, x, hx, fun j d hd ↦ hthread j d (hsub j d hd), fun hne ↦ ?_⟩
  have hae : a ≠ e.id := fun hae ↦ hne (hae ▸ mem_append_right _ mem_cons_self)
  obtain ⟨j, d, hd, rfl⟩ := hfin fun hmem ↦ hne (mem_append_left _ hmem)
  exact ⟨j, d, hkeep j d hd hae, rfl⟩

theorem runningFrame_eq_some :
    s.runningFrame i = some (f, fs) ↔ (s.thread i).stack = f :: fs ∧ f.mode = .running := by
  unfold runningFrame
  cases hst : (s.thread i).stack with
  | nil => simp
  | cons g gs =>
    simp only [ite_some_iff, Prod.mk.injEq, cons.injEq]
    constructor
    · rintro ⟨hm, rfl, rfl⟩
      exact ⟨⟨rfl, rfl⟩, hm⟩
    · rintro ⟨⟨rfl, rfl⟩, hm⟩
      exact ⟨hm, rfl, rfl⟩

/-- A proxy that a frame's job created is newer than no job submitted later. -/
theorem Inv.frame_lt (h : Inv n s) (hf : f ∈ (s.thread i).stack) : f.job < s.nextJob := by
  obtain ⟨e, he, hid⟩ := (h.threads i).frames f hf
  exact hid ▸ ((h.threads i).owner e (mem_of_getElem? he)).1

/-- The jobs of a proxy are queued past the job that created it. -/
theorem Inv.lt_of_creator (h : Inv n s) {i k p : Nat} {e : ThreadJob} (hf : f ∈ (s.thread i).stack)
    (hp : s.proxies[p]? = some x) (hc : x.creator = some (i, f.job))
    (he : (s.thread i).jobs[k]? = some e) (hep : e.proxy = p) : f.jobIndex < k := by
  obtain ⟨-, y, hy, -, hlt⟩ := (h.threads i).owner e (mem_of_getElem? he)
  rw [hep, hp, some.injEq] at hy
  have hjob : f.job < e.id := hlt _ (hy ▸ hc)
  obtain ⟨d, hd, hid⟩ := (h.threads i).frames f hf
  by_contra hle
  rcases Nat.lt_or_eq_of_le (Nat.not_lt.mp hle) with hkf | rfl
  · obtain ⟨hklen, hk⟩ := List.getElem?_eq_some_iff.mp he
    obtain ⟨hflen, hf⟩ := List.getElem?_eq_some_iff.mp hd
    have := pairwise_iff_getElem.mp (h.threads i).sorted k f.jobIndex hklen hflen hkf
    rw [hk, hf] at this
    omega
  · rw [hd, some.injEq] at he
    rw [← he] at hjob
    omega

/-- The job that `join` finds lies above every frame of the thread. -/
theorem Inv.lt_of_help (h : Inv n s) {i k p : Nat} (hst : (s.thread i).stack = f :: fs)
    (hm : f.mode = .helping p) (hk : ((s.thread i).jobs.findIdx? fun e ↦ e.proxy == p) = some k) :
    ∀ g ∈ (s.thread i).stack, g.jobIndex < k := by
  have hmem : f ∈ (s.thread i).stack := hst ▸ mem_cons_self
  obtain ⟨hklt, hkp, -⟩ := findIdx?_eq_some_iff_getElem.mp hk
  obtain ⟨x, hx, hc⟩ := (h.threads i).joins f hmem p (by rw [hm]; rfl)
  have hfk : f.jobIndex < k := h.lt_of_creator hmem hx hc
    (getElem?_eq_getElem hklt) (by simpa using hkp)
  have hnested := (h.threads i).nested
  rw [hst] at hnested
  intro g hg
  rw [hst] at hg
  rcases mem_cons.mp hg with rfl | hg
  · exact hfk
  · exact ((pairwise_cons.mp hnested).1 g hg).trans hfk

theorem Inv.setMode (h : Inv n s) (hst : (s.thread i).stack = f :: fs) (mode : JobMode)
    (hj : ∀ p, mode.joining = some p → ∃ x, s.proxies[p]? = some x ∧ x.creator = some (i, f.job))
    (hw : ∀ p rest, mode = .waiting p rest → rest ⊆ s.futures p) : Inv n (s.setMode i f fs mode) :=
  have hok := (h.threads i).setMode hst mode hj hw
  have hinv : Inv n { s.setThread i { s.thread i with stack := { f with mode := mode } :: fs } with
      invoked := s.invoked } := h.setThread rfl hok
  hinv

theorem Inv.step (h : Inv n s) {l : NestedStep} (hs : s.step n l = some t) : Inv n t := by
  cases l with
  | allocateTop threadCount =>
    cases hs
    exact h.allocate (ProxiesOk.topLevelProxy threadCount)
  | submitTop p =>
    simp only [NestedPool.step] at hs
    split at hs
    next x hx =>
      simp only [ite_none_right_eq_some] at hs
      have hnone := ((h.proxies p x hx).topLevel hs.1).1
      exact h.doJob hx (fun c hc ↦ by simp [hnone] at hc) hs.2
    · cases hs
  | joinTop p =>
    simp only [NestedPool.step] at hs
    split at hs
    next x hx =>
      obtain ⟨⟨hparent, -⟩, rfl⟩ := ite_some_iff.mp hs
      refine h.clearFutures fun i f fs rest hst hm ↦ ?_
      obtain ⟨y, hy, hc⟩ := (h.threads i).joins f (hst ▸ mem_cons_self) p (by rw [hm]; rfl)
      rw [hx, some.injEq] at hy
      rw [← hy, ((h.proxies p x hx).topLevel hparent).1] at hc
      cases hc
    · cases hs
  | run i =>
    obtain ⟨hempty, hs⟩ := ite_none_right_eq_some.mp hs
    exact h.runJob (by simp [hempty]) (by simp [hempty]) hs
  | allocate i threadCount =>
    simp only [NestedPool.step, bind_eq_some_iff, map_eq_some_iff] at hs
    obtain ⟨⟨f, fs⟩, -, e, he, rfl⟩ := hs
    obtain ⟨-, x, hx, hi, -⟩ := (h.threads i).owner e (mem_of_getElem? he)
    exact h.allocate (h.proxies.nestedProxy f.job threadCount hx hi)
  | submit i p =>
    obtain ⟨⟨f, fs⟩, hf, hs⟩ := bind_eq_some_iff.mp hs
    have hst := (runningFrame_eq_some.mp hf).1
    split at hs
    next x hx =>
      simp only [ite_none_right_eq_some] at hs
      refine h.doJob hx (fun c hc ↦ ?_) hs.2
      rw [hs.1, some.injEq] at hc
      exact hc ▸ h.frame_lt (hst ▸ mem_cons_self)
    · cases hs
  | join i p =>
    obtain ⟨⟨f, fs⟩, hf, hs⟩ := bind_eq_some_iff.mp hs
    have hst := (runningFrame_eq_some.mp hf).1
    split at hs
    next x hx =>
      obtain ⟨hc, rfl⟩ := ite_some_iff.mp hs
      refine h.setMode hst _ (fun q hq ↦ ?_) nofun
      exact ⟨x, some.inj hq ▸ hx, hc⟩
    · cases hs
  | help i =>
    simp only [NestedPool.step] at hs
    split at hs
    next f fs hst =>
      have hmem : f ∈ (s.thread i).stack := hst ▸ mem_cons_self
      split at hs
      next p hm =>
        have hjoin := (h.threads i).joins f hmem p (by rw [hm]; rfl)
        split at hs
        next k hk =>
          have hlower := (h.threads i).lower
          rw [hst] at hlower
          refine h.runJob (h.lt_of_help hst hm hk) (fun g hg ↦ ?_) hs
          · rw [hst] at hg
            rcases mem_cons.mp hg with rfl | hg
            · exact ⟨p, hm⟩
            · exact hlower g hg
        · cases hs
          refine h.setMode hst _ (fun q hq ↦ some.inj hq ▸ hjoin) fun q rest hw ↦ ?_
          cases hw
          exact List.Subset.refl _
      · cases hs
    · cases hs
  | wait i =>
    simp only [NestedPool.step] at hs
    split at hs
    next f fs hst =>
      have hmem : f ∈ (s.thread i).stack := hst ▸ mem_cons_self
      split at hs
      next p a futures hm =>
        obtain ⟨-, rfl⟩ := ite_some_iff.mp hs
        have hjoin := (h.threads i).joins f hmem p (by rw [hm]; rfl)
        refine h.setMode hst _ (fun q hq ↦ some.inj hq ▸ hjoin) fun q rest hw ↦ ?_
        cases hw
        exact (cons_subset.mp ((h.threads i).waits f fs p _ hst hm)).2
      · cases hs
    · cases hs
  | joined i =>
    simp only [NestedPool.step] at hs
    split at hs
    next f fs hst =>
      split at hs
      next p hm =>
        cases hs
        have hrun := h.setMode hst .running nofun nofun
        obtain ⟨x, hx, hc⟩ := (h.threads i).joins f (hst ▸ mem_cons_self) p (by rw [hm]; rfl)
        refine hrun.clearFutures fun j g gs rest hgs hw ↦ ?_
        by_cases hj : j = i
        · subst hj
          obtain ⟨rfl, -⟩ := cons.inj ((thread_setThread_self s j _ ▸ hgs :))
          cases hw
        · -- Another thread joins proxies of its own.
          have hthread := thread_setThread_of_ne hj (s := s)
            { s.thread i with stack := { f with mode := .running } :: fs }
          rw [NestedPool.setMode, hthread] at hgs
          obtain ⟨y, hy, hd⟩ := (h.threads j).joins g (hgs ▸ mem_cons_self) p (by rw [hw]; rfl)
          rw [hx, some.injEq] at hy
          rw [← hy, hc, some.injEq, Prod.mk.injEq] at hd
          exact hj hd.1.symm
      · cases hs
    · cases hs
  | finish i =>
    obtain ⟨⟨f, fs⟩, hf, hs⟩ := bind_eq_some_iff.mp hs
    split at hs
    · cases hs
    · exact h.endJob (runningFrame_eq_some.mp hf).1 hs

theorem Inv.of_reachable (h : (system n).Reachable s) : Inv n s := by
  refine h.invariant ?_ fun _ _ _ hs hstep ↦ hs.step hstep
  rintro s rfl
  exact ⟨fun p x hp ↦ by simp at hp, fun i ↦ ⟨.nil, by simp, by simp, .nil, by simp, by simp,
    nofun⟩, nofun⟩

/-! ## Who waits for whom -/

end NestedPool
end Hisab.Parallel
