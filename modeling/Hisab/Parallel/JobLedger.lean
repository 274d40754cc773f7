import Hisab.Parallel.NestedProgress

/-!
# Every job runs once

A job is named by its position in the queue of its thread while the queue is not locked
(`run_job`, `parallel_thread_pool.cpp:137–173`). The indices on a thread's stack grow with the
nesting, so a nested `join` erases above them and other threads append above them: each index
still leads to the job it was taken for. With that, a ledger of the submitted jobs is kept by
every step: a job is in one queue until its promise is set, and its function is called once.
-/

namespace Hisab.Parallel

open Base List NestedPool

namespace NestedPool

variable {n : Nat} {s t : NestedPool} {f : JobFrame} {fs : List JobFrame}

/-! ## The ledger -/

/-- Each submitted job is queued at one thread or has finished, and those that were invoked have
finished or are on a stack. -/
structure Ledger (s : NestedPool) : Prop where
  queued : ∀ i, ∀ e ∈ (s.thread i).jobs, e.id ∉ s.finished
  apart : ∀ i j, ∀ e ∈ (s.thread i).jobs, ∀ d ∈ (s.thread j).jobs, e.id = d.id → i = j
  kept : ∀ a < s.nextJob, a ∈ s.finished ∨ ∃ i, ∃ e ∈ (s.thread i).jobs, e.id = a
  bounded : ∀ a ∈ s.finished, a < s.nextJob
  finished : s.finished.Nodup
  invoked : s.invoked.Nodup
  started : ∀ a, a ∈ s.invoked ↔ a ∈ s.finished ∨ ∃ i, ∃ f ∈ (s.thread i).stack, f.job = a

/-- The jobs on the stacks are the same. -/
theorem Ledger.of_stacks (h : Ledger s) (hjobs : ∀ i, (t.thread i).jobs = (s.thread i).jobs)
    (hstack : ∀ i, ((t.thread i).stack.map JobFrame.job) = (s.thread i).stack.map JobFrame.job)
    (hnext : t.nextJob = s.nextJob) (hinvoked : t.invoked = s.invoked)
    (hfinished : t.finished = s.finished) : Ledger t where
  queued i e he := by
    rw [hfinished]
    exact h.queued i e (hjobs i ▸ he)
  apart i j e he d hd := h.apart i j e (hjobs i ▸ he) d (hjobs j ▸ hd)
  kept a ha := by
    rw [hfinished]
    apply (h.kept a (hnext ▸ ha)).imp_right
    intro ⟨i, e, he, hid⟩
    exact ⟨i, e, (hjobs i).symm ▸ he, hid⟩
  bounded a ha := by
    rw [hnext]
    exact h.bounded a (hfinished ▸ ha)
  finished := hfinished ▸ h.finished
  invoked := hinvoked ▸ h.invoked
  started a := by
    have hmem (i : Nat) : (∃ f ∈ (t.thread i).stack, f.job = a) ↔
        ∃ f ∈ (s.thread i).stack, f.job = a := by
      rw [← mem_map, ← mem_map, hstack]
    rw [hinvoked, hfinished, h.started]
    simp only [hmem]

/-- The innermost frame goes on in another mode. -/
theorem Ledger.setMode (h : Ledger s) {i : Nat} (hst : (s.thread i).stack = f :: fs)
    (mode : JobMode) : Ledger (s.setMode i f fs mode) := by
  apply h.of_stacks
  · intro j
    by_cases hj : j = i
    · subst hj
      simp [NestedPool.setMode]
    · simp [NestedPool.setMode, thread_setThread_of_ne hj]
  · intro j
    by_cases hj : j = i
    · subst hj
      simp [NestedPool.setMode, hst]
    · simp [NestedPool.setMode, thread_setThread_of_ne hj]
  · rfl
  · rfl
  · rfl

/-- A fresh job goes to the end of one queue. -/
theorem Ledger.doJob (h : Ledger s) (hinv : Inv n s) {p : Nat} {x : PoolProxy}
    (hs : s.doJob p x = some t) : Ledger t := by
  obtain ⟨i, hi, rfl⟩ := Option.map_eq_some_iff.mp hs
  have hjobs : ∀ j e, e ∈ ((s.setThread i { s.thread i with
      jobs := (s.thread i).jobs ++ [⟨s.nextJob, p⟩] }).thread j).jobs ↔
      e ∈ (s.thread j).jobs ∨ j = i ∧ e = ⟨s.nextJob, p⟩ := by
    intro j e
    by_cases hj : j = i
    · subst hj
      simp
    · simp [thread_setThread_of_ne hj, hj]
  have hold {j : Nat} {e : ThreadJob} (he : e ∈ (s.thread j).jobs) : e.id < s.nextJob :=
    ((hinv.threads j).owner e he).1
  refine ⟨fun j e he ↦ ?_, fun j k e he d hd hid ↦ ?_, fun a ha ↦ ?_, fun a ha ↦ ?_,
    h.finished, h.invoked, fun a ↦ ?_⟩
  · rcases (hjobs j e).mp he with he | ⟨-, rfl⟩
    · exact h.queued j e he
    · intro hmem
      exact Nat.lt_irrefl _ (h.bounded _ hmem)
  · rcases (hjobs j e).mp he with he | ⟨hj, rfl⟩
    · rcases (hjobs k d).mp hd with hd | ⟨-, rfl⟩
      · exact h.apart j k e he d hd hid
      · exact absurd hid (Nat.ne_of_lt (hold he))
    · rcases (hjobs k d).mp hd with hd | ⟨hk, -⟩
      · exact absurd hid.symm (Nat.ne_of_lt (hold hd))
      · rw [hj, hk]
  · by_cases hnew : a = s.nextJob
    · exact .inr ⟨i, ⟨s.nextJob, p⟩, (hjobs i _).mpr (.inr ⟨rfl, rfl⟩), hnew.symm⟩
    · apply (h.kept a (Nat.lt_of_le_of_ne (Nat.le_of_lt_succ ha) hnew)).imp_right
      intro ⟨j, e, he, hid⟩
      exact ⟨j, e, (hjobs j e).mpr (.inl he), hid⟩
  · exact Nat.lt_succ_of_lt (h.bounded a ha)
  · have hstack (j : Nat) : ((s.setThread i { s.thread i with
        jobs := (s.thread i).jobs ++ [⟨s.nextJob, p⟩] }).thread j).stack =
        (s.thread j).stack := by
      by_cases hj : j = i
      · subst hj
        simp
      · rw [thread_setThread_of_ne hj]
    change a ∈ s.invoked ↔ a ∈ s.finished ∨ ∃ j, ∃ f ∈ ((s.setThread i { s.thread i with
      jobs := (s.thread i).jobs ++ [⟨s.nextJob, p⟩] }).thread j).stack, f.job = a
    rw [h.started]
    simp only [hstack]

/-- A job in a queue above the frames of its thread is on no stack. -/
theorem Ledger.not_started (h : Ledger s) (hinv : Inv n s) {i k : Nat} {e : ThreadJob}
    (he : (s.thread i).jobs[k]? = some e) (hlt : ∀ f ∈ (s.thread i).stack, f.jobIndex < k) :
    e.id ∉ s.invoked := by
  rw [h.started]
  rintro (hfin | ⟨j, f, hf, hid⟩)
  · exact h.queued i e (mem_of_getElem? he) hfin
  · obtain ⟨d, hd, hdf⟩ := (hinv.threads j).frames f hf
    obtain rfl := h.apart j i d (mem_of_getElem? hd) e (mem_of_getElem? he) (hdf.trans hid)
    -- A thread's jobs have different numbers, so the two entries are at one position.
    obtain ⟨hflen, hfd⟩ := List.getElem?_eq_some_iff.mp hd
    obtain ⟨hklen, hke⟩ := List.getElem?_eq_some_iff.mp he
    have hsorted := pairwise_iff_getElem.mp (hinv.threads j).sorted f.jobIndex k hflen hklen
      (hlt f hf)
    rw [hfd, hke, hdf, hid] at hsorted
    exact Nat.lt_irrefl _ hsorted

/-- `run_job` calls the function of a job that no `run_job` has called before. -/
theorem Ledger.runJob (h : Ledger s) (hinv : Inv n s) {i k : Nat}
    (hlt : ∀ f ∈ (s.thread i).stack, f.jobIndex < k) (hs : s.runJob i k = some t) :
    Ledger t := by
  obtain ⟨e, he, rfl⟩ := Option.map_eq_some_iff.mp hs
  have hjobs (j : Nat) : ((s.setThread i { s.thread i with
      stack := { jobIndex := k, job := e.id } :: (s.thread i).stack }).thread j).jobs =
      (s.thread j).jobs := by
    by_cases hj : j = i
    · subst hj
      simp
    · rw [thread_setThread_of_ne hj]
  have hstack (a : Nat) : (∃ j, ∃ f ∈ ((s.setThread i { s.thread i with
      stack := { jobIndex := k, job := e.id } :: (s.thread i).stack }).thread j).stack,
      f.job = a) ↔ e.id = a ∨ ∃ j, ∃ f ∈ (s.thread j).stack, f.job = a := by
    constructor
    · intro ⟨j, f, hf, hid⟩
      by_cases hj : j = i
      · subst hj
        rw [thread_setThread_self] at hf
        rcases mem_cons.mp hf with rfl | hf
        · exact .inl hid
        · exact .inr ⟨j, f, hf, hid⟩
      · rw [thread_setThread_of_ne hj] at hf
        exact .inr ⟨j, f, hf, hid⟩
    · rintro (hid | ⟨j, f, hf, hid⟩)
      · exact ⟨i, _, by rw [thread_setThread_self]; exact mem_cons_self, hid⟩
      · by_cases hj : j = i
        · subst hj
          exact ⟨j, f, by rw [thread_setThread_self]; exact mem_cons_of_mem _ hf, hid⟩
        · exact ⟨j, f, by rwa [thread_setThread_of_ne hj], hid⟩
  refine ⟨fun j d hd ↦ h.queued j d (hjobs j ▸ hd),
    fun j l d hd c hc ↦ h.apart j l d (hjobs j ▸ hd) c (hjobs l ▸ hc), fun a ha ↦ ?_,
    h.bounded, h.finished, ?_, fun a ↦ ?_⟩
  · apply (h.kept a ha).imp_right
    intro ⟨j, d, hd, hid⟩
    exact ⟨j, d, (hjobs j).symm ▸ hd, hid⟩
  · rw [nodup_append]
    refine ⟨h.invoked, nodup_singleton _, fun a ha b hb hab ↦ ?_⟩
    rw [hab, mem_singleton.mp hb] at ha
    exact h.not_started hinv he hlt ha
  · rw [mem_append, mem_singleton, h.started, hstack]
    constructor
    · rintro ((hfin | hrun) | rfl)
      · exact .inl hfin
      · exact .inr (.inr hrun)
      · exact .inr (.inl rfl)
    · rintro (hfin | rfl | hrun)
      · exact .inl (.inl hfin)
      · exact .inr rfl
      · exact .inl (.inr hrun)

/-- The entry that `run_job` erases is the one of the job it has run. -/
theorem endJob_eq (hinv : Inv n s) {i : Nat} (hst : (s.thread i).stack = f :: fs)
    (hs : s.endJob i f fs = some t) : ∃ e, (s.thread i).jobs[f.jobIndex]? = some e ∧ e.id = f.job ∧
      t = { s.setThread i { jobs := (s.thread i).jobs.eraseIdx f.jobIndex, stack := fs } with
        finished := s.finished ++ [f.job] } := by
  obtain ⟨e, he, rfl⟩ := Option.map_eq_some_iff.mp hs
  obtain ⟨d, hd, hid⟩ := (hinv.threads i).frames f (hst ▸ mem_cons_self)
  obtain rfl := Option.some.inj (he.symm.trans hd)
  exact ⟨e, he, hid, by rw [hid]⟩

/-- What is left of a queue without the entry at an index is what has another number. -/
private theorem mem_eraseIdx_iff {l : List ThreadJob} (hl : l.Pairwise fun d e ↦ d.id < e.id)
    {k : Nat} {e : ThreadJob} (he : l[k]? = some e) {d : ThreadJob} :
    d ∈ l.eraseIdx k ↔ d ∈ l ∧ d.id ≠ e.id := by
  rw [mem_eraseIdx_iff_getElem?]
  obtain ⟨hk, hke⟩ := List.getElem?_eq_some_iff.mp he
  constructor
  · intro ⟨m, hne, hm⟩
    obtain ⟨hmlen, hmd⟩ := List.getElem?_eq_some_iff.mp hm
    refine ⟨mem_of_getElem? hm, fun hid ↦ ?_⟩
    have hsorted := pairwise_iff_getElem.mp hl
    rcases Nat.lt_or_gt_of_ne hne with hlt | hlt
    · have := hsorted m k hmlen hk hlt
      rw [hmd, hke] at this
      omega
    · have := hsorted k m hk hmlen hlt
      rw [hmd, hke] at this
      omega
  · intro ⟨hmem, hne⟩
    obtain ⟨m, hm⟩ := mem_iff_getElem?.mp hmem
    refine ⟨m, fun hmk ↦ hne ?_, hm⟩
    rw [hmk, he, Option.some.injEq] at hm
    rw [hm]

/-- The job leaves its queue and its stack in the step that sets its promise. -/
theorem Ledger.endJob (h : Ledger s) (hinv : Inv n s) {i : Nat} (hst : (s.thread i).stack = f :: fs)
    (hs : s.endJob i f fs = some t) : Ledger t := by
  obtain ⟨e, he, hid, rfl⟩ := endJob_eq hinv hst hs
  have hmem := mem_of_getElem? he
  have hjobs (j : Nat) (d : ThreadJob) : d ∈ ((s.setThread i
      { jobs := (s.thread i).jobs.eraseIdx f.jobIndex, stack := fs }).thread j).jobs ↔
      d ∈ (s.thread j).jobs ∧ d.id ≠ f.job := by
    by_cases hj : j = i
    · subst hj
      rw [thread_setThread_self, mem_eraseIdx_iff (hinv.threads j).sorted he, hid]
    · rw [thread_setThread_of_ne hj]
      refine ⟨fun hd ↦ ⟨hd, fun hdf ↦ hj ?_⟩, fun hd ↦ hd.1⟩
      exact h.apart j i d hd e hmem (hdf.trans hid.symm)
  have hnot : f.job ∉ s.finished := hid ▸ h.queued i e hmem
  -- The frames below stand for other jobs, at lower positions.
  have hstack (a : Nat) : (∃ j, ∃ g ∈ (s.thread j).stack, g.job = a) ↔
      f.job = a ∨ ∃ j, ∃ g ∈ ((s.setThread i
        { jobs := (s.thread i).jobs.eraseIdx f.jobIndex, stack := fs }).thread j).stack,
        g.job = a := by
    constructor
    · intro ⟨j, g, hg, hga⟩
      by_cases hj : j = i
      · subst hj
        rw [hst] at hg
        rcases mem_cons.mp hg with rfl | hg
        · exact .inl hga
        · exact .inr ⟨j, g, by rwa [thread_setThread_self], hga⟩
      · exact .inr ⟨j, g, by rwa [thread_setThread_of_ne hj], hga⟩
    · rintro (hfa | ⟨j, g, hg, hga⟩)
      · exact ⟨i, f, hst ▸ mem_cons_self, hfa⟩
      · by_cases hj : j = i
        · subst hj
          rw [thread_setThread_self] at hg
          exact ⟨j, g, hst ▸ mem_cons_of_mem _ hg, hga⟩
        · exact ⟨j, g, by rwa [thread_setThread_of_ne hj] at hg, hga⟩
  refine ⟨fun j d hd hfin ↦ ?_, fun j l d hd c hc ↦ ?_, fun a ha ↦ ?_, fun a ha ↦ ?_, ?_,
    h.invoked, fun a ↦ ?_⟩
  · obtain ⟨hd, hne⟩ := (hjobs j d).mp hd
    rcases mem_append.mp hfin with hfin | hfin
    · exact h.queued j d hd hfin
    · exact hne (mem_singleton.mp hfin)
  · exact h.apart j l d ((hjobs j d).mp hd).1 c ((hjobs l c).mp hc).1
  · by_cases haf : a = f.job
    · exact .inl (mem_append_right _ (mem_singleton.mpr haf))
    · rcases h.kept a ha with hfin | ⟨j, d, hd, hda⟩
      · exact .inl (mem_append_left _ hfin)
      · exact .inr ⟨j, d, (hjobs j d).mpr ⟨hd, hda ▸ haf⟩, hda⟩
  · rcases mem_append.mp ha with ha | ha
    · exact h.bounded a ha
    · rw [mem_singleton.mp ha, ← hid]
      exact ((hinv.threads i).owner e hmem).1
  · rw [nodup_append]
    refine ⟨h.finished, nodup_singleton _, fun a ha b hb hab ↦ hnot ?_⟩
    rw [hab, mem_singleton.mp hb] at ha
    exact ha
  · change a ∈ s.invoked ↔ a ∈ s.finished ++ [f.job] ∨ ∃ j, ∃ g ∈ ((s.setThread i
      { jobs := (s.thread i).jobs.eraseIdx f.jobIndex, stack := fs }).thread j).stack, g.job = a
    rw [h.started, hstack, mem_append, mem_singleton]
    constructor
    · rintro (hfin | rfl | hrun)
      · exact .inl (.inl hfin)
      · exact .inl (.inr rfl)
      · exact .inr hrun
    · rintro ((hfin | rfl) | hrun)
      · exact .inl hfin
      · exact .inr (.inl rfl)
      · exact .inr (.inr hrun)

theorem Ledger.step (h : Ledger s) (hinv : Inv n s) {l : NestedStep} (hs : s.step n l = some t) :
    Ledger t := by
  cases l with
  | allocateTop threadCount =>
    cases hs
    exact h.of_stacks (fun _ ↦ rfl) (fun _ ↦ rfl) rfl rfl rfl
  | submitTop p =>
    simp only [NestedPool.step] at hs
    split at hs
    next x hx =>
      simp only [Option.ite_none_right_eq_some] at hs
      exact h.doJob hinv hs.2
    · cases hs
  | joinTop p =>
    simp only [NestedPool.step] at hs
    split at hs
    next x hx =>
      obtain ⟨-, rfl⟩ := ite_some_iff.mp hs
      exact h.of_stacks (fun _ ↦ rfl) (fun _ ↦ rfl) rfl rfl rfl
    · cases hs
  | run i =>
    simp only [NestedPool.step, Option.ite_none_right_eq_some] at hs
    exact h.runJob hinv (by simp [hs.1]) hs.2
  | allocate i threadCount =>
    simp only [NestedPool.step, Option.bind_eq_some_iff, Option.map_eq_some_iff] at hs
    obtain ⟨_, -, _, -, rfl⟩ := hs
    exact h.of_stacks (fun _ ↦ rfl) (fun _ ↦ rfl) rfl rfl rfl
  | submit i p =>
    obtain ⟨_, -, hs⟩ := Option.bind_eq_some_iff.mp hs
    split at hs
    next x hx =>
      simp only [Option.ite_none_right_eq_some] at hs
      exact h.doJob hinv hs.2
    · cases hs
  | join i p =>
    obtain ⟨⟨f, fs⟩, hf, hs⟩ := Option.bind_eq_some_iff.mp hs
    split at hs
    next x hx =>
      obtain ⟨-, rfl⟩ := ite_some_iff.mp hs
      exact h.setMode (runningFrame_eq_some.mp hf).1 _
    · cases hs
  | help i =>
    simp only [NestedPool.step] at hs
    split at hs
    next f fs hst =>
      split at hs
      next p hm =>
        split at hs
        next k hk => exact h.runJob hinv (hinv.lt_of_help hst hm hk) hs
        · cases hs
          exact h.setMode hst _
      · cases hs
    · cases hs
  | wait i =>
    simp only [NestedPool.step] at hs
    split at hs
    next f fs hst =>
      split at hs
      · obtain ⟨-, rfl⟩ := ite_some_iff.mp hs
        exact h.setMode hst _
      · cases hs
    · cases hs
  | joined i =>
    simp only [NestedPool.step] at hs
    split at hs
    next f fs hst =>
      split at hs
      next p hm =>
        cases hs
        have hclear : Ledger (s.clearFutures p) :=
          h.of_stacks (fun _ ↦ rfl) (fun _ ↦ rfl) rfl rfl rfl
        exact hclear.setMode hst _
      · cases hs
    · cases hs
  | finish i =>
    obtain ⟨⟨f, fs⟩, hf, hs⟩ := Option.bind_eq_some_iff.mp hs
    split at hs
    · cases hs
    · exact h.endJob hinv (runningFrame_eq_some.mp hf).1 hs

theorem Ledger.of_reachable (h : (system n).Reachable s) : Ledger s := by
  refine (h.invariant (I := fun s ↦ Inv n s ∧ Ledger s) ?_ ?_).2
  · rintro s rfl
    refine ⟨.of_reachable (.of_init rfl), fun i e he ↦ (by cases he), fun i j e he ↦ (by cases he),
      fun a ha ↦ (by cases ha), fun a ha ↦ (by cases ha), .nil, .nil, fun a ↦ ?_⟩
    simp
  · intro s l t hs hstep
    exact ⟨hs.1.step hstep, hs.2.step hs.1 hstep⟩

/-! ## Exactly once -/

end NestedPool
end Hisab.Parallel
