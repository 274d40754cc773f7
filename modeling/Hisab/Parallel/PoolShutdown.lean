import Hisab.Base.ThreadTable
import Hisab.Base.TransitionSystem

/-!
# Shutting down the thread pool

The worker loop of `make_thread` (`parallel_thread_pool.cpp:584–617`) against the pool's
destructor (`parallel_thread_pool.cpp:388–407`). A worker checks its wait predicate and blocks
with its mutex held, so whoever takes that mutex to submit a job cannot come between the two;
the destructor stores `joining_` and notifies without taking it.
-/

namespace Hisab.Parallel

open Base Function

/-- Where a worker stands: before the check of the predicate, between a check that failed and
the block, blocked, running a job, or at its end. -/
inductive PoolWorker
  | top
  | checked
  | blocked
  | running
  | exited
deriving Repr, DecidableEq

/-- Where the destructor stands, with the next worker to notify or to join. -/
inductive PoolDestructor
  | alive
  | notifying (next : Nat)
  | joining (next : Nat)
  | done
deriving Repr, DecidableEq

/-- The pool: the number of jobs queued at each worker, the notifications that submitters
still owe it, the workers and the destructor. -/
structure PoolState where
  joining : Bool := false
  jobs : Nat → Nat := fun _ ↦ 0
  owed : Nat → Nat := fun _ ↦ 0
  worker : Nat → PoolWorker := fun _ ↦ .top
  destructor : PoolDestructor := .alive

/-- The steps of submitters, workers and the destructor. The nested jobs of a job begin and
end within it. -/
inductive PoolStep
  | submit (i : Nat)
  | notifySubmitted (i : Nat)
  | check (i : Nat)
  | block (i : Nat)
  | spurious (i : Nat)
  | finish (i : Nat)
  | store
  | notifyAll
  | notified
  | join
  | destroyed
deriving Repr, DecidableEq

namespace PoolState

/-- A notification of worker `i`. -/
def wake (s : PoolState) (i : Nat) : PoolState :=
  if s.worker i = .blocked then { s with worker := update s.worker i .top } else s

/-- Where the check of the predicate takes worker `i` (`parallel_thread_pool.cpp:599–614`). -/
def afterCheck (s : PoolState) (i : Nat) : PoolWorker :=
  if s.jobs i = 0 then (if s.joining then .exited else .checked) else .running

/-- One step of a pool of `threads` workers; `none` when it is not enabled. -/
def step (threads : Nat) (s : PoolState) : PoolStep → Option PoolState
  | .submit i =>
    -- The mutex of a worker between its check and its block is taken.
    if i < threads ∧ s.worker i ≠ .checked then
      some { s with
        jobs := update s.jobs i (s.jobs i + 1)
        owed := update s.owed i (s.owed i + 1) }
    else none
  | .notifySubmitted i =>
    if 0 < s.owed i then some { s.wake i with owed := update s.owed i (s.owed i - 1) }
    else none
  | .check i =>
    if i < threads ∧ s.worker i = .top then
      some { s with worker := update s.worker i (s.afterCheck i) }
    else none
  | .block i =>
    if s.worker i = .checked then some { s with worker := update s.worker i .blocked }
    else none
  | .spurious i => if s.worker i = .blocked then some (s.wake i) else none
  | .finish i =>
    if s.worker i = .running then
      some { s with
        worker := update s.worker i .top
        jobs := update s.jobs i (s.jobs i - 1) }
    else none
  | .store =>
    if s.destructor = .alive then some { s with joining := true, destructor := .notifying 0 }
    else none
  | .notifyAll =>
    match s.destructor with
    | .notifying k =>
      if k < threads then some { s.wake k with destructor := .notifying (k + 1) } else none
    | _ => none
  | .notified =>
    if s.destructor = .notifying threads then some { s with destructor := .joining 0 }
    else none
  | .join =>
    match s.destructor with
    | .joining k =>
      if k < threads ∧ s.worker k = .exited then some { s with destructor := .joining (k + 1) }
      else none
    | _ => none
  | .destroyed =>
    if s.destructor = .joining threads then some { s with destructor := .done } else none

/-- The pool and its runs. -/
def system (threads : Nat) : TransitionSystem PoolState PoolStep where
  init s := s = {}
  step s l t := s.step threads l = some t

/-- The destructor has notified worker `k`. -/
def Notified (threads : Nat) (s : PoolState) (k : Nat) : Prop :=
  match s.destructor with
  | .alive => False
  | .notifying next => k < next
  | .joining _ | .done => k < threads

/-- The destructor joins a worker that is blocked without a job, and no notification is on
its way. -/
def Stuck (threads : Nat) (s : PoolState) : Prop :=
  ∃ k < threads, s.destructor = .joining k ∧ s.worker k = .blocked ∧ s.jobs k = 0 ∧ s.owed k = 0

/-- The destructor does not notify a worker that stands between its check and its block. -/
def NotifiesOutsideWindow (s : PoolState) (l : PoolStep) : Prop :=
  ∀ k, l = .notifyAll → s.destructor = .notifying k → s.worker k ≠ .checked

/-- Once the destructor has notified a worker, it neither blocks nor is about to. -/
structure Awake (threads : Nat) (s : PoolState) : Prop where
  joining : s.destructor ≠ .alive → s.joining = true
  awake : ∀ k, s.Notified threads k → s.worker k ≠ .checked ∧ s.worker k ≠ .blocked

variable {threads : Nat} {s t : PoolState}

theorem Notified.joining {k : Nat} (h : s.Notified threads k) : s.destructor ≠ .alive := by
  intro ha
  simp [Notified, ha] at h

@[simp] theorem wake_destructor (s : PoolState) (i : Nat) :
    (s.wake i).destructor = s.destructor := by
  unfold wake
  split <;> rfl

@[simp] theorem wake_joining (s : PoolState) (i : Nat) : (s.wake i).joining = s.joining := by
  unfold wake
  split <;> rfl

/-- A notification takes no worker into the window, and the notified one out of its wait. -/
theorem wake_worker (s : PoolState) (i k : Nat) :
    (s.wake i).worker k = if k = i ∧ s.worker i = .blocked then .top else s.worker k := by
  unfold wake
  split
  next h =>
    by_cases hk : k = i
    · subst hk
      simp [h]
    · simp [hk]
  next h => simp [h]

/-- A step that leaves the destructor where it is, and takes only a worker to a state in which
it does not wait, or one that was not notified. -/
theorem Awake.of_worker (h : Awake threads s) (hd : t.destructor = s.destructor)
    (hj : t.joining = s.joining)
    (hw : ∀ k, s.Notified threads k → t.worker k ≠ s.worker k →
      t.worker k ≠ .checked ∧ t.worker k ≠ .blocked) : Awake threads t where
  joining hne := by
    rw [hj]
    exact h.joining (hd ▸ hne)
  awake k hk := by
    have hk' : s.Notified threads k := by simpa only [Notified, hd] using hk
    by_cases heq : t.worker k = s.worker k
    · rw [heq]
      exact h.awake k hk'
    · exact hw k hk' heq

theorem Awake.wake (h : Awake threads s) (i : Nat) : Awake threads (s.wake i) := by
  refine h.of_worker (wake_destructor s i) (wake_joining s i) fun k _ hne ↦ ?_
  rw [wake_worker] at hne ⊢
  split at hne
  next hk => simp [hk]
  next hk => exact absurd rfl hne

/-- A step that notifies outside the window keeps the notified workers awake. -/
theorem Awake.step (h : Awake threads s) {l : PoolStep} (hs : s.step threads l = some t)
    (hl : NotifiesOutsideWindow s l) : Awake threads t := by
  cases l with
  | submit i =>
    obtain ⟨-, rfl⟩ := ite_some_iff.mp hs
    exact h.of_worker rfl rfl fun k _ hne ↦ absurd rfl hne
  | notifySubmitted i =>
    obtain ⟨-, rfl⟩ := ite_some_iff.mp hs
    exact (h.wake i).of_worker rfl rfl fun k _ hne ↦ absurd rfl hne
  | check i =>
    obtain ⟨-, rfl⟩ := ite_some_iff.mp hs
    refine h.of_worker rfl rfl fun k hk hne ↦ ?_
    have hjoin := h.joining hk.joining
    by_cases hki : k = i
    · subst hki
      simp only [afterCheck, hjoin, if_true]
      split <;> simp
    · exact absurd (update_of_ne hki _ _) hne
  | block i =>
    obtain ⟨hw, rfl⟩ := ite_some_iff.mp hs
    refine h.of_worker rfl rfl fun k hk hne ↦ ?_
    by_cases hki : k = i
    · subst hki
      exact absurd hw (h.awake k hk).1
    · exact absurd (update_of_ne hki _ _) hne
  | spurious i =>
    obtain ⟨-, rfl⟩ := ite_some_iff.mp hs
    exact h.wake i
  | finish i =>
    obtain ⟨-, rfl⟩ := ite_some_iff.mp hs
    refine h.of_worker rfl rfl fun k _ hne ↦ ?_
    by_cases hki : k = i
    · subst hki
      simp
    · exact absurd (update_of_ne hki _ _) hne
  | store =>
    obtain ⟨-, rfl⟩ := ite_some_iff.mp hs
    exact ⟨fun _ ↦ rfl, fun k hk ↦ absurd hk (Nat.not_lt_zero k)⟩
  | notifyAll =>
    simp only [PoolState.step] at hs
    split at hs
    next k hd =>
      obtain ⟨-, rfl⟩ := ite_some_iff.mp hs
      have hjoin := h.joining (by simp [hd])
      refine ⟨fun _ ↦ by simpa using hjoin, fun j hj ↦ ?_⟩
      rw [wake_worker]
      rcases Nat.lt_succ_iff_lt_or_eq.mp (show j < k + 1 from hj) with hj | rfl
      · have := h.awake j (by simpa only [Notified, hd] using hj)
        split
        · simp
        · exact this
      · -- The worker notified now is outside the window, and does not stay blocked.
        have hwin := hl j rfl hd
        split
        · simp
        next hb => exact ⟨hwin, fun hbl ↦ hb ⟨rfl, hbl⟩⟩
    · cases hs
  | notified =>
    obtain ⟨hd, rfl⟩ := ite_some_iff.mp hs
    exact ⟨fun _ ↦ h.joining (by simp [hd]),
      fun k hk ↦ h.awake k (by simpa only [Notified, hd] using hk)⟩
  | join =>
    simp only [PoolState.step] at hs
    split at hs
    next k hd =>
      obtain ⟨-, rfl⟩ := ite_some_iff.mp hs
      exact ⟨fun _ ↦ h.joining (by simp [hd]),
        fun j hj ↦ h.awake j (by simpa only [Notified, hd] using hj)⟩
    · cases hs
  | destroyed =>
    obtain ⟨hd, rfl⟩ := ite_some_iff.mp hs
    exact ⟨fun _ ↦ h.joining (by simp [hd]),
      fun k hk ↦ h.awake k (by simpa only [Notified, hd] using hk)⟩

/-- In every run in which no worker is notified by the destructor between its check and its
block, the destructor never joins a worker that waits for good. -/
theorem shutdown_not_stuck (threads : Nat) (s : PoolState)
    (h : ((system threads).restrict NotifiesOutsideWindow).Reachable s) :
    ¬Stuck threads s := by
  have hawake : Awake threads s := by
    refine h.invariant ?_ ?_
    · rintro s rfl
      exact ⟨fun hne ↦ absurd rfl hne, fun k hk ↦ absurd hk id⟩
    · rintro s l t hs ⟨hstep, hl⟩
      exact hs.step hstep hl
  rintro ⟨k, hk, hd, hb, -⟩
  exact (hawake.awake k (by simpa only [Notified, hd] using hk)).2 hb

/-- The destructor stores its flag and notifies after the worker's check and before its
block. -/
def lostWakeup : List PoolStep := [.check 0, .store, .notifyAll, .notified, .block 0]

/-- After the lost wake-up the destructor joins a worker that waits for good. -/
theorem shutdown_stuck : ¬∀ threads s, (system threads).Reachable s → ¬Stuck threads s := by
  intro hall
  let s := (lostWakeup.foldlM (step 1) {}).get rfl
  have hs : (system 1).Reachable s :=
    ⟨{}, lostWakeup, rfl, .of_foldlM (fun _ _ _ h ↦ h) (Option.some_get _).symm⟩
  exact hall 1 s hs ⟨0, Nat.one_pos, rfl, rfl, rfl, rfl⟩

/-- A worker that blocks before it is notified is joined. -/
theorem blocked_worker_joined : ∃ s, ((system 1).restrict NotifiesOutsideWindow).Reachable s ∧
    s.destructor = .joining 0 ∧ ¬Stuck 1 s := by
  let steps : List PoolStep := [.check 0, .block 0, .store, .notifyAll, .notified]
  let s := (steps.foldlM (step 1) {}).get rfl
  have hs : ((system 1).restrict NotifiesOutsideWindow).Reachable s := by
    refine ⟨{}, steps, rfl, .cons ⟨rfl, ?_⟩ (.cons ⟨rfl, ?_⟩ (.cons ⟨rfl, ?_⟩
      (.cons ⟨rfl, ?_⟩ (.cons ⟨rfl, ?_⟩ (.nil _)))))⟩ <;> rintro k hl hd <;> cases hl
    cases hd
    simp
  exact ⟨s, hs, rfl, shutdown_not_stuck 1 s hs⟩

end PoolState
end Hisab.Parallel
