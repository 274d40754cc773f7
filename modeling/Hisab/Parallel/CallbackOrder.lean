import Hisab.Parallel.CallbackInvariant

/-!
# Tasks run once and after their priors

What the ledger says about the runs of the queue: no function is called twice, none before
the priors of its task are ready, and a task on hold whose last prior is done has a thread
that is about to launch it.
-/

namespace Hisab.Parallel.CallbackQueue

open Base Ledger

variable {n workers d x : Nat} {s : CallbackQueue}

theorem Inv.start (n workers : Nat) : Inv n (start workers) where
  ledger := by
    have hnil : held stackRoles n (CallbackQueue.start workers).thread = [] := by
      refine List.flatMap_eq_nil_iff.mpr fun t _ ↦ ?_
      simp only [CallbackQueue.start]
      split <;> rfl
    have hroles : (CallbackQueue.ledger n (CallbackQueue.start workers)).roles = [] := by
      simp only [CallbackQueue.ledger, hnil]
      rfl
    exact ⟨by simp [hroles], by simp [hroles], .nil, by simp [CallbackQueue.ledger,
      CallbackQueue.start], by simp [CallbackQueue.ledger, CallbackQueue.start],
      by simp [CallbackQueue.ledger, CallbackQueue.start],
      by simp [CallbackQueue.ledger, CallbackQueue.start],
      by simp [CallbackQueue.ledger, CallbackQueue.start],
      by simp [CallbackQueue.ledger, CallbackQueue.start],
      by simp [CallbackQueue.ledger, CallbackQueue.start],
      by simp [CallbackQueue.ledger, CallbackQueue.start]⟩
  frames t _ f hf := by
    simp only [CallbackQueue.start] at hf
    split at hf <;> rw [List.mem_singleton.mp hf] <;> trivial
  controls := List.forall_mem_nil _

theorem Inv.of_reachable (h : (system n workers).Reachable s) : Inv n s := by
  refine h.invariant ?_ fun _ _ _ hs hstep ↦ hs.step hstep
  rintro s rfl
  exact .start n workers

/-- The tasks that a frame has taken off hold and not put into the queue yet. -/
def launchList : QueueFrame → List Nat
  | .signalling _ ds | .launch ds | .launching _ ds => ds
  | _ => []

/-- The frame counts the dependents of `x` down. -/
def Signals (x : Nat) : QueueFrame → Prop
  | .signal y | .signalling y _ => y = x
  | _ => False

/-- Steps that launch `d` are pending: a thread has it in its list, or it is still registered
as often as its counter says and every future where it is registered is being signalled. -/
def LaunchPending (n : Nat) (s : CallbackQueue) (d : Nat) : Prop :=
  (∃ t < n, ∃ f ∈ s.thread t, d ∈ launchList f) ∨
    0 < (s.future d).remaining ∧ (s.future d).remaining = outstanding s.future s.count d ∧
      ∀ x < s.count, d ∈ (s.future x).dependents → ∃ t < n, ∃ f ∈ s.thread t, Signals x f

theorem toLaunch_mem_frameRoles {f : QueueFrame} (h : (d, .toLaunch) ∈ frameRoles f) :
    d ∈ launchList f := by
  unfold frameRoles at h
  split at h <;> simp_all [launchList]

theorem signalling_mem_frameRoles {f : QueueFrame} (h : (x, .signalling) ∈ frameRoles f) :
    Signals x f := by
  unfold frameRoles at h
  split at h <;> simp_all [Signals]

/-- A role other than that of a queued task is that of a frame. -/
theorem exists_frame_of_role {role : FutureRole} (h : (x, role) ∈ (s.ledger n).roles)
    (hrole : role ≠ .queued) : ∃ t < n, ∃ f ∈ s.thread t, (x, role) ∈ frameRoles f := by
  rcases List.mem_append.mp h with h | h
  · obtain ⟨a, -, ha⟩ := List.mem_filterMap.mp h
    obtain ⟨y, -, hy⟩ := Option.map_eq_some_iff.mp ha
    exact absurd (congrArg Prod.snd hy).symm hrole
  · obtain ⟨t, ht, hmem⟩ := mem_held.mp h
    obtain ⟨f, hf, hmem⟩ := List.mem_flatMap.mp hmem
    exact ⟨t, ht, f, hf, hmem⟩

/-- A task on hold whose count is zero is in the list of a thread that launches it. -/
theorem Inv.launchList_of_zero (h : Inv n s) (hd : d < s.count)
    (hs : (s.future d).status = .onHold) (hz : (s.future d).remaining = 0) :
    ∃ t < n, ∃ f ∈ s.thread t, d ∈ launchList f := by
  obtain ⟨t, ht, f, hf, hmem⟩ := exists_frame_of_role ((h.ledger.onHold d hd hs).2 hz) (by simp)
  exact ⟨t, ht, f, hf, toLaunch_mem_frameRoles hmem⟩

/-- A ready future with dependents is being signalled. -/
theorem Inv.signals_of_ready (h : Inv n s) (hx : x < s.count)
    (hs : (s.future x).status = .ready) (hd : d ∈ (s.future x).dependents) :
    ∃ t < n, ∃ f ∈ s.thread t, Signals x f := by
  have hrole := h.ledger.signalling x hx hs (List.ne_nil_of_mem hd)
  obtain ⟨t, ht, f, hf, hmem⟩ := exists_frame_of_role hrole (by simp)
  exact ⟨t, ht, f, hf, signalling_mem_frameRoles hmem⟩

/-- In every state that the queue reaches, with any number of threads and any interleaving: no
function was called twice, none before the priors of its task were ready, and a task on hold
with nothing left to wait for has its launch pending. -/
theorem called_once_after_priors (n workers : Nat) (s : CallbackQueue)
    (h : (system n workers).Reachable s) :
    s.entered.Nodup ∧ (∀ x ∈ s.entered, ∀ p ∈ (s.future x).priors, (s.future p).status = .ready) ∧
      ∀ d < s.count, (s.future d).status = .onHold →
        ((s.future d).remaining = 0 ∨ ∀ p ∈ (s.future d).priors, (s.future p).status = .ready) →
        s.LaunchPending n d := by
  have hinv := Inv.of_reachable h
  refine ⟨hinv.ledger.enteredNodup, fun x hx p ↦ hinv.ledger.priors_ready hx,
    fun d hd hs hdone ↦ ?_⟩
  by_cases hz : (s.future d).remaining = 0
  · exact .inl (hinv.launchList_of_zero hd hs hz)
  · have hpriors := hdone.resolve_left hz
    have hout : (s.future d).remaining = outstanding s.future s.count d :=
      (hinv.ledger.onHold d hd hs).1
    refine .inr ⟨by omega, hout, fun x hx hdx ↦ ?_⟩
    exact hinv.signals_of_ready hx (hpriors x (hinv.ledger.dependents x hx d hdx).2.1) hdx

/-- The client pushes a task and one that depends on it; the registration runs on the second
worker while the first runs the task, which then counts the dependent down. -/
def dependentRun : List QueueStep :=
  [⟨2, .push false⟩, ⟨2, .advance⟩, ⟨2, .pushDependent [0] false⟩, ⟨2, .advance⟩, ⟨2, .advance⟩,
    ⟨0, .advance⟩, ⟨0, .advance⟩, ⟨1, .advance⟩, ⟨1, .advance⟩, ⟨1, .advance⟩, ⟨1, .advance⟩,
    ⟨1, .advance⟩, ⟨1, .advance⟩, ⟨0, .finish⟩, ⟨0, .advance⟩, ⟨0, .advance⟩]

/-- The dependent task is on hold with its count at zero, and its launch is pending. -/
theorem dependent_launch_pending : ∃ s, (system 3 2).Reachable s ∧ s.entered = [0, 2] ∧
    (s.future 1).status = .onHold ∧ (s.future 1).remaining = 0 ∧ s.LaunchPending 3 1 := by
  let s := (dependentRun.foldlM (step 3) (CallbackQueue.start 2)).get rfl
  have hs : (system 3 2).Reachable s :=
    ⟨_, dependentRun, rfl, .of_foldlM (fun _ _ _ h ↦ h) (Option.some_get _).symm⟩
  obtain ⟨-, -, hpending⟩ := called_once_after_priors 3 2 s hs
  exact ⟨s, hs, rfl, rfl, rfl, hpending 1 (by decide) rfl (.inl rfl)⟩

end Hisab.Parallel.CallbackQueue
